import TinyLisp.Proofs.StoreLaws

/-!
# Confined changes of the store

An evaluation in a scope writes to the innermost frame of the scope, to the slots that this
frame binds, and to frames and slots that it makes itself. `Store.Confined o s t` says so of the
stores `s` and `t` before and after: `o` is the one old frame that may have changed, if there is
one.

Where an evaluation opens a scope of its own, its writes go to a frame that is *fresh* with
respect to the store it started from: the frame is new, and so is every slot that it binds. What
is confined to a fresh frame is confined to any old one, and to none (`Confined.inside`).
-/

namespace TinyLisp.Store

variable {s t u : Store} {o : Option FrameId} {g : FrameId} {scope : Scope}

/-! ## §1. The relation -/

/-- From `s` to `t`, of all that was there only the frame in `o` and the slots that it binds
have changed; and that frame keeps its slots and gets new ones only. -/
structure Confined (o : Option FrameId) (s t : Store) : Prop where
  frames_le : s.frames.size ≤ t.frames.size
  slots_le : s.slots.size ≤ t.slots.size
  frame_eq : ∀ g, g < s.frames.size → o ≠ some g → t.frame g = s.frame g
  slot_kept : ∀ f, o = some f → ∀ name slot, s.slotIn? f name = some slot →
    t.slotIn? f name = some slot
  slot_new : ∀ f, o = some f → ∀ name slot, t.slotIn? f name = some slot →
    s.slotIn? f name = some slot ∨ s.slots.size ≤ slot
  content_eq : ∀ slot, slot < s.slots.size →
    (∀ f, o = some f → ∀ name, s.slotIn? f name ≠ some slot) → t.content slot = s.content slot

namespace Confined

theorem refl (o : Option FrameId) (s : Store) : Confined o s s where
  frames_le := Nat.le_refl _
  slots_le := Nat.le_refl _
  frame_eq _ _ _ := rfl
  slot_kept _ _ _ _ h := h
  slot_new _ _ _ _ h := .inl h
  content_eq _ _ _ := rfl

theorem trans (h : Confined o s t) (h' : Confined o t u) : Confined o s u where
  frames_le := Nat.le_trans h.frames_le h'.frames_le
  slots_le := Nat.le_trans h.slots_le h'.slots_le
  frame_eq := by
    intro g hg hne
    rw [h'.frame_eq g (Nat.lt_of_lt_of_le hg h.frames_le) hne, h.frame_eq g hg hne]
  slot_kept f hf name slot hs := h'.slot_kept f hf name slot (h.slot_kept f hf name slot hs)
  slot_new := by
    intro f hf name slot hu
    rcases h'.slot_new f hf name slot hu with ht | hle
    · exact h.slot_new f hf name slot ht
    · exact .inr (Nat.le_trans h.slots_le hle)
  content_eq := by
    intro slot hlt hs
    have ht : ∀ f, o = some f → ∀ name, t.slotIn? f name ≠ some slot := by
      intro f hf name ht
      rcases h.slot_new f hf name slot ht with hs' | hle
      · exact hs f hf name hs'
      · exact absurd hlt (Nat.not_lt.2 hle)
    rw [h'.content_eq slot (Nat.lt_of_lt_of_le hlt h.slots_le) ht, h.content_eq slot hlt hs]

end Confined

/-! ## §2. Fresh scopes -/

/-- The innermost frame of a scope was made after `s`, and so were all slots that it binds. -/
def Fresh (s t : Store) (scope : Scope) : Prop :=
  ∀ g, scope.head? = some g →
    s.frames.size ≤ g ∧ g < t.frames.size ∧
      ∀ name slot, t.slotIn? g name = some slot → s.slots.size ≤ slot

/-- A fresh scope stays fresh, whichever frame the changes are confined to. -/
theorem Fresh.later (h : Fresh s t scope) (hst : s.slots.size ≤ t.slots.size)
    (hc : Confined o t u) : Fresh s u scope := by
  intro g hg
  obtain ⟨hge, hlt, hslots⟩ := h g hg
  refine ⟨hge, Nat.lt_of_lt_of_le hlt hc.frames_le, ?_⟩
  intro name slot hu
  by_cases ho : o = some g
  · rcases hc.slot_new g ho name slot hu with ht | hle
    · exact hslots name slot ht
    · exact Nat.le_trans hst hle
  · unfold slotIn? at hu
    rw [hc.frame_eq g hlt ho] at hu
    exact hslots name slot hu

/-- What is fresh is fresh with respect to earlier stores. -/
theorem Fresh.since (h : Fresh t u scope) (hc : Confined o s t) : Fresh s u scope := by
  intro g hg
  obtain ⟨hge, hlt, hslots⟩ := h g hg
  refine ⟨Nat.le_trans hc.frames_le hge, hlt, ?_⟩
  intro name slot hu
  exact Nat.le_trans hc.slots_le (hslots name slot hu)

/-- What is confined to a fresh frame touches nothing that was there before. -/
theorem Confined.inside (h : Confined o s t) (ho : ∀ f, o = some f → f < s.frames.size)
    (hi : Fresh s t scope) (h' : Confined scope.head? t u) : Confined o s u := by
  have hfr : ∀ k, k < s.frames.size → u.frame k = t.frame k := by
    intro k hk
    refine h'.frame_eq k (Nat.lt_of_lt_of_le hk h.frames_le) ?_
    intro hg
    exact absurd hk (Nat.not_lt.2 (hi k hg).1)
  have hin : ∀ f, o = some f → ∀ name, u.slotIn? f name = t.slotIn? f name := by
    intro f hf name
    unfold slotIn?
    rw [hfr f (ho f hf)]
  refine ⟨Nat.le_trans h.frames_le h'.frames_le, Nat.le_trans h.slots_le h'.slots_le,
    ?_, ?_, ?_, ?_⟩
  · intro k hk hne
    rw [hfr k hk, h.frame_eq k hk hne]
  · intro f hf name slot hs
    rw [hin f hf]
    exact h.slot_kept f hf name slot hs
  · intro f hf name slot hu
    rw [hin f hf] at hu
    exact h.slot_new f hf name slot hu
  · intro slot hlt hs
    -- a slot that the fresh frame binds is new, so an old slot is none of those
    have hg : ∀ g, scope.head? = some g → ∀ name, t.slotIn? g name ≠ some slot := by
      intro g hg name ht
      exact absurd hlt (Nat.not_lt.2 ((hi g hg).2.2 name slot ht))
    rw [h'.content_eq slot (Nat.lt_of_lt_of_le hlt h.slots_le) hg, h.content_eq slot hlt hs]

/-- What touches nothing old is confined to any old frame. -/
theorem Confined.of_none (h : Confined none s t) (ho : ∀ f, o = some f → f < s.frames.size) :
    Confined o s t := by
  have hi : Fresh s s [] := fun g hg => absurd hg (by simp)
  exact (Confined.refl o s).inside ho hi h

/-! ## §3. Operations -/

/-- A new frame changes nothing that is there. -/
theorem confined_newFrame (o : Option FrameId) (s : Store) : Confined o s s.newFrame.2 where
  frames_le := by simp
  slots_le := by simp
  frame_eq g _ _ := frame_newFrame s g
  slot_kept f _ name slot h := by
    unfold slotIn?
    rw [frame_newFrame]
    exact h
  slot_new f _ name slot h := by
    unfold slotIn? at h
    rw [frame_newFrame] at h
    exact .inl h
  content_eq slot _ _ := content_newFrame s slot

/-- A new frame inside a scope is fresh. -/
theorem fresh_newFrame (s : Store) (scope : Scope) :
    Fresh s s.newFrame.2 (s.newFrame.1 :: scope) := by
  intro g hg
  obtain rfl : s.frames.size = g := by simpa using hg
  refine ⟨Nat.le_refl _, by simp, ?_⟩
  intro name slot h
  rw [slotIn?_newFrame_size] at h
  cases h

/-- A binding in a frame is confined to it. -/
theorem confined_bind (s : Store) (f : FrameId) (name : String) (v : Value) :
    Confined (some f) s (s.bind f name v) := by
  cases h : s.slotIn? f name with
  | some slot =>
    rw [bind_of_some h]
    refine ⟨by simp, by simp, fun _ _ _ => rfl, fun _ _ _ _ hs => hs, fun _ _ _ _ hs => .inl hs,
      ?_⟩
    intro sl _ hs
    have hne : sl ≠ slot := by
      rintro rfl
      exact hs f rfl name h
    exact content_fill_of_ne hne
  | none =>
    refine ⟨by simp, by simp [slots_size_bind_of_none h], ?_, ?_, ?_, ?_⟩
    · intro g _ hg
      have hgf : g ≠ f := fun e => hg (e ▸ rfl)
      exact frame_bind_of_ne hgf
    · rintro _ ⟨rfl⟩ n sl hs
      exact slotIn?_bind_of_some hs name v
    · rintro _ ⟨rfl⟩ n sl hs
      have hf : f < s.frames.size := by simpa using lt_size_of_slotIn? hs
      rw [slotIn?_bind_of_none h hf] at hs
      split at hs
      · exact .inr (Nat.le_of_eq (Option.some.inj hs))
      · exact .inl hs
    · intro sl hlt _
      rw [content_bind_of_none h, if_neg (Nat.ne_of_lt hlt)]

/-- So are several bindings. -/
theorem confined_bindAll (s : Store) (f : FrameId) (bs : List (String × Value)) :
    Confined (some f) s (s.bindAll f bs) := by
  induction bs generalizing s with
  | nil => exact .refl _ s
  | cons b bs ih =>
    obtain ⟨name, v⟩ := b
    unfold bindAll
    exact (confined_bind s f name v).trans (ih _)

/-- Slots given to a fresh frame change no old frame, nor any content. -/
theorem Confined.bindSlots (h : Confined o s t) (ho : ∀ f, o = some f → f < s.frames.size)
    (hg : Fresh s t (g :: scope)) (bs : List (String × SlotId)) :
    Confined o s (t.bindSlots g bs) := by
  obtain ⟨hge, -, -⟩ := hg g rfl
  have hfr : ∀ k, k < s.frames.size → (t.bindSlots g bs).frame k = t.frame k := by
    intro k hk
    exact frame_bindSlots_of_ne (Nat.ne_of_lt (Nat.lt_of_lt_of_le hk hge)) bs
  refine ⟨by simpa using h.frames_le, by simpa using h.slots_le, ?_, ?_, ?_, ?_⟩
  · intro k hk hne
    rw [hfr k hk, h.frame_eq k hk hne]
  · intro f hf name slot hs
    unfold slotIn?
    rw [hfr f (ho f hf)]
    exact h.slot_kept f hf name slot hs
  · intro f hf name slot hs
    unfold slotIn? at hs
    rw [hfr f (ho f hf)] at hs
    exact h.slot_new f hf name slot hs
  · intro slot hlt hs
    unfold content
    rw [slots_bindSlots]
    exact h.content_eq slot hlt hs

/-- The slots there are to be bound must be new for the frame to stay fresh. -/
theorem Fresh.bindSlots (h : Fresh s t scope) {bs : List (String × SlotId)}
    (hbs : ∀ b ∈ bs, s.slots.size ≤ b.2) : Fresh s (t.bindSlots g bs) scope := by
  intro k hk
  obtain ⟨hge, hlt, hslots⟩ := h k hk
  refine ⟨hge, by simpa using hlt, ?_⟩
  intro name slot hs
  rcases slotIn?_bindSlots hs with ht | hb
  · exact hslots name slot ht
  · exact hbs (name, slot) hb

/-- A value put into a new slot changes nothing old. -/
theorem Confined.fill (h : Confined o s t) {slot : SlotId} (hs : s.slots.size ≤ slot)
    (v : Value) : Confined o s (t.fill slot v) := by
  refine ⟨h.frames_le, by simpa using h.slots_le, h.frame_eq, h.slot_kept, h.slot_new, ?_⟩
  intro sl hlt hsl
  rw [content_fill_of_ne (Nat.ne_of_lt (Nat.lt_of_lt_of_le hlt hs)), h.content_eq sl hlt hsl]

/-- Neither do new empty slots. -/
theorem Confined.newSlots (h : Confined o s t) (names : List String) :
    Confined o s (t.newSlots names).2 := by
  have hfr : ∀ k, (t.newSlots names).2.frame k = t.frame k := by
    intro k
    unfold frame
    rw [frames_newSlots]
  refine ⟨?_, ?_, ?_, ?_, ?_, ?_⟩
  · rw [frames_newSlots]
    exact h.frames_le
  · rw [slots_size_newSlots]
    exact Nat.le_trans h.slots_le (Nat.le_add_right _ _)
  · intro k hk hne
    rw [hfr, h.frame_eq k hk hne]
  · intro f hf name slot hs
    unfold slotIn?
    rw [hfr]
    exact h.slot_kept f hf name slot hs
  · intro f hf name slot hs
    unfold slotIn? at hs
    rw [hfr] at hs
    exact h.slot_new f hf name slot hs
  · intro slot hlt hs
    rw [content_newSlots, h.content_eq slot hlt hs]

theorem Fresh.newSlots (h : Fresh s t scope) (names : List String) :
    Fresh s (t.newSlots names).2 scope := by
  intro g hg
  obtain ⟨hge, hlt, hslots⟩ := h g hg
  refine ⟨hge, by rwa [frames_newSlots], ?_⟩
  intro name slot hs
  unfold slotIn? frame at hs
  rw [frames_newSlots] at hs
  exact hslots name slot hs

/-- New slots are new. -/
theorem Confined.le_of_mem_newSlots (h : Confined o s t) {names : List String} {slot : SlotId}
    (hm : slot ∈ (t.newSlots names).1) : s.slots.size ≤ slot := by
  rw [newSlots_fst] at hm
  exact Nat.le_trans h.slots_le (List.mem_range'_1.1 hm).1

end TinyLisp.Store
