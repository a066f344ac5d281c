import TinyLisp.Proofs.StoreLaws
import TinyLisp.World

/-!
# Growth of worlds

Frames, slots and bodies are only ever added. A name keeps its slot, and a slot that holds a value
goes on to hold one. A frame that is there gets new names only together with their values: the
frames whose names come before their values are new when they get them. `World.Grows` says so of
two worlds, the one later than the other.
-/

namespace TinyLisp

namespace Store

variable {s t u : Store} {f : FrameId}

/-! ## §1. Stores -/

/-- From `s` to `t` nothing is given up, and old frames get new names with values only. -/
structure Grows (s t : Store) : Prop where
  frames_le : s.frames.size ≤ t.frames.size
  slots_le : s.slots.size ≤ t.slots.size
  kept : ∀ {g name slot}, s.slotIn? g name = some slot → t.slotIn? g name = some slot
  filled : ∀ {slot}, (s.content slot).isSome → (t.content slot).isSome
  fresh : ∀ {g name slot}, g < s.frames.size → t.slotIn? g name = some slot →
    s.slotIn? g name = some slot ∨ s.slots.size ≤ slot ∧ (t.content slot).isSome

/-- A slot that holds a value is one of the store's slots. -/
theorem lt_size_of_content {slot : SlotId} {v : Value} (h : s.content slot = some v) :
    slot < s.slots.size := by
  apply Nat.lt_of_not_le
  intro hle
  rw [content_of_size_le hle] at h
  exact absurd h (by simp)

namespace Grows

theorem refl (s : Store) : s.Grows s :=
  ⟨Nat.le_refl _, Nat.le_refl _, id, id, fun _ h => .inl h⟩

theorem trans (h : s.Grows t) (h' : t.Grows u) : s.Grows u where
  frames_le := Nat.le_trans h.frames_le h'.frames_le
  slots_le := Nat.le_trans h.slots_le h'.slots_le
  kept hs := h'.kept (h.kept hs)
  filled hs := h'.filled (h.filled hs)
  fresh := by
    intro g name slot hg hu
    rcases h'.fresh (Nat.lt_of_lt_of_le hg h.frames_le) hu with ht | ⟨hle, hfilled⟩
    · rcases h.fresh hg ht with hs | ⟨hle, hfilled⟩
      · exact .inl hs
      · exact .inr ⟨hle, h'.filled hfilled⟩
    · exact .inr ⟨Nat.le_trans h.slots_le hle, hfilled⟩

theorem newFrame (h : s.Grows t) : s.Grows t.newFrame.2 where
  frames_le := by
    rw [frames_size_newFrame]
    exact Nat.le_succ_of_le h.frames_le
  slots_le := h.slots_le
  kept hs := by
    unfold slotIn?
    rw [frame_newFrame]
    exact h.kept hs
  filled hs := h.filled hs
  fresh hg ht := by
    unfold slotIn? at ht
    rw [frame_newFrame] at ht
    exact h.fresh hg ht

/-- Slots may be given to a frame that was not there. -/
theorem bindSlots (h : s.Grows t) (hf : s.frames.size ≤ f) (bs : List (String × SlotId)) :
    s.Grows (t.bindSlots f bs) := by
  -- the slots are bound in a frame that `s` does not have
  have hframe : ∀ g, g < s.frames.size → (t.bindSlots f bs).frame g = t.frame g :=
    fun g hg => frame_bindSlots_of_ne (Nat.ne_of_lt (Nat.lt_of_lt_of_le hg hf)) bs
  have hcontent : ∀ slot, (t.bindSlots f bs).content slot = t.content slot := by
    intro slot
    unfold content
    rw [slots_bindSlots]
  refine ⟨?_, ?_, ?_, ?_, ?_⟩
  · rw [frames_size_bindSlots]
    exact h.frames_le
  · rw [slots_bindSlots]
    exact h.slots_le
  · intro g name slot hs
    unfold slotIn?
    rw [hframe g (lt_size_of_slotIn? hs)]
    exact h.kept hs
  · intro slot hs
    rw [hcontent]
    exact h.filled hs
  · intro g name slot hg ht
    unfold slotIn? at ht
    rw [hframe g hg] at ht
    rw [hcontent]
    exact h.fresh hg ht

theorem newSlots (h : s.Grows t) (names : List String) : s.Grows (t.newSlots names).2 := by
  have hslot : ∀ g name, (t.newSlots names).2.slotIn? g name = t.slotIn? g name := by
    intro g name
    unfold slotIn? frame
    rw [frames_newSlots]
  refine ⟨?_, ?_, ?_, ?_, ?_⟩
  · rw [frames_newSlots]
    exact h.frames_le
  · rw [slots_size_newSlots]
    exact Nat.le_trans h.slots_le (Nat.le_add_right _ _)
  · intro g name slot hs
    rw [hslot]
    exact h.kept hs
  · intro slot hs
    rw [content_newSlots]
    exact h.filled hs
  · intro g name slot hg ht
    rw [hslot] at ht
    rw [content_newSlots]
    exact h.fresh hg ht

/-- If an old frame has values for its names, it has values for all names that it binds later. -/
theorem filled_frame (h : s.Grows t) (hf : f < s.frames.size)
    (hall : ∀ name slot, s.slotIn? f name = some slot → (s.content slot).isSome) :
    ∀ name slot, t.slotIn? f name = some slot → (t.content slot).isSome := by
  intro name slot ht
  rcases h.fresh hf ht with hs | ⟨-, hfilled⟩
  · exact h.filled (hall name slot hs)
  · exact hfilled

end Grows

theorem grows_fill (s : Store) (slot : SlotId) (v : Value) : s.Grows (s.fill slot v) where
  frames_le := by simp
  slots_le := by simp
  kept hs := hs
  filled := by
    intro t ht
    by_cases hslot : t = slot
    · subst hslot
      obtain ⟨u, hu⟩ := Option.isSome_iff_exists.1 ht
      rw [content_fill (lt_size_of_content hu)]
      simp
    · rw [content_fill_of_ne hslot]
      exact ht
  fresh _ hs := .inl hs

/-- What a binding leaves in the slots. -/
theorem content_bind {slot : SlotId} {name : String} {v u : Value}
    (h : (s.bind f name v).content slot = some u) :
    s.content slot = some u ∨ u = v ∧
      (s.slotIn? f name = some slot ∨ slot = s.slots.size) := by
  cases hs : s.slotIn? f name with
  | some t =>
    rw [bind_of_some hs] at h
    by_cases ht : slot = t
    · subst ht
      have hlt : slot < s.slots.size := by simpa using lt_size_of_content h
      rw [content_fill hlt, if_pos rfl] at h
      exact .inr ⟨(Option.some.inj h).symm, .inl rfl⟩
    · rw [content_fill_of_ne ht] at h
      exact .inl h
  | none =>
    rw [content_bind_of_none hs] at h
    split at h
    · next ht => exact .inr ⟨(Option.some.inj h).symm, .inr ht⟩
    · exact .inl h

/-- A binding gives a name at most one new slot, with the value in it. -/
theorem slotIn?_bind {g : FrameId} {name other : String} {slot : SlotId} {v : Value}
    (h : (s.bind f name v).slotIn? g other = some slot) :
    s.slotIn? g other = some slot ∨ g = f ∧ slot = s.slots.size ∧
      (s.bind f name v).slots.size = s.slots.size + 1 ∧
      (s.bind f name v).content slot = some v := by
  cases hs : s.slotIn? f name with
  | some t =>
    rw [bind_of_some hs] at h
    exact .inl h
  | none =>
    by_cases hg : g = f
    · subst hg
      have hlt : g < s.frames.size := by simpa using lt_size_of_slotIn? h
      rw [slotIn?_bind_of_none hs hlt] at h
      split at h
      · obtain rfl := Option.some.inj h
        refine .inr ⟨rfl, rfl, slots_size_bind_of_none hs, ?_⟩
        rw [content_bind_of_none hs, if_pos rfl]
      · exact .inl h
    · unfold slotIn? at h
      rw [frame_bind_of_ne hg] at h
      exact .inl h

theorem slots_size_le_bind (s : Store) (f : FrameId) (name : String) (v : Value) :
    s.slots.size ≤ (s.bind f name v).slots.size ∧
      (s.bind f name v).slots.size ≤ s.slots.size + 1 := by
  cases hs : s.slotIn? f name with
  | some t =>
    rw [bind_of_some hs, slots_size_fill]
    exact ⟨Nat.le_refl _, Nat.le_succ _⟩
  | none =>
    rw [slots_size_bind_of_none hs]
    exact ⟨Nat.le_succ _, Nat.le_refl _⟩

theorem grows_bind (s : Store) (f : FrameId) (name : String) (v : Value) :
    s.Grows (s.bind f name v) := by
  cases hs : s.slotIn? f name with
  | some slot =>
    rw [bind_of_some hs]
    exact grows_fill s slot v
  | none =>
    refine ⟨by simp, (slots_size_le_bind s f name v).1, ?_, ?_, ?_⟩
    · intro g other slot hg
      exact slotIn?_bind_of_some hg name v
    · intro slot hslot
      obtain ⟨u, hu⟩ := Option.isSome_iff_exists.1 hslot
      rw [content_bind_of_none hs, if_neg (Nat.ne_of_lt (lt_size_of_content hu))]
      exact hslot
    · intro g other slot _ hg
      -- a binding that is new has its value already, and is no empty slot in an old frame
      rcases slotIn?_bind hg with hold | ⟨-, hslot, -, hcontent⟩
      · exact .inl hold
      · refine .inr ⟨Nat.le_of_eq hslot.symm, ?_⟩
        rw [hcontent]
        rfl

end Store

/-! ## §2. Worlds -/

namespace World

variable {w w' w'' : World}

/-- From `w` to `w'` nothing is given up, and bodies stay what they are. -/
structure Grows (w w' : World) : Prop where
  store : w.store.Grows w'.store
  bodies_le : w.bodies.size ≤ w'.bodies.size
  bodies_eq : ∀ {id}, id < w.bodies.size → w'.bodies[id]? = w.bodies[id]?

theorem Grows.trans (h : w.Grows w') (h' : w'.Grows w'') : w.Grows w'' where
  store := h.store.trans h'.store
  bodies_le := Nat.le_trans h.bodies_le h'.bodies_le
  bodies_eq hid := (h'.bodies_eq (Nat.lt_of_lt_of_le hid h.bodies_le)).trans (h.bodies_eq hid)

/-- A change of the store alone. -/
theorem grows_of_store (h : w.store.Grows w'.store) (hb : w'.bodies = w.bodies) :
    w.Grows w' where
  store := h
  bodies_le := Nat.le_of_eq (by rw [hb])
  bodies_eq _ := by rw [hb]

theorem Grows.refl (w : World) : w.Grows w :=
  grows_of_store (.refl _) rfl

/-- One more body. -/
theorem grows_push (w : World) (body : Expr) :
    w.Grows { w with bodies := w.bodies.push body } where
  store := .refl _
  bodies_le := by simp
  bodies_eq hid := by simp [Array.getElem?_push, Nat.ne_of_lt hid]

end World

end TinyLisp
