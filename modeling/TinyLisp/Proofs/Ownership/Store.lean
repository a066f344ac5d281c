import TinyLisp.Proofs.Region.Growth

/-!
# Owners in a store

Frames *own* the slots that they bind if no two of them bind the same slot and none binds a slot to
two names (`Store.Owned`). A new frame may be an owner, and an owner may get new names: each gets a
slot of its own, also if the slot is still empty. A frame that is given slots of other frames is no
owner, and it leaves the owners what they are.
-/

namespace TinyLisp

namespace Store

variable {s s' : Store} {owns owns' : FrameId → Prop} {f : FrameId} {name : String}

/-- Some frames of a store own the slots that they bind. -/
structure Owned (s : Store) (owns : FrameId → Prop) : Prop where
  frames : ∀ {f}, owns f → f < s.frames.size
  slots : ∀ {f name slot}, owns f → s.slotIn? f name = some slot → slot < s.slots.size
  sole : ∀ {f g name other slot}, owns f → owns g → s.slotIn? f name = some slot →
    s.slotIn? g other = some slot → f = g ∧ name = other

namespace Owned

/-! ## §1. Changes -/

/-- A change leaves owners what they are if each new slot is bound once by the owners. -/
theorem after (h : s.Owned owns) (hg : s.Grows s') (hframes : ∀ {f}, owns' f → f < s'.frames.size)
    (hslot : ∀ {f name slot}, owns' f → s'.slotIn? f name = some slot →
      owns f ∧ s.slotIn? f name = some slot ∨ s.slots.size ≤ slot ∧ slot < s'.slots.size)
    (hsole : ∀ {f g name other slot}, owns' f → owns' g → s.slots.size ≤ slot →
      s'.slotIn? f name = some slot → s'.slotIn? g other = some slot → f = g ∧ name = other) :
    s'.Owned owns' where
  frames := hframes
  slots := by
    intro f name slot hf hs
    rcases hslot hf hs with ⟨hold, hs⟩ | ⟨-, hlt⟩
    · exact Nat.lt_of_lt_of_le (h.slots hold hs) hg.slots_le
    · exact hlt
  sole := by
    intro f g name other slot hf hg' hname hother
    -- slots that were there have one binding by what was known, new ones by the change
    by_cases hnew : s.slots.size ≤ slot
    · exact hsole hf hg' hnew hname hother
    · rcases hslot hf hname with ⟨hf', hname'⟩ | ⟨hge, -⟩
      · rcases hslot hg' hother with ⟨hg'', hother'⟩ | ⟨hge, -⟩
        · exact h.sole hf' hg'' hname' hother'
        · exact absurd hge hnew
      · exact absurd hge hnew

/-- A change after which the owners bind what they bound. -/
theorem after_same (h : s.Owned owns) (hg : s.Grows s')
    (hframes : ∀ {f}, owns' f → f < s'.frames.size)
    (hslot : ∀ {f name slot}, owns' f → s'.slotIn? f name = some slot →
      owns f ∧ s.slotIn? f name = some slot) : s'.Owned owns' := by
  refine h.after hg hframes (fun hf hs => .inl (hslot hf hs)) ?_
  intro f g name other slot hf _ hge hname _
  obtain ⟨hold, hs⟩ := hslot hf hname
  exact absurd (h.slots hold hs) (Nat.not_lt.2 hge)

/-- The owners may be told in another way. -/
theorem congr (h : s.Owned owns) (howns : ∀ f, owns' f ↔ owns f) : s.Owned owns' := by
  have heq : owns' = owns := funext fun f => propext (howns f)
  rw [heq]
  exact h

/-! ## §2. Frames and names -/

/-- A new frame, without bindings, as an owner. -/
theorem newFrame (h : s.Owned owns) :
    s.newFrame.2.Owned fun f => owns f ∨ f = s.frames.size := by
  refine h.after_same (Grows.refl s).newFrame ?_ ?_
  · intro f hf
    rw [frames_size_newFrame]
    rcases hf with hf | rfl
    · exact Nat.lt_succ_of_lt (h.frames hf)
    · exact Nat.lt_succ_self _
  · intro f name slot hf hslot
    have hold : s.slotIn? f name = some slot := by
      unfold slotIn? at hslot
      rwa [frame_newFrame] at hslot
    rcases hf with hf | rfl
    · exact ⟨hf, hold⟩
    · exact absurd (lt_size_of_slotIn? hold) (Nat.lt_irrefl _)

/-- A new frame that is no owner may bind any slots. -/
theorem shareSlots (h : s.Owned owns) (bs : List (String × SlotId)) :
    (s.newFrame.2.bindSlots s.frames.size bs).Owned owns := by
  have hg : s.Grows (s.newFrame.2.bindSlots s.frames.size bs) :=
    (Grows.refl s).newFrame.bindSlots (Nat.le_refl _) bs
  refine h.after_same hg (fun hf => Nat.lt_of_lt_of_le (h.frames hf) hg.frames_le) ?_
  intro f name slot hf hslot
  refine ⟨hf, ?_⟩
  -- owners are frames that were there, so that none of them is the new one
  have hne : f ≠ s.frames.size := Nat.ne_of_lt (h.frames hf)
  unfold slotIn? at hslot
  rwa [frame_bindSlots_of_ne hne, frame_newFrame] at hslot

/-- A binding by an owner. -/
theorem bind (h : s.Owned owns) (hf : owns f) (name : String) (v : Value) :
    (s.bind f name v).Owned owns := by
  have hg := grows_bind s f name v
  -- a binding after the change is an old one or the one made, with the slot made for it
  have hbound : ∀ {g other slot}, (s.bind f name v).slotIn? g other = some slot →
      s.slotIn? g other = some slot ∨
        g = f ∧ other = name ∧ slot = s.slots.size ∧
          (s.bind f name v).slots.size = s.slots.size + 1 := by
    intro g other slot hslot
    cases hs : s.slotIn? f name with
    | some t =>
      rw [bind_of_some hs] at hslot
      exact .inl hslot
    | none =>
      rw [slotIn?_bind_of_none hs (h.frames hf)] at hslot
      split at hslot
      · next heq =>
        exact .inr ⟨heq.1, heq.2, (Option.some.inj hslot).symm, slots_size_bind_of_none hs⟩
      · exact .inl hslot
  refine h.after hg (fun hg' => Nat.lt_of_lt_of_le (h.frames hg') hg.frames_le) ?_ ?_
  · intro g other slot hg' hslot
    rcases hbound hslot with hold | ⟨-, -, rfl, hsize⟩
    · exact .inl ⟨hg', hold⟩
    · refine .inr ⟨Nat.le_refl _, ?_⟩
      rw [hsize]
      exact Nat.lt_succ_self _
  · intro g g' other other' slot hg₁ hg₂ hge hslot hslot'
    -- no owner can have bound a slot before it was there
    have hnot : ∀ {g other}, owns g → s.slotIn? g other ≠ some slot :=
      fun howns hold => absurd (h.slots howns hold) (Nat.not_lt.2 hge)
    obtain ⟨rfl, rfl, -⟩ := (hbound hslot).resolve_left (hnot hg₁)
    obtain ⟨rfl, rfl, -⟩ := (hbound hslot').resolve_left (hnot hg₂)
    exact ⟨rfl, rfl⟩

/-- A slot gets a value. -/
theorem fill (h : s.Owned owns) (slot : SlotId) (v : Value) : (s.fill slot v).Owned owns :=
  h.after_same (grows_fill s slot v) h.frames fun hf hs => ⟨hf, hs⟩

/-! ## §3. Frames whose names come before their values -/

/-- No slot stands twice in a run of new slots. -/
theorem unique_of_mem_zip {names : List String} {start : Nat} {name other : String} {slot : SlotId}
    (h : (name, slot) ∈ names.zip (List.range' start names.length))
    (h' : (other, slot) ∈ names.zip (List.range' start names.length)) : name = other := by
  have hat : ∀ {n}, (n, slot) ∈ names.zip (List.range' start names.length) →
      names[slot - start]? = some n := by
    intro n hn
    obtain ⟨i, hi, heq⟩ := List.getElem_of_mem hn
    rw [List.getElem_zip, List.getElem_range'] at heq
    cases heq
    rw [Nat.one_mul, Nat.add_sub_cancel_left, List.getElem?_eq_getElem]
  exact Option.some.inj ((hat h).symm.trans (hat h'))

/-- A new frame with empty slots for some names, as an owner. A name that stands there twice is
bound to the last of its slots. -/
theorem newSlots (h : s.Owned owns) (names : List String) :
    ((s.newFrame.2.newSlots names).2.bindSlots s.frames.size
      (names.zip (s.newFrame.2.newSlots names).1)).Owned
        fun f => owns f ∨ f = s.frames.size := by
  let t := s.newFrame.2.newSlots names
  let u := t.2.bindSlots s.frames.size (names.zip t.1)
  have hrange : t.1 = List.range' s.slots.size names.length := newSlots_fst _ names
  have hg : s.Grows u :=
    (((Grows.refl s).newFrame).newSlots names).bindSlots (Nat.le_refl _) _
  have hsize : u.slots.size = s.slots.size + names.length := by
    have hslots : u.slots = t.2.slots := slots_bindSlots _ _ _
    rw [hslots]
    exact slots_size_newSlots _ names
  -- a binding that was not there before is one of the new ones, in the new frame
  have hbound : ∀ {f name slot}, u.slotIn? f name = some slot →
      s.slotIn? f name = some slot ∨
        f = s.frames.size ∧ (name, slot) ∈ names.zip (List.range' s.slots.size names.length) := by
    intro f name slot hslot
    have hframe : t.2.frame f = s.frame f := by
      unfold frame
      rw [frames_newSlots]
      exact frame_newFrame s f
    by_cases hf : f = s.frames.size
    · rcases slotIn?_bindSlots hslot with hold | hmem
      · unfold slotIn? at hold
        rw [hframe] at hold
        exact .inl hold
      · rw [← hrange]
        exact .inr ⟨hf, hmem⟩
    · have hsame : u.frame f = t.2.frame f := frame_bindSlots_of_ne hf _
      unfold slotIn? at hslot
      rw [hsame, hframe] at hslot
      exact .inl hslot
  show u.Owned _
  refine h.after hg ?_ ?_ ?_
  · intro f hf
    have hframes : u.frames.size = s.frames.size + 1 := by
      show (t.2.bindSlots _ _).frames.size = _
      rw [frames_size_bindSlots, frames_newSlots, frames_size_newFrame]
    rw [hframes]
    rcases hf with hf | rfl
    · exact Nat.lt_succ_of_lt (h.frames hf)
    · exact Nat.lt_succ_self _
  · intro f name slot hf hslot
    rcases hbound hslot with hold | ⟨-, hmem⟩
    · rcases hf with hf | rfl
      · exact .inl ⟨hf, hold⟩
      · exact absurd (lt_size_of_slotIn? hold) (Nat.lt_irrefl _)
    · obtain ⟨hge, hlt⟩ := List.mem_range'_1.1 (List.of_mem_zip hmem).2
      rw [hsize]
      exact .inr ⟨hge, hlt⟩
  · intro f g name other slot hf hg' hge hslot hslot'
    have hnot : ∀ {f name}, owns f ∨ f = s.frames.size → s.slotIn? f name ≠ some slot := by
      intro f name howns hold
      rcases howns with hf | rfl
      · exact absurd (h.slots hf hold) (Nat.not_lt.2 hge)
      · exact absurd (lt_size_of_slotIn? hold) (Nat.lt_irrefl _)
    obtain ⟨rfl, hmem⟩ := (hbound hslot).resolve_left (hnot hf)
    obtain ⟨rfl, hmem'⟩ := (hbound hslot').resolve_left (hnot hg')
    exact ⟨rfl, unique_of_mem_zip hmem hmem'⟩

end Owned

end Store

end TinyLisp
