import TinyLisp.Store

/-!
# Laws of the store

What each operation on frames and slots does to the number of frames, to the number of slots,
to the bindings of a frame and to the content of a slot. The proofs about evaluation use these
laws and do not open the operations.
-/

namespace TinyLisp.Store

variable {s : Store} {f g : FrameId} {slot t : SlotId} {name : String} {v : Value}

/-! ## §1. Beyond the ends -/

theorem frame_of_size_le (h : s.frames.size ≤ f) : s.frame f = [] := by
  unfold frame
  rw [Array.getD_eq_getD_getElem?, Array.getElem?_eq_none h]
  rfl

theorem slotIn?_of_size_le (h : s.frames.size ≤ f) : s.slotIn? f name = none := by
  unfold slotIn?
  rw [frame_of_size_le h]
  rfl

theorem content_of_size_le (h : s.slots.size ≤ slot) : s.content slot = none := by
  unfold content
  rw [Array.getElem?_eq_none h]
  rfl

/-- A frame that binds a name is one of the store's frames. -/
theorem lt_size_of_slotIn? (h : s.slotIn? f name = some slot) : f < s.frames.size := by
  apply Nat.lt_of_not_le
  intro hf
  rw [slotIn?_of_size_le hf] at h
  exact absurd h (by simp)

/-! ## §2. New frames and new slots -/

@[simp] theorem newFrame_fst (s : Store) : s.newFrame.1 = s.frames.size := rfl

@[simp] theorem frames_size_newFrame (s : Store) :
    s.newFrame.2.frames.size = s.frames.size + 1 := by
  simp [newFrame]

@[simp] theorem slots_newFrame (s : Store) : s.newFrame.2.slots = s.slots := rfl

/-- A new frame binds nothing. -/
theorem frame_newFrame_size (s : Store) : s.newFrame.2.frame s.frames.size = [] := by
  rw [frame_newFrame]
  exact frame_of_size_le (Nat.le_refl _)

theorem slotIn?_newFrame_size (s : Store) (name : String) :
    s.newFrame.2.slotIn? s.frames.size name = none := by
  unfold slotIn?
  rw [frame_newFrame_size]
  rfl

@[simp] theorem newSlot_fst (s : Store) (c : Option Value) : (s.newSlot c).1 = s.slots.size := rfl

@[simp] theorem frames_newSlot (s : Store) (c : Option Value) :
    (s.newSlot c).2.frames = s.frames := rfl

@[simp] theorem frame_newSlot (s : Store) (c : Option Value) (f : FrameId) :
    (s.newSlot c).2.frame f = s.frame f := rfl

@[simp] theorem slots_size_newSlot (s : Store) (c : Option Value) :
    (s.newSlot c).2.slots.size = s.slots.size + 1 := by
  simp [newSlot]

theorem content_newSlot (s : Store) (c : Option Value) (slot : SlotId) :
    (s.newSlot c).2.content slot = if slot = s.slots.size then c else s.content slot := by
  simp only [newSlot, content, Array.getElem?_push]
  split
  · rfl
  · rfl

/-! ## §3. Binding and filling -/

@[simp] theorem frames_size_bindSlot (s : Store) (f : FrameId) (name : String) (slot : SlotId) :
    (s.bindSlot f name slot).frames.size = s.frames.size := by
  simp [bindSlot]

@[simp] theorem slots_bindSlot (s : Store) (f : FrameId) (name : String) (slot : SlotId) :
    (s.bindSlot f name slot).slots = s.slots := rfl

theorem frame_bindSlot_self (hf : f < s.frames.size) :
    (s.bindSlot f name slot).frame f = (s.frame f).set name slot := by
  simp only [frame, bindSlot, Array.getD_eq_getD_getElem?, Array.getElem?_modify]
  simp [hf]

theorem frame_bindSlot_of_ne (h : g ≠ f) :
    (s.bindSlot f name slot).frame g = s.frame g := by
  simp [frame, bindSlot, Array.getD_eq_getD_getElem?, Array.getElem?_modify, h.symm]

@[simp] theorem frames_fill (s : Store) (slot : SlotId) (v : Value) :
    (s.fill slot v).frames = s.frames := rfl

@[simp] theorem frame_fill (s : Store) (slot : SlotId) (v : Value) (f : FrameId) :
    (s.fill slot v).frame f = s.frame f := rfl

@[simp] theorem slots_size_fill (s : Store) (slot : SlotId) (v : Value) :
    (s.fill slot v).slots.size = s.slots.size := by
  simp [fill]

theorem content_fill_of_ne (h : t ≠ slot) : (s.fill slot v).content t = s.content t := by
  simp [content, fill, h.symm]

theorem bind_of_some (h : s.slotIn? f name = some slot) : s.bind f name v = s.fill slot v := by
  unfold bind
  rw [h]

theorem bind_of_none (h : s.slotIn? f name = none) :
    s.bind f name v = (s.newSlot (some v)).2.bindSlot f name s.slots.size := by
  unfold bind
  rw [h]
  rfl

/-- A name that is new to a frame gets the next slot, -/
theorem slotIn?_bind_of_none (h : s.slotIn? f name = none) (hf : f < s.frames.size) :
    (s.bind f name v).slotIn? g other =
      if g = f ∧ other = name then some s.slots.size else s.slotIn? g other := by
  rw [bind_of_none h, slotIn?_bindSlot (by simpa using hf)]
  rfl

/-- with the value in it, -/
theorem content_bind_of_none (h : s.slotIn? f name = none) (slot : SlotId) :
    (s.bind f name v).content slot =
      if slot = s.slots.size then some v else s.content slot := by
  rw [bind_of_none h, content_bindSlot, content_newSlot]

/-- and no other slot. -/
theorem slots_size_bind_of_none (h : s.slotIn? f name = none) :
    (s.bind f name v).slots.size = s.slots.size + 1 := by
  rw [bind_of_none h, slots_bindSlot, slots_size_newSlot]

@[simp] theorem frames_size_bind (s : Store) (f : FrameId) (name : String) (v : Value) :
    (s.bind f name v).frames.size = s.frames.size := by
  cases h : s.slotIn? f name with
  | some slot => rw [bind_of_some h, frames_fill]
  | none => rw [bind_of_none h, frames_size_bindSlot, frames_newSlot]

theorem frame_bind_of_ne (h : g ≠ f) : (s.bind f name v).frame g = s.frame g := by
  cases hs : s.slotIn? f name with
  | some slot => rw [bind_of_some hs, frame_fill]
  | none => rw [bind_of_none hs, frame_bindSlot_of_ne h, frame_newSlot]

/-- A binding stays, whatever is bound later. -/
theorem slotIn?_bind_of_some (h : s.slotIn? g name = some slot) (other : String) (v : Value) :
    (s.bind f other v).slotIn? g name = some slot := by
  cases hb : s.slotIn? f other with
  | some t =>
    rw [bind_of_some hb, slotIn?_fill]
    exact h
  | none =>
    rw [bind_of_none hb]
    by_cases hf : f < s.frames.size
    · rw [slotIn?_bindSlot (by simpa using hf), if_neg]
      · exact h
      · rintro ⟨rfl, rfl⟩
        rw [hb] at h
        exact absurd h (by simp)
    · have hg : g ≠ f := by
        rintro rfl
        exact hf (lt_size_of_slotIn? h)
      unfold slotIn?
      rw [frame_bindSlot_of_ne hg]
      exact h

theorem exists_slotIn?_bind (hf : f < s.frames.size) (name : String) (v : Value) :
    ∃ slot, (s.bind f name v).slotIn? f name = some slot := by
  cases hb : s.slotIn? f name with
  | some slot => exact ⟨slot, slotIn?_bind_of_some hb name v⟩
  | none =>
    refine ⟨s.slots.size, ?_⟩
    rw [slotIn?_bind_of_none hb hf, if_pos ⟨rfl, rfl⟩]

/-- Of two values that a name is given in a frame, the second is the one that counts. -/
theorem bind_bind (hf : f < s.frames.size) (name : String) (u v : Value) :
    (s.bind f name u).bind f name v = s.bind f name v := by
  cases hb : s.slotIn? f name with
  | some slot =>
    rw [bind_of_some (slotIn?_bind_of_some hb name u), bind_of_some hb, bind_of_some hb]
    simp [fill]
  | none =>
    have hnew : (s.bind f name u).slotIn? f name = some s.slots.size := by
      rw [slotIn?_bind_of_none hb hf, if_pos ⟨rfl, rfl⟩]
    have hpush : (s.slots.push (some u)).setIfInBounds s.slots.size (some v) =
        s.slots.push (some v) := by
      rw [Array.setIfInBounds_def, dif_pos (by simp), Array.set_push, dif_neg (Nat.lt_irrefl _)]
    rw [bind_of_some hnew, bind_of_none hb, bind_of_none hb]
    simp [fill, bindSlot, newSlot, hpush]

theorem slotIn?_bindAll_of_some (h : s.slotIn? g name = some slot) (bs : List (String × Value)) :
    (s.bindAll f bs).slotIn? g name = some slot := by
  induction bs generalizing s with
  | nil => exact h
  | cons b bs ih =>
    unfold bindAll
    exact ih (slotIn?_bind_of_some h b.1 b.2)

/-- A frame binds every name that it is given a value for. -/
theorem exists_slotIn?_bindAll {bs : List (String × Value)} (hf : f < s.frames.size)
    (hn : name ∈ bs.map Prod.fst) : ∃ slot, (s.bindAll f bs).slotIn? f name = some slot := by
  induction bs generalizing s with
  | nil => exact absurd hn (by simp)
  | cons b bs ih =>
    obtain ⟨other, v⟩ := b
    unfold bindAll
    rcases List.mem_cons.1 hn with rfl | hn
    · obtain ⟨slot, hslot⟩ := exists_slotIn?_bind hf name v
      exact ⟨slot, slotIn?_bindAll_of_some hslot bs⟩
    · exact ih (by simpa using hf) hn

@[simp] theorem frames_size_bindSlots (s : Store) (f : FrameId) (bs : List (String × SlotId)) :
    (s.bindSlots f bs).frames.size = s.frames.size := by
  induction bs generalizing s with
  | nil => rfl
  | cons b bs ih =>
    unfold bindSlots
    rw [ih, frames_size_bindSlot]

@[simp] theorem slots_bindSlots (s : Store) (f : FrameId) (bs : List (String × SlotId)) :
    (s.bindSlots f bs).slots = s.slots := by
  induction bs generalizing s with
  | nil => rfl
  | cons b bs ih =>
    unfold bindSlots
    rw [ih, slots_bindSlot]

theorem frame_bindSlots_of_ne (h : g ≠ f) (bs : List (String × SlotId)) :
    (s.bindSlots f bs).frame g = s.frame g := by
  induction bs generalizing s with
  | nil => rfl
  | cons b bs ih =>
    unfold bindSlots
    rw [ih, frame_bindSlot_of_ne h]

/-- A frame binds every name that it binds already or is given a slot for. -/
theorem exists_slotIn?_bindSlots {bs : List (String × SlotId)} (hf : f < s.frames.size)
    (hn : (∃ slot, s.slotIn? f name = some slot) ∨ name ∈ bs.map Prod.fst) :
    ∃ slot, (s.bindSlots f bs).slotIn? f name = some slot := by
  induction bs generalizing s with
  | nil => exact hn.resolve_right (by simp)
  | cons b bs ih =>
    obtain ⟨other, slot⟩ := b
    unfold bindSlots
    refine ih (by simpa using hf) ?_
    rw [slotIn?_bindSlot hf]
    by_cases heq : f = f ∧ name = other
    · exact .inl ⟨slot, if_pos heq⟩
    · rw [if_neg heq]
      exact hn.imp_right fun hmem => (List.mem_cons.1 hmem).resolve_left fun e => heq ⟨rfl, e⟩

/-- Whatever a frame binds after some bindings, it bound before or one of them says so. -/
theorem slotIn?_bindSlots {bs : List (String × SlotId)}
    (h : (s.bindSlots f bs).slotIn? g name = some slot) :
    s.slotIn? g name = some slot ∨ (name, slot) ∈ bs := by
  induction bs generalizing s with
  | nil => exact .inl h
  | cons b bs ih =>
    obtain ⟨n, sl⟩ := b
    -- the other bindings come after this one, and so have been made to the frame with it
    rcases ih h with hone | hb
    · by_cases hg : g = f
      · subst hg
        have hlt : g < s.frames.size := frames_size_bindSlot s g n sl ▸ lt_size_of_slotIn? hone
        rw [slotIn?_bindSlot hlt] at hone
        split at hone
        · next hn =>
          obtain ⟨-, rfl⟩ := hn
          exact .inr (by simp [Option.some.inj hone])
        · exact .inl hone
      · unfold slotIn? at hone
        rw [frame_bindSlot_of_ne hg] at hone
        exact .inl hone
    · exact .inr (List.mem_cons_of_mem _ hb)

/-- A new frame that is given slots for some names binds nothing else. -/
theorem mem_of_slotIn?_newFrame {bs : List (String × SlotId)}
    (h : (s.newFrame.2.bindSlots s.frames.size bs).slotIn? s.frames.size name = some slot) :
    (name, slot) ∈ bs := by
  rcases slotIn?_bindSlots h with hold | hmem
  · rw [slotIn?_newFrame_size] at hold
    cases hold
  · exact hmem

/-! ## §4. Runs of empty slots -/

theorem frames_newSlots (s : Store) (names : List String) :
    (s.newSlots names).2.frames = s.frames := by
  induction names generalizing s with
  | nil => rfl
  | cons n names ih =>
    show ((s.newSlot none).2.newSlots names).2.frames = s.frames
    rw [ih, frames_newSlot]

theorem slots_size_newSlots (s : Store) (names : List String) :
    (s.newSlots names).2.slots.size = s.slots.size + names.length := by
  induction names generalizing s with
  | nil => rfl
  | cons n names ih =>
    show ((s.newSlot none).2.newSlots names).2.slots.size = _
    rw [ih, slots_size_newSlot, List.length_cons]
    omega

/-- New slots are numbered on from the slots there are. -/
theorem newSlots_fst (s : Store) (names : List String) :
    (s.newSlots names).1 = List.range' s.slots.size names.length := by
  induction names generalizing s with
  | nil => rfl
  | cons n names ih =>
    show s.slots.size :: ((s.newSlot none).2.newSlots names).1 = _
    rw [ih, slots_size_newSlot, List.length_cons, List.range'_succ]

theorem content_newSlots (s : Store) (names : List String) (slot : SlotId) :
    (s.newSlots names).2.content slot = s.content slot := by
  induction names generalizing s with
  | nil => rfl
  | cons n names ih =>
    show ((s.newSlot none).2.newSlots names).2.content slot = _
    rw [ih, content_newSlot]
    split
    · next h => rw [content_of_size_le (Nat.le_of_eq h.symm)]
    · rfl

/-! ## §5. Names -/

variable {scope : Scope}

/-- A name that the innermost frame binds has the slot that it has there. -/
theorem slot?_of_slotIn? (hf : scope.head? = some f) (h : s.slotIn? f name = some slot) :
    s.slot? scope name = some slot := by
  obtain ⟨rest, rfl⟩ := List.head?_eq_some_iff.1 hf
  unfold slot?
  rw [List.findSome?_cons, h]

/-- A frame is passed by if it binds a name, if at all, to the slot that the name has without it. -/
theorem slot?_cons_of_shared
    (h : ∀ {slot}, s.slotIn? f name = some slot → s.slot? scope name = some slot) :
    s.slot? (f :: scope) name = s.slot? scope name := by
  unfold slot? at h ⊢
  rw [List.findSome?_cons]
  cases hs : s.slotIn? f name with
  | none => rfl
  | some slot => exact (h hs).symm

theorem slot?_cons_of_none (h : s.slotIn? f name = none) :
    s.slot? (f :: scope) name = s.slot? scope name :=
  slot?_cons_of_shared fun hs => absurd (h.symm.trans hs) (by simp)

theorem slot?_cons_of_not_mem (h : name ∉ (s.frame f).keys) :
    s.slot? (f :: scope) name = s.slot? scope name :=
  slot?_cons_of_none (Option.not_isSome_iff_eq_none.1 fun hsome => h (Table.get?_isSome_iff.1 hsome))

/-- A slot reads as the value that it holds. -/
theorem read_eq_of_content (h : s.content slot = some v) : s.read slot = v := by
  unfold read
  rw [h]
  rfl

/-- A slot that reads as a value holds it. -/
theorem content_of_read (h : s.read slot = v) (hne : v ≠ .unspecified) :
    s.content slot = some v := by
  unfold read at h
  cases hc : s.content slot with
  | none =>
    rw [hc] at h
    exact absurd h.symm hne
  | some u =>
    rw [hc] at h
    exact congrArg some h

/-- The slot that a name is bound to as it stands is what the name means. -/
theorem lookup_of_slot? (h : s.slot? scope name = some slot) :
    s.lookup scope name = .ok (s.read slot) := by
  unfold lookup
  cases name.length <;> unfold lookupUpTo <;> rw [h]

/-- If the slot holds a value, the name means that value. -/
theorem lookup_of_content (h : s.slot? scope name = some slot) (hv : s.content slot = some v) :
    s.lookup scope name = .ok v := by
  rw [lookup_of_slot? h, read_eq_of_content hv]

/-- A name that is not bound as it stands and cannot be split is unbound. -/
theorem lookup_of_unsplit (h : s.slot? scope name = none) (hsplit : splitMember? name = none) :
    s.lookup scope name = .error (.unbound name) := by
  unfold lookup
  cases name.length <;> simp only [lookupUpTo, h, hsplit]

end TinyLisp.Store
