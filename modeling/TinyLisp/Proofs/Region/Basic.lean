import TinyLisp.Proofs.Region.Growth
import TinyLisp.Proofs.Invariant.Node

/-!
# Regions

A region is a part of the frames, slots and bodies. It is *closed* in a world if whatever can be
reached from it stays inside: through the slots that a frame binds, the value in a slot, and the
values in a body. It is *public* if moreover all its slots hold values and it contains the outermost
frame and all modules that can be found by name or by file.

A region may also contain numbers that nothing has yet; what is made later then belongs to it.
-/

namespace TinyLisp

/-- The slots in a table of captured slots. -/
def Captures.slots : Captures → List SlotId
  | scope => []
  | table bs => bs.map Prod.snd

/-- A module can be found, by its name or by the place of its file. -/
def Library.Knows (l : Library) (m : Module) : Prop :=
  (∃ name, l.registry.get? name = some m) ∨ ∃ p, l.files.get? p = some m

/-- A frame itself binds a name, to a slot that holds a value. -/
def Store.Assigns (s : Store) (f : FrameId) (name : String) : Prop :=
  ∃ slot, s.slotIn? f name = some slot ∧ (s.content slot).isSome

/-- No value in the store contains a placeholder. -/
def World.Clean (w : World) : Prop :=
  ∀ slot v, w.store.content slot = some v → v.Every (· ≠ .unspecified)

/-- Some frames, some slots and some bodies. -/
structure Region where
  frames : FrameId → Prop
  slots : SlotId → Prop
  bodies : Nat → Prop

namespace Region

variable {R R' : Region} {w w' : World} {v : Value}

/-! ## §1. Inside a region -/

/-- A frame of the region is there. -/
def Frame (R : Region) (w : World) (f : FrameId) : Prop :=
  R.frames f ∧ f < w.store.frames.size

/-- A slot of the region is there. -/
def Slot (R : Region) (w : World) (slot : SlotId) : Prop :=
  R.slots slot ∧ slot < w.store.slots.size

/-- A body of the region is there. -/
def Body (R : Region) (w : World) (id : Nat) : Prop :=
  R.bodies id ∧ id < w.bodies.size

/-- What a value's outermost node refers to is in the region. A module's frame assigns every name
that it shows; and no node is the placeholder. -/
def Node (R : Region) (w : World) : Value → Prop
  | .unspecified => False
  | .closure c =>
    (∀ f ∈ c.scope, R.Frame w f) ∧ (∀ slot ∈ c.captures.slots, R.Slot w slot) ∧ R.Body w c.id
  | .expander m => (∀ f ∈ m.scope, R.Frame w f) ∧ R.Body w m.id
  | .module m => (∀ f ∈ m.scope, R.Frame w f) ∧
    ∀ name ∈ m.exports, ∃ f, m.scope.head? = some f ∧ w.store.Assigns f name
  | _ => True

/-- One region lies within another. -/
structure Le (R R' : Region) : Prop where
  frames : ∀ {f}, R.frames f → R'.frames f
  slots : ∀ {slot}, R.slots slot → R'.slots slot
  bodies : ∀ {id}, R.bodies id → R'.bodies id

theorem Le.refl (R : Region) : R.Le R :=
  ⟨id, id, id⟩

theorem Frame.later {f : FrameId} (h : R.Frame w f) (hR : R.Le R') (hw : w.Grows w') :
    R'.Frame w' f :=
  ⟨hR.frames h.1, Nat.lt_of_lt_of_le h.2 hw.store.frames_le⟩

theorem Slot.later {slot : SlotId} (h : R.Slot w slot) (hR : R.Le R') (hw : w.Grows w') :
    R'.Slot w' slot :=
  ⟨hR.slots h.1, Nat.lt_of_lt_of_le h.2 hw.store.slots_le⟩

theorem Body.later {id : Nat} (h : R.Body w id) (hR : R.Le R') (hw : w.Grows w') :
    R'.Body w' id :=
  ⟨hR.bodies h.1, Nat.lt_of_lt_of_le h.2 hw.bodies_le⟩

/-- A name goes on to be assigned. -/
theorem assigns_later {f : FrameId} {name : String} (h : w.store.Assigns f name)
    (hw : w.Grows w') : w'.store.Assigns f name := by
  obtain ⟨slot, hslot, hfilled⟩ := h
  exact ⟨slot, hw.store.kept hslot, hw.store.filled hfilled⟩

theorem Node.later (h : R.Node w v) (hR : R.Le R') (hw : w.Grows w') : R'.Node w' v := by
  cases v with
  | unspecified => exact h
  | closure c =>
    exact ⟨fun f hf => (h.1 f hf).later hR hw, fun slot hs => (h.2.1 slot hs).later hR hw,
      h.2.2.later hR hw⟩
  | expander m => exact ⟨fun f hf => (h.1 f hf).later hR hw, h.2.later hR hw⟩
  | module m =>
    refine ⟨fun f hf => (h.1 f hf).later hR hw, ?_⟩
    intro name hname
    obtain ⟨f, hf, hassigns⟩ := h.2 name hname
    exact ⟨f, hf, assigns_later hassigns hw⟩
  | _ => trivial

theorem Node.ne_unspecified (h : R.Node w v) : v ≠ .unspecified := by
  rintro rfl
  exact h

theorem node_of_plain (h : v.Plain) : R.Node w v := by
  cases v with
  | unspecified => exact h
  | closure c => exact h.elim
  | expander m => exact h.elim
  | module m => exact h.elim
  | _ => trivial

/-! ## §2. Closed regions -/

/-- Whatever is reached from the region is in the region. -/
structure Closed (R : Region) (w : World) : Prop where
  slot : ∀ {f name slot}, R.frames f → w.store.slotIn? f name = some slot → R.Slot w slot
  content : ∀ {slot v}, R.slots slot → w.store.content slot = some v → v.Every (R.Node w)
  body : ∀ {id e}, R.bodies id → w.bodies[id]? = some e → e.Every (R.Node w)

/-- A change that lets a closed region be closed: new bindings, values and bodies that the region
contains refer to nothing outside. -/
structure Admits (R : Region) (w w' : World) : Prop where
  grows : w.Grows w'
  slot : ∀ {f name slot}, R.frames f → w'.store.slotIn? f name = some slot →
    w.store.slotIn? f name = some slot ∨ R.Slot w' slot
  content : ∀ {slot v}, R.slots slot → w'.store.content slot = some v →
    w.store.content slot = some v ∨ v.Every (R.Node w')
  body : ∀ {id e}, R.bodies id → w'.bodies[id]? = some e →
    w.bodies[id]? = some e ∨ e.Every (R.Node w')

theorem Closed.later (h : R.Closed w) (hc : R.Admits w w') : R.Closed w' where
  slot hf hs := by
    rcases hc.slot hf hs with hold | hnew
    · exact (h.slot hf hold).later (.refl R) hc.grows
    · exact hnew
  content hslot hv := by
    rcases hc.content hslot hv with hold | hnew
    · exact (h.content hslot hold).mono fun _ hu => hu.later (.refl R) hc.grows
    · exact hnew
  body hid he := by
    rcases hc.body hid he with hold | hnew
    · exact (h.body hid hold).mono fun _ hu => hu.later (.refl R) hc.grows
    · exact hnew

/-- The body with a number in a closed region. -/
theorem Closed.getD (h : R.Closed w) {id : Nat} (hid : R.bodies id) :
    (w.bodies.getD id (.literal .nil)).Every (R.Node w) := by
  rw [Array.getD_eq_getD_getElem?]
  cases he : w.bodies[id]? with
  | none => exact Expr.every_literal.2 (Value.every_atom (fun _ => node_of_plain) rfl trivial)
  | some e => exact h.body hid he

/-- The slot of a name, looked up from frames of a closed region. -/
theorem Closed.slot? (h : R.Closed w) {scope : Scope} (hs : ∀ f ∈ scope, R.Frame w f)
    {name : String} {slot : SlotId} (hslot : w.store.slot? scope name = some slot) :
    R.slots slot := by
  obtain ⟨f, hf, hbound⟩ := List.exists_of_findSome?_eq_some hslot
  exact (h.slot (hs f hf).1 hbound).1

/-- What is read from a slot of a closed region is no value yet, or a value that refers to nothing
outside. -/
theorem Closed.read (h : R.Closed w) {slot : SlotId} (hslot : R.slots slot)
    (hne : w.store.read slot ≠ .unspecified) : (w.store.read slot).Every (R.Node w) :=
  h.content hslot (Store.content_of_read rfl hne)

/-- A name looked up from frames of a closed region stands for no value yet, or for a value that
refers to nothing outside. A dotted name leads through modules, whose frames are in the region. -/
theorem Closed.lookupUpTo (h : R.Closed w) (n : Nat) {scope : Scope}
    (hs : ∀ f ∈ scope, R.Frame w f) {name : String}
    (hv : w.store.lookupUpTo n scope name = .ok v) (hne : v ≠ .unspecified) :
    v.Every (R.Node w) := by
  -- on the steps: a module on the way has its frames in the region, and the lookup goes on there
  induction n generalizing scope name with
  | zero =>
    unfold Store.lookupUpTo at hv
    split at hv
    · next slot hslot =>
      cases hv
      exact h.read (h.slot? hs hslot) hne
    · exact absurd hv (by simp)
  | succ n ih =>
    unfold Store.lookupUpTo at hv
    split at hv
    · next slot hslot =>
      cases hv
      exact h.read (h.slot? hs hslot) hne
    · split at hv
      · exact absurd hv (by simp)
      · split at hv
        · exact absurd hv (by simp)
        · next first rest hsplit slot hslot =>
          split at hv
          · next m hm =>
            have hmodule : R.Node w (.module m) := by
              have hread := h.read (h.slot? hs hslot)
              rw [hm] at hread
              exact Value.every_module.1 (hread (by simp))
            split at hv
            · exact ih hmodule.1 hv
            · exact absurd hv (by simp)
          · exact absurd hv (by simp)

theorem Closed.lookup (h : R.Closed w) {scope : Scope} (hs : ∀ f ∈ scope, R.Frame w f)
    {name : String} (hv : w.store.lookup scope name = .ok v) (hne : v ≠ .unspecified) :
    v.Every (R.Node w) :=
  h.lookupUpTo name.length hs hv hne

/-- A module of a closed region shows values. -/
theorem Closed.shown (h : R.Closed w) {m : Module} (hm : R.Node w (.module m)) {name : String}
    (hname : name ∈ m.exports) :
    ∃ v, w.store.lookup m.scope name = .ok v ∧ v.Every (R.Node w) := by
  obtain ⟨f, hf, slot, hslot, hfilled⟩ := hm.2 name hname
  obtain ⟨v, hv⟩ := Option.isSome_iff_exists.1 hfilled
  have hframe : R.Frame w f := hm.1 f (List.mem_of_mem_head? hf)
  have hlookup := Store.lookup_of_content (Store.slot?_of_slotIn? hf hslot) hv
  exact ⟨v, hlookup, h.content (h.slot hframe.1 hslot).1 hv⟩

/-! ## §3. Public regions -/

/-- A closed region in which every slot holds a value, with the outermost frame and all modules that
can be found. -/
structure Public (R : Region) (w : World) : Prop where
  closed : R.Closed w
  root : R.Frame w rootFrame
  filled : ∀ {slot}, R.Slot w slot → (w.store.content slot).isSome
  library : ∀ {m}, w.library.Knows m → R.Node w (.module m)

theorem Public.later (h : R.Public w) (hc : R.Admits w w')
    (hfilled : ∀ {slot}, w.store.slots.size ≤ slot → R.Slot w' slot →
      (w'.store.content slot).isSome)
    (hlibrary : ∀ {m}, w'.library.Knows m → w.library.Knows m ∨ R.Node w' (.module m)) :
    R.Public w' where
  closed := h.closed.later hc
  root := h.root.later (.refl R) hc.grows
  filled := by
    intro slot hslot
    rcases Nat.lt_or_ge slot w.store.slots.size with hlt | hge
    · exact hc.grows.store.filled (h.filled ⟨hslot.1, hlt⟩)
    · exact hfilled hge hslot
  library := by
    intro m hm
    rcases hlibrary hm with hold | hnew
    · exact (h.library hold).later (.refl R) hc.grows
    · exact hnew

/-! ## §4. What a change leaves alone -/

/-- The region contains only what is there. -/
structure Bounded (R : Region) (w : World) : Prop where
  frames : ∀ {f}, R.frames f → f < w.store.frames.size
  slots : ∀ {slot}, R.slots slot → slot < w.store.slots.size
  bodies : ∀ {id}, R.bodies id → id < w.bodies.size

theorem Bounded.later (h : R.Bounded w) (hw : w.Grows w') : R.Bounded w' where
  frames hf := Nat.lt_of_lt_of_le (h.frames hf) hw.store.frames_le
  slots hs := Nat.lt_of_lt_of_le (h.slots hs) hw.store.slots_le
  bodies hid := Nat.lt_of_lt_of_le (h.bodies hid) hw.bodies_le

/-- The frames of the region bind the same names, its slots hold the same values, and no further
module can be found. -/
structure Spared (R : Region) (w w' : World) : Prop where
  slot : ∀ {f name slot}, R.frames f → w'.store.slotIn? f name = some slot →
    w.store.slotIn? f name = some slot
  content : ∀ {slot}, R.slots slot → w'.store.content slot = w.store.content slot
  library : ∀ {m}, w'.library.Knows m → w.library.Knows m

/-- A region that contains only what was there stays public if it is spared. -/
theorem Public.spared (h : R.Public w) (hb : R.Bounded w) (hw : w.Grows w')
    (hs : R.Spared w w') : R.Public w' := by
  refine h.later ⟨hw, fun hf hslot => .inl (hs.slot hf hslot), ?_, ?_⟩ ?_
    fun hm => .inl (hs.library hm)
  · intro slot v hslot hv
    rw [hs.content hslot] at hv
    exact .inl hv
  · intro id e hid he
    rw [hw.bodies_eq (hb.bodies hid)] at he
    exact .inl he
  · intro slot hge hslot
    exact absurd (hb.slots hslot.1) (Nat.not_lt.2 hge)

/-! ## §5. Below and above -/

/-- The part of a region that is there. -/
def below (R : Region) (w : World) : Region :=
  ⟨R.Frame w, R.Slot w, R.Body w⟩

/-- A region, with all that is still to be made. -/
def above (R : Region) (w : World) : Region :=
  ⟨fun f => R.frames f ∨ w.store.frames.size ≤ f,
    fun slot => R.slots slot ∨ w.store.slots.size ≤ slot,
    fun id => R.bodies id ∨ w.bodies.size ≤ id⟩

theorem le_above (R : Region) (w : World) : R.Le (R.above w) :=
  ⟨.inl, .inl, .inl⟩

theorem bounded_below (R : Region) (w : World) : (R.below w).Bounded w :=
  ⟨And.right, And.right, And.right⟩

theorem Node.below (h : R.Node w v) : (R.below w).Node w v := by
  cases v with
  | unspecified => exact h
  | closure c =>
    exact ⟨fun f hf => ⟨h.1 f hf, (h.1 f hf).2⟩, fun slot hs => ⟨h.2.1 slot hs, (h.2.1 slot hs).2⟩,
      h.2.2, h.2.2.2⟩
  | expander m => exact ⟨fun f hf => ⟨h.1 f hf, (h.1 f hf).2⟩, h.2, h.2.2⟩
  | module m => exact ⟨fun f hf => ⟨h.1 f hf, (h.1 f hf).2⟩, h.2⟩
  | _ => trivial

theorem Public.below (h : R.Public w) : (R.below w).Public w where
  closed := {
    slot := fun hf hs => ⟨h.closed.slot hf.1 hs, (h.closed.slot hf.1 hs).2⟩
    content := fun hslot hv => (h.closed.content hslot.1 hv).mono fun _ hu => hu.below
    body := fun hid he => (h.closed.body hid.1 he).mono fun _ hu => hu.below }
  root := ⟨h.root, h.root.2⟩
  filled hslot := h.filled hslot.1
  library hm := (h.library hm).below

theorem Public.above (h : R.Public w) : (R.above w).Public w := by
  have hnode : ∀ {v}, R.Node w v → (R.above w).Node w v :=
    fun hv => hv.later (R.le_above w) (.refl w)
  refine ⟨⟨?_, ?_, ?_⟩, h.root.later (R.le_above w) (.refl w), ?_, fun hm => hnode (h.library hm)⟩
  · intro f name slot hf hs
    have hlt := Store.lt_size_of_slotIn? hs
    exact (h.closed.slot (hf.resolve_right (Nat.not_le.2 hlt)) hs).later (R.le_above w) (.refl w)
  · intro slot v hslot hv
    have hlt := Store.lt_size_of_content hv
    exact (h.closed.content (hslot.resolve_right (Nat.not_le.2 hlt)) hv).mono fun _ hu => hnode hu
  · intro id e hid he
    obtain ⟨hlt, -⟩ := Array.getElem?_eq_some_iff.1 he
    exact (h.closed.body (hid.resolve_right (Nat.not_le.2 hlt)) he).mono fun _ hu => hnode hu
  · intro slot hslot
    exact h.filled ⟨hslot.1.resolve_right (Nat.not_le.2 hslot.2), hslot.2⟩

/-- A region that contains whatever is made from now on. -/
structure Open (R : Region) (w : World) : Prop where
  frames : ∀ {f}, w.store.frames.size ≤ f → R.frames f
  slots : ∀ {slot}, w.store.slots.size ≤ slot → R.slots slot
  bodies : ∀ {id}, w.bodies.size ≤ id → R.bodies id

theorem open_above (R : Region) (w : World) : (R.above w).Open w :=
  ⟨.inr, .inr, .inr⟩

theorem Open.later (h : R.Open w) (hw : w.Grows w') : R.Open w' where
  frames hf := h.frames (Nat.le_trans hw.store.frames_le hf)
  slots hs := h.slots (Nat.le_trans hw.store.slots_le hs)
  bodies hid := h.bodies (Nat.le_trans hw.bodies_le hid)

end Region

end TinyLisp
