import TinyLisp.Proofs.Region.Basic
import TinyLisp.Proofs.Invariant.Rule

/-!
# Stages of work in a region

Values that are about at a moment refer to frames, slots and bodies of a region. At top level and in
a file the region is public: what is made there may be seen from everywhere. While the initial
values of a recursive `let` are evaluated some slots wait for their values, and the region has only
a public part that is *shared*; names are then bound only in frames outside of that part
(`Stage.Works`). So nothing shared ever refers to a slot that waits, and if an initial value fails
then the shared part is as good as it was.

`Stage.Sound` is what holds of the world at a stage, and `Sound.moved` the general step: it is kept
by every change that refers to the region only and that leaves the shared part alone.
-/

namespace TinyLisp.Region

/-- What is known at a moment of a run. -/
structure Stage where
  world : World
  /-- What the values that are about may refer to. -/
  region : Region
  /-- What may be seen from everywhere. -/
  shared : Region
  /-- The slots that wait for their initial values, if there are initial values still to be
  evaluated. -/
  waiting : Option (List SlotId)

namespace Stage

variable {K K' K'' : Stage} {w : World}

/-- The slots that may be empty. -/
def pending (K : Stage) : List SlotId :=
  K.waiting.getD []

/-- Names may be bound in a frame of the region; while slots wait, only in one that is not shared
and binds no shared slot. -/
structure Works (K : Stage) (f : FrameId) : Prop where
  frame : K.region.Frame K.world f
  hidden : K.waiting ≠ none → ¬ K.shared.frames f ∧
    ∀ name slot, K.world.store.slotIn? f name = some slot → ¬ K.shared.slots slot

/-- A stage comes after another. -/
structure Le (K K' : Stage) : Prop where
  grows : K.world.Grows K'.world
  region : K'.region = K.region
  waiting : K'.waiting = K.waiting
  works : ∀ {f}, K.Works f → K'.Works f
  hidden : K.waiting ≠ none → ∀ {slot}, slot < K.world.store.slots.size →
    K'.shared.slots slot → K.shared.slots slot

/-- Stages, ordered. -/
@[reducible] def inTime : Preorder Stage where
  le := Le
  le_refl K := ⟨.refl _, rfl, rfl, id, fun _ _ _ => id⟩
  le_trans K K' K'' h h' := by
    refine ⟨h.grows.trans h'.grows, h'.region.trans h.region, h'.waiting.trans h.waiting,
      fun hf => h'.works (h.works hf), ?_⟩
    intro hw slot hlt hslot
    have hw' : K'.waiting ≠ none := by rwa [h.waiting]
    exact h.hidden hw hlt
      (h'.hidden hw' (Nat.lt_of_lt_of_le hlt h.grows.store.slots_le) hslot)

/-! ## §1. Sound stages -/

/-- The world is as the stage says. -/
structure Sound (K : Stage) : Prop where
  closed : K.region.Closed K.world
  opens : K.region.Open K.world
  filled : ∀ {slot}, K.region.Slot K.world slot →
    (K.world.store.content slot).isSome ∨ slot ∈ K.pending
  clean : K.world.Clean
  shared : K.shared.Public K.world
  within : K.shared.Le K.region
  top : K.waiting = none → K.shared = K.region
  bounded : K.waiting ≠ none → K.shared.Bounded K.world

/-- A stage as it is in another world. -/
def moved (K : Stage) (w : World) : Stage :=
  { K with world := w }

/-- A change that work at a stage may make: whatever is new refers to the region only. -/
structure Change (K : Stage) (w : World) : Prop where
  grows : K.world.Grows w
  slot : ∀ {f name slot}, w.store.slotIn? f name = some slot →
    K.world.store.slotIn? f name = some slot ∨ K.region.Slot w slot
  content : ∀ {slot v}, w.store.content slot = some v →
    K.world.store.content slot = some v ∨ v.Every (K.region.Node w)
  body : ∀ {id : Nat} {e : Expr}, w.bodies[id]? = some e →
    K.world.bodies[id]? = some e ∨ e.Every (K.region.Node w)

theorem Change.admits (h : K.Change w) : K.region.Admits K.world w :=
  ⟨h.grows, fun _ => h.slot, fun _ => h.content, fun _ => h.body⟩

theorem Change.clean (h : K.Change w) (hc : K.world.Clean) : w.Clean := by
  intro slot v hv
  rcases h.content hv with hold | hnew
  · exact hc slot v hold
  · exact hnew.mono fun _ hu => hu.ne_unspecified

/-- A change of frames and their bindings. -/
theorem change_of_frames (hg : K.world.store.Grows w.store)
    (hslot : ∀ {f name slot}, w.store.slotIn? f name = some slot →
      K.world.store.slotIn? f name = some slot ∨ K.region.Slot w slot)
    (hcontent : ∀ slot, w.store.content slot = K.world.store.content slot)
    (hb : w.bodies = K.world.bodies) : K.Change w where
  grows := World.grows_of_store hg hb
  slot := hslot
  content hv := .inl (by rwa [hcontent] at hv)
  body he := .inl (by rwa [hb] at he)

namespace Sound

/-- After a change the world is as any stage says of which the rest has been shown. -/
theorem after (h : K.Sound) (hc : K.Change w) {shared : Region} {waiting : Option (List SlotId)}
    (hfilled : ∀ {slot}, K.region.Slot w slot →
      (w.store.content slot).isSome ∨ slot ∈ waiting.getD [])
    (hshared : shared.Public w) (hle : shared.Le K.region)
    (htop : waiting = none → shared = K.region)
    (hbounded : waiting ≠ none → shared.Bounded w) :
    Sound ⟨w, K.region, shared, waiting⟩ where
  closed := h.closed.later hc.admits
  opens := h.opens.later hc.grows
  filled := hfilled
  clean := hc.clean h.clean
  shared := hshared
  within := hle
  top := htop
  bounded := hbounded

/-- Slots that hold values or wait go on to do so, if new slots hold values. -/
theorem filled_later (h : K.Sound) (hg : K.world.Grows w)
    (hnew : ∀ {slot}, K.world.store.slots.size ≤ slot → K.region.Slot w slot →
      (w.store.content slot).isSome) {slot : SlotId} (hslot : K.region.Slot w slot) :
    (w.store.content slot).isSome ∨ slot ∈ K.pending := by
  rcases Nat.lt_or_ge slot K.world.store.slots.size with hlt | hge
  · exact (h.filled ⟨hslot.1, hlt⟩).imp_left hg.store.filled
  · exact .inl (hnew hge hslot)

/-- The general step: a change that fills all its new slots and spares what is shared while slots
wait. -/
theorem moved (h : K.Sound) (hc : K.Change w)
    (hnew : ∀ {slot}, K.world.store.slots.size ≤ slot → K.region.Slot w slot →
      (w.store.content slot).isSome)
    (hspared : K.waiting ≠ none → K.shared.Spared K.world w)
    (hlibrary : ∀ {m}, w.library.Knows m →
      K.world.library.Knows m ∨ K.region.Node w (.module m)) : (K.moved w).Sound := by
  refine h.after hc (h.filled_later hc.grows hnew) ?_ h.within h.top
    fun hw => (h.bounded hw).later hc.grows
  by_cases htop : K.waiting = none
  · -- at top level the shared part is all of the region
    have hshared := h.shared
    rw [h.top htop] at hshared ⊢
    exact hshared.later hc.admits hnew hlibrary
  · exact h.shared.spared (h.bounded htop) hc.grows (hspared htop)

/-- The stage after a change comes after the one before it. -/
theorem le_moved (h : K.Sound) (hg : K.world.Grows w) : K.Le (K.moved w) := by
  refine ⟨hg, rfl, rfl, ?_, fun _ _ _ => id⟩
  intro f hf
  refine ⟨hf.frame.later (.refl _) hg, fun hw => ⟨(hf.hidden hw).1, ?_⟩⟩
  intro name slot hslot
  rcases hg.store.fresh hf.frame.2 hslot with hold | ⟨hge, -⟩
  · exact (hf.hidden hw).2 name slot hold
  · exact fun hs => absurd ((h.bounded hw).slots hs) (Nat.not_lt.2 hge)

/-- What changes neither the store, nor the bodies, nor the modules. -/
theorem aside (h : K.Sound) (hs : w.store = K.world.store) (hb : w.bodies = K.world.bodies)
    (hl : w.library = K.world.library) : K.Change w ∧ (K.moved w).Sound := by
  have hg : K.world.store.Grows w.store := by
    rw [hs]
    exact .refl _
  have hc : K.Change w := change_of_frames hg (fun hslot => .inl (by rwa [hs] at hslot))
    (fun _ => by rw [hs]) hb
  refine ⟨hc, h.moved hc ?_ ?_ fun hm => .inl (by rwa [hl] at hm)⟩
  · intro slot hge hslot
    rw [← hs] at hge
    exact absurd hslot.2 (Nat.not_lt.2 hge)
  · intro _
    exact ⟨fun _ hslot => by rwa [hs] at hslot, fun _ => by rw [hs], fun hm => by rwa [hl] at hm⟩

/-! ## §2. Frames and names -/

/-- A change of frames and bindings that adds no slot and binds no old frame. -/
theorem frames (h : K.Sound) (hc : K.Change w) (hsize : w.store.slots = K.world.store.slots)
    (hframe : ∀ {f}, f < K.world.store.frames.size → w.store.frame f = K.world.store.frame f)
    (hl : w.library = K.world.library) : (K.moved w).Sound := by
  refine h.moved hc ?_ ?_ fun hm => .inl (by rwa [hl] at hm)
  · intro slot hge hslot
    rw [← hsize] at hge
    exact absurd hslot.2 (Nat.not_lt.2 hge)
  · intro hw
    refine ⟨?_, ?_, fun hm => by rwa [hl] at hm⟩
    · intro f name slot hf hslot
      unfold Store.slotIn? at hslot ⊢
      rwa [hframe ((h.bounded hw).frames hf)] at hslot
    · intro slot _
      unfold Store.content
      rw [hsize]

/-- A new frame, which may get slots of the region at once. -/
theorem newFrame (h : K.Sound) (bs : List (String × SlotId))
    (hbs : ∀ b ∈ bs, K.region.Slot K.world b.2) :
    let w := { K.world with
      store := K.world.store.newFrame.2.bindSlots K.world.store.frames.size bs }
    K.Change w ∧ (K.moved w).Sound ∧ K.region.Frame w K.world.store.frames.size := by
  intro w
  have hg : K.world.store.Grows w.store :=
    (Store.Grows.refl _).newFrame.bindSlots (Nat.le_refl _) bs
  have hslots : w.store.slots = K.world.store.slots := Store.slots_bindSlots _ _ bs
  have hcontent : ∀ slot, w.store.content slot = K.world.store.content slot := by
    intro slot
    unfold Store.content
    rw [hslots]
  have hc : K.Change w := by
    refine change_of_frames hg ?_ hcontent rfl
    intro f name slot hslot
    rcases Store.slotIn?_bindSlots hslot with hold | hb
    · unfold Store.slotIn? at hold ⊢
      rw [Store.frame_newFrame] at hold
      exact .inl hold
    · exact .inr ((hbs _ hb).later (.refl _) (World.grows_of_store hg rfl))
  refine ⟨hc, h.frames hc hslots ?_ rfl, h.opens.frames (Nat.le_refl _), ?_⟩
  · intro f hf
    exact (Store.frame_bindSlots_of_ne (Nat.ne_of_lt hf) bs).trans (Store.frame_newFrame _ f)
  · show K.world.store.frames.size < (K.world.store.newFrame.2.bindSlots _ bs).frames.size
    rw [Store.frames_size_bindSlots, Store.frames_size_newFrame]
    exact Nat.lt_succ_self _

/-- A new frame without bindings may be worked in. -/
theorem extend (h : K.Sound) :
    let w := { K.world with store := K.world.store.newFrame.2 }
    K.Change w ∧ (K.moved w).Sound ∧ (K.moved w).Works K.world.store.frames.size := by
  intro w
  obtain ⟨hc, hsound, hframe⟩ := h.newFrame [] fun _ hb => absurd hb (by simp)
  refine ⟨hc, hsound, ⟨hframe, fun hw => ⟨?_, ?_⟩⟩⟩
  · exact fun hs => absurd ((h.bounded hw).frames hs) (Nat.lt_irrefl _)
  · intro name slot hslot
    exact absurd ((Store.slotIn?_newFrame_size _ name).symm.trans hslot) (by simp)

/-- A binding of a good value in a frame where work goes on. -/
theorem bind (h : K.Sound) {f : FrameId} (hf : K.Works f) (name : String) {v : Value}
    (hv : v.Every (K.region.Node K.world)) :
    let w := { K.world with store := K.world.store.bind f name v }
    K.Change w ∧ (K.moved w).Sound := by
  intro w
  have hg : K.world.Grows w := World.grows_of_store (Store.grows_bind _ f name v) rfl
  have hv' : v.Every (K.region.Node w) := hv.mono fun _ hu => hu.later (.refl _) hg
  have hc : K.Change w := by
    refine ⟨hg, ?_, ?_, fun he => .inl he⟩
    · intro g other slot hslot
      rcases Store.slotIn?_bind hslot with hold | ⟨-, hnew, hsize, -⟩
      · exact .inl hold
      · refine .inr ⟨h.opens.slots (Nat.le_of_eq hnew.symm), ?_⟩
        show slot < (K.world.store.bind f name v).slots.size
        rw [hsize, hnew]
        exact Nat.lt_succ_self _
    · intro slot u hu
      rcases Store.content_bind hu with hold | ⟨rfl, -⟩
      · exact .inl hold
      · exact .inr hv'
  refine ⟨hc, h.moved hc ?_ ?_ fun hm => .inl hm⟩
  · -- a slot that was not there is the one of the name, and holds the value
    intro slot hge hslot
    have hsize := (Store.slots_size_le_bind K.world.store f name v).2
    have hlt : slot < (K.world.store.bind f name v).slots.size := hslot.2
    show ((K.world.store.bind f name v).content slot).isSome
    cases hs : K.world.store.slotIn? f name with
    | some t =>
      rw [Store.bind_of_some hs, Store.slots_size_fill] at hlt
      exact absurd hlt (Nat.not_lt.2 hge)
    | none =>
      have hnew : slot = K.world.store.slots.size := by omega
      rw [Store.content_bind_of_none hs, if_pos hnew]
      rfl
  · intro hw
    obtain ⟨hframe, hslots⟩ := hf.hidden hw
    refine ⟨?_, ?_, id⟩
    · intro g other slot hshared hslot
      rcases Store.slotIn?_bind hslot with hold | ⟨rfl, -⟩
      · exact hold
      · exact absurd hshared hframe
    · intro slot hslot
      show (K.world.store.bind f name v).content slot = _
      cases hs : K.world.store.slotIn? f name with
      | some t =>
        have hne : slot ≠ t := fun heq => hslots name t hs (heq ▸ hslot)
        rw [Store.bind_of_some hs, Store.content_fill_of_ne hne]
      | none =>
        have hne := Nat.ne_of_lt ((h.bounded hw).slots hslot)
        rw [Store.content_bind_of_none hs, if_neg hne]

/-- One more body, of a function or an expander. -/
theorem push (h : K.Sound) {e : Expr} (he : e.Every (K.region.Node K.world)) :
    let w := { K.world with bodies := K.world.bodies.push e }
    K.Change w ∧ (K.moved w).Sound := by
  intro w
  have hg : K.world.Grows w := World.grows_push K.world e
  have hc : K.Change w := by
    refine ⟨hg, fun hs => .inl hs, fun hv => .inl hv, ?_⟩
    intro id e' he'
    rw [Array.getElem?_push] at he'
    split at he'
    · obtain rfl := Option.some.inj he'
      exact .inr (he.mono fun _ hu => hu.later (.refl _) hg)
    · exact .inl he'
  refine ⟨hc, h.frames hc rfl (fun _ => rfl) rfl⟩

end Sound

/-! ## §3. Slots that wait -/

/-- From one stage another was reached, at which some slots of a frame still wait for their
values. -/
structure Filling (K K' : Stage) (f : FrameId) (slots : List SlotId) : Prop where
  grows : K.world.Grows K'.world
  region : K'.region = K.region
  waiting : K'.waiting = some (slots ++ K.pending)
  works : K'.Works f
  others : K.waiting ≠ none → ∀ {g}, K.Works g → K'.Works g
  hidden : K.waiting ≠ none → ∀ {slot}, slot < K.world.store.slots.size →
    K'.shared.slots slot → K.shared.slots slot
  slots : ∀ slot ∈ slots, slot < K'.world.store.slots.size ∧ ¬ K'.shared.slots slot

theorem Filling.later {f : FrameId} {slots : List SlotId} (h : K.Filling K' f slots)
    (hK : K'.Le K'') : K.Filling K'' f slots where
  grows := h.grows.trans hK.grows
  region := hK.region.trans h.region
  waiting := hK.waiting.trans h.waiting
  works := hK.works h.works
  others hw _ hg := hK.works (h.others hw hg)
  hidden := by
    intro hw slot hlt hslot
    have hw' : K'.waiting ≠ none := by simp [h.waiting]
    exact h.hidden hw hlt
      (hK.hidden hw' (Nat.lt_of_lt_of_le hlt h.grows.store.slots_le) hslot)
  slots := by
    intro slot hslot
    obtain ⟨hlt, hnot⟩ := h.slots slot hslot
    have hw' : K'.waiting ≠ none := by simp [h.waiting]
    exact ⟨Nat.lt_of_lt_of_le hlt hK.grows.store.slots_le, fun hs => hnot (hK.hidden hw' hlt hs)⟩

namespace Sound

/-- A new frame with empty slots for some names. Only what is there already is shared until they
have their values. -/
theorem open_filling (h : K.Sound) (names : List String) :
    let t := K.world.store.newFrame.2.newSlots names
    let w := { K.world with
      store := t.2.bindSlots K.world.store.frames.size (names.zip t.1) }
    let K' : Stage := ⟨w, K.region, K.shared.below K.world, some (t.1 ++ K.pending)⟩
    K.Filling K' K.world.store.frames.size t.1 ∧ K'.Sound := by
  intro t w K'
  have hslots : t.1 = List.range' K.world.store.slots.size names.length :=
    Store.newSlots_fst _ names
  have hnew : ∀ slot ∈ t.1, K.world.store.slots.size ≤ slot := by
    intro slot hslot
    rw [hslots] at hslot
    exact (List.mem_range'_1.1 hslot).1
  have hsize : w.store.slots.size = K.world.store.slots.size + names.length := by
    show (t.2.bindSlots K.world.store.frames.size (names.zip t.1)).slots.size = _
    rw [Store.slots_bindSlots, Store.slots_size_newSlots, Store.slots_newFrame]
  have hlt : ∀ slot ∈ t.1, slot < w.store.slots.size := by
    intro slot hslot
    rw [hslots] at hslot
    rw [hsize]
    exact (List.mem_range'_1.1 hslot).2
  have hframes : w.store.frames.size = K.world.store.frames.size + 1 := by
    show (t.2.bindSlots K.world.store.frames.size (names.zip t.1)).frames.size = _
    rw [Store.frames_size_bindSlots, Store.frames_newSlots, Store.frames_size_newFrame]
  have hg : K.world.store.Grows w.store :=
    (((Store.Grows.refl _).newFrame).newSlots names).bindSlots (Nat.le_refl _) _
  have hcontent : ∀ slot, w.store.content slot = K.world.store.content slot := by
    intro slot
    have hbind : w.store.content slot = t.2.content slot := by
      show (t.2.bindSlots K.world.store.frames.size (names.zip t.1)).content slot = _
      unfold Store.content
      rw [Store.slots_bindSlots]
    rw [hbind, Store.content_newSlots, Store.content_newFrame]
  -- a binding that was not there before is to one of the slots that wait
  have hbound : ∀ {f name slot}, w.store.slotIn? f name = some slot →
      K.world.store.slotIn? f name = some slot ∨ slot ∈ t.1 := by
    intro f name slot hslot
    rcases Store.slotIn?_bindSlots hslot with hold | hb
    · have hframe : t.2.frame f = K.world.store.frame f := by
        unfold Store.frame
        rw [Store.frames_newSlots]
        exact Store.frame_newFrame K.world.store f
      unfold Store.slotIn? at hold ⊢
      rw [hframe] at hold
      exact .inl hold
    · exact .inr (List.of_mem_zip hb).2
  have hc : K.Change w := change_of_frames hg
    (fun hslot => (hbound hslot).imp_right fun hs => ⟨h.opens.slots (hnew _ hs), hlt _ hs⟩)
    hcontent rfl
  have hbelow := K.shared.bounded_below K.world
  have hspared : (K.shared.below K.world).Spared K.world w := by
    refine ⟨?_, fun _ => hcontent _, id⟩
    intro f name slot hf hslot
    rcases hbound hslot with hold | hs
    · exact hold
    · -- the new frame is the only one that binds the new slots
      rcases hg.fresh (hbelow.frames hf) hslot with hold | ⟨hge, hfilled⟩
      · exact hold
      · rw [hcontent, Store.content_of_size_le hge] at hfilled
        exact absurd hfilled (by simp)
  -- an empty slot of the region waits: it is a new one, or waited before
  have hsound : K'.Sound := by
    refine h.after hc ?_ (h.shared.below.spared hbelow hc.grows hspared)
      ⟨fun hf => h.within.frames hf.1, fun hs => h.within.slots hs.1,
        fun hid => h.within.bodies hid.1⟩
      (fun hw => absurd hw (by simp)) fun _ => hbelow.later hc.grows
    intro slot hslot
    rcases Nat.lt_or_ge slot K.world.store.slots.size with hold | hge
    · rw [hcontent]
      exact (h.filled ⟨hslot.1, hold⟩).imp_right fun hp => List.mem_append_right _ hp
    · refine .inr (List.mem_append_left _ ?_)
      rw [hslots]
      refine List.mem_range'_1.2 ⟨hge, ?_⟩
      have hin : slot < w.store.slots.size := hslot.2
      rwa [hsize] at hin
  refine ⟨⟨hc.grows, rfl, rfl, ?_, ?_, fun _ _ _ hs => hs.1, ?_⟩, hsound⟩
  · refine ⟨⟨h.opens.frames (Nat.le_refl _), ?_⟩, fun _ => ⟨?_, ?_⟩⟩
    · show K.world.store.frames.size < w.store.frames.size
      rw [hframes]
      exact Nat.lt_succ_self _
    · exact fun hf => absurd (hbelow.frames hf) (Nat.lt_irrefl _)
    · intro name slot hslot hs
      rcases hbound hslot with hold | hin
      · exact absurd (Store.lt_size_of_slotIn? hold) (Nat.lt_irrefl _)
      · exact absurd (hbelow.slots hs) (Nat.not_lt.2 (hnew slot hin))
  · intro hw g hg'
    have hmoved := (h.le_moved hc.grows).works hg'
    refine ⟨hmoved.frame, fun _ => ⟨fun hf => (hmoved.hidden hw).1 hf.1, ?_⟩⟩
    intro name slot hslot hs
    exact (hmoved.hidden hw).2 name slot hslot hs.1
  · intro slot hslot
    exact ⟨hlt slot hslot, fun hs => absurd (hbelow.slots hs) (Nat.not_lt.2 (hnew slot hslot))⟩

/-- One of the slots that wait gets its value. -/
theorem fill (h : K'.Sound) {f : FrameId} {slot : SlotId} {slots : List SlotId}
    (hfilling : K.Filling K' f (slot :: slots)) {v : Value}
    (hv : v.Every (K'.region.Node K'.world)) :
    let w := { K'.world with store := K'.world.store.fill slot v }
    let K'' : Stage := ⟨w, K'.region, K'.shared, some (slots ++ K.pending)⟩
    K.Filling K'' f slots ∧ K''.Sound := by
  intro w K''
  have hg : K'.world.Grows w := World.grows_of_store (Store.grows_fill _ slot v) rfl
  obtain ⟨hlt, hnot⟩ := hfilling.slots slot (List.mem_cons_self ..)
  have hwaits : K'.waiting ≠ none := by simp [hfilling.waiting]
  have hcontent : ∀ t, w.store.content t =
      if t = slot then some v else K'.world.store.content t :=
    fun t => Store.content_fill hlt
  have hc : K'.Change w := by
    refine ⟨hg, fun hs => .inl hs, ?_, fun he => .inl he⟩
    intro t u hu
    rw [hcontent] at hu
    split at hu
    · obtain rfl := Option.some.inj hu
      exact .inr (hv.mono fun _ hn => hn.later (.refl _) hg)
    · exact .inl hu
  -- a slot that waits is not shared, so that filling it changes nothing that is
  have hspared : K'.shared.Spared K'.world w := by
    refine ⟨fun _ hs => hs, ?_, id⟩
    intro t ht
    have hne : t ≠ slot := by
      rintro rfl
      exact hnot ht
    rw [hcontent, if_neg hne]
  have hsound : K''.Sound := by
    refine h.after hc ?_ (h.shared.spared (h.bounded hwaits) hg hspared) h.within
      (fun hw => absurd hw (by simp)) fun _ => (h.bounded hwaits).later hg
    intro t ht
    by_cases heq : t = slot
    · rw [hcontent, if_pos heq]
      exact .inl rfl
    · have hsize : K'.region.Slot K'.world t := by
        have hin : t < (K'.world.store.fill slot v).slots.size := ht.2
        rw [Store.slots_size_fill] at hin
        exact ⟨ht.1, hin⟩
      rw [hcontent, if_neg heq]
      refine (h.filled hsize).imp_right fun hp => ?_
      have hp' : t ∈ (slot :: slots) ++ K.pending := by
        unfold pending at hp
        rwa [hfilling.waiting] at hp
      exact (List.mem_cons.1 hp').resolve_left heq
  have hworks : ∀ {g}, K'.Works g → K''.Works g :=
    fun hg' => ⟨hg'.frame.later (.refl _) hg, fun _ => hg'.hidden hwaits⟩
  refine ⟨⟨hfilling.grows.trans hg, hfilling.region, rfl, hworks hfilling.works,
    fun hw _ hg' => hworks (hfilling.others hw hg'), hfilling.hidden, ?_⟩, hsound⟩
  intro t ht
  obtain ⟨hlt', hnot'⟩ := hfilling.slots t (List.mem_cons_of_mem _ ht)
  refine ⟨?_, hnot'⟩
  show t < (K'.world.store.fill slot v).slots.size
  rwa [Store.slots_size_fill]

/-- When no slot of a frame waits any more, work goes on at the stage before, one world later. At
top level all that was made meanwhile is then shared. -/
theorem close_filling (h : K'.Sound) {f : FrameId} (hfilling : K.Filling K' f []) :
    ∃ K'', K.Le K'' ∧ K''.world = K'.world ∧ K''.Sound ∧ K''.Works f := by
  have hregion := hfilling.region
  have hc : K'.Change K'.world :=
    ⟨.refl _, fun hs => .inl hs, fun hv => .inl hv, fun he => .inl he⟩
  have hwaits : K'.waiting ≠ none := by simp [hfilling.waiting]
  have hpending : K'.pending = K.pending := by
    unfold pending
    rw [hfilling.waiting]
    rfl
  -- at top level nothing waits any longer; inside another filling its own slots still do
  cases htop : K.waiting with
  | none =>
    have hfilled : ∀ {slot}, K'.region.Slot K'.world slot →
        (K'.world.store.content slot).isSome := by
      intro slot hslot
      rcases h.filled hslot with hsome | hp
      · exact hsome
      · rw [hpending] at hp
        unfold pending at hp
        rw [htop] at hp
        exact absurd hp (by simp)
    have hpublic : K'.region.Public K'.world := by
      refine ⟨h.closed, h.shared.root.later h.within (.refl _), hfilled, ?_⟩
      exact fun hm => (h.shared.library hm).later h.within (.refl _)
    refine ⟨⟨K'.world, K'.region, K'.region, none⟩, ?_, rfl, ?_, ?_⟩
    · refine ⟨hfilling.grows, hregion, htop.symm, ?_, fun hw => absurd htop hw⟩
      intro g hg
      have hframe := hg.frame.later (.refl _) hfilling.grows
      rw [← hregion] at hframe
      exact ⟨hframe, fun hw => absurd rfl hw⟩
    · exact h.after hc (fun hslot => .inl (hfilled hslot)) hpublic (.refl _) (fun _ => rfl)
        fun hw => absurd rfl hw
    · exact ⟨hfilling.works.frame, fun hw => absurd rfl hw⟩
  | some slots =>
    have hw : K.waiting ≠ none := by simp [htop]
    have hsame : K'.waiting = K.waiting := by
      rw [hfilling.waiting, htop]
      unfold pending
      rw [htop]
      rfl
    exact ⟨K', ⟨hfilling.grows, hregion, hsame, hfilling.others hw, hfilling.hidden⟩, rfl, h,
      hfilling.works⟩

end Sound

end Stage

end TinyLisp.Region
