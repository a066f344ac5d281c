import TinyLisp.Proofs.Grounded

/-!
# Names that keep their meaning

An expansion, an application and the loading of a file change no frame and no slot that was there
before (`Engine.frame_isolation`). In a world of a session this settles what names mean: looking a
name up in a scope reads old frames and old slots only, also where it goes on in a module. So every
name that could be looked up before means what it meant (`World.lookup_stable`).

For this the slots that frames bind have to be there, empty or not. They are, in every world of a
session (`World.Arises.tight`); that is shown as groundedness is, and together with it, for the
frame of a table of captured slots is tight because what a function refers to is there.
-/

namespace TinyLisp

open Store (Confined)

/-! ## §1. Tight stores -/

namespace Store

variable {s t : Store} {f : FrameId} {name : String} {slot : SlotId}

/-- The slots that frames bind are there. -/
def Tight (s : Store) : Prop :=
  ∀ f name slot, s.slotIn? f name = some slot → slot < s.slots.size

namespace Tight

theorem newFrame (h : s.Tight) : s.newFrame.2.Tight := by
  intro f name slot hs
  unfold slotIn? at hs
  rw [frame_newFrame] at hs
  exact h f name slot hs

theorem bind (h : s.Tight) (f : FrameId) (name : String) (v : Value) : (s.bind f name v).Tight := by
  intro g other slot hs
  rcases slotIn?_bind hs with hold | ⟨-, hnew, hsize, -⟩
  · exact Nat.lt_of_lt_of_le (h g other slot hold) (slots_size_le_bind s f name v).1
  · rw [hnew, hsize]
    exact Nat.lt_succ_self _

theorem fill (h : s.Tight) (slot : SlotId) (v : Value) : (s.fill slot v).Tight := by
  intro f name t hs
  rw [slots_size_fill]
  exact h f name t hs

theorem newSlots (h : s.Tight) (names : List String) : (s.newSlots names).2.Tight := by
  intro f name slot hs
  unfold slotIn? frame at hs
  rw [frames_newSlots] at hs
  rw [slots_size_newSlots]
  exact Nat.lt_add_right _ (h f name slot hs)

theorem bindSlots (h : s.Tight) (f : FrameId) {bs : List (String × SlotId)}
    (hbs : ∀ b ∈ bs, b.2 < s.slots.size) : (s.bindSlots f bs).Tight := by
  intro g name slot hs
  rw [slots_bindSlots]
  rcases slotIn?_bindSlots hs with hold | hb
  · exact h g name slot hold
  · exact hbs (name, slot) hb

end Tight

end Store

/-! ## §2. Tightness as an invariant -/

/-- The invariant of groundedness, of tight stores. -/
def Invariant.tightness : Invariant :=
  { grounding with
    Holds := fun v w => grounding.Holds v w ∧ w.store.Tight
    Left := fun v w => grounding.Left v w ∧ w.store.Tight }

namespace Invariant

variable {v w w' : World} {P : World → Prop}

/-- A later stage of grounded worlds is one of tight ones if the store is tight. -/
theorem later_tight (h : grounding.Later v w' P) (ht : w'.store.Tight) :
    tightness.Later v w' P := by
  obtain ⟨v', hle, hw', hP⟩ := h
  exact ⟨v', hle, ⟨hw', ht⟩, hP⟩

theorem active_tight {scope : Scope} (hs : tightness.Active v scope) : grounding.Active v scope :=
  ⟨hs.knows, hs.works, hs.inside⟩

/-- A call of a function that refers to what is there opens its frames in a tight store. -/
theorem call_tight {c : Closure} (hc : v.Supports (.closure c)) :
    tightness.Runs v (fun v' inner => tightness.Active v' inner) (Eval.callScope c)
      (Eval.callScope c) := by
  rintro w ⟨hw, ht⟩
  have hends := (call_ground hc w hw).ends
  have htight : ((Eval.callScope c).after w).store.Tight := by
    obtain ⟨rfl, -⟩ := id hw
    unfold Eval.callScope
    cases hcaptures : c.captures with
    | scope => exact ht.newFrame
    | table slots =>
      have hslots : ∀ b ∈ slots, b.2 < v.store.newFrame.2.slots.size := by
        intro b hb
        have hcovers := hc.2.2
        rw [hcaptures] at hcovers
        obtain ⟨f, -, hpinned⟩ := hcovers b hb
        exact ht f b.1 b.2 hpinned
      exact (ht.newFrame.bindSlots _ hslots).newFrame
  refine .same ?_
  cases hcall : Eval.callScope c w with
  | ok inner w' =>
    rw [Eval.after_of_ok hcall] at htight
    rw [hcall] at hends
    obtain ⟨v', hle, hw', hactive⟩ := hends
    exact ⟨v', hle, ⟨hw', htight⟩, hactive.knows, hactive.works, hactive.inside⟩
  | error e w' =>
    rw [Eval.after_of_error hcall] at htight
    rw [hcall] at hends
    exact ⟨hends, htight⟩

theorem kept_tightness : tightness.Kept where
  node_mono := kept_grounding.node_mono
  frame_mono := kept_grounding.frame_mono
  works_mono := kept_grounding.works_mono
  complete_mono := @kept_grounding.complete_mono
  top_mono := kept_grounding.top_mono
  left_of_later hK h := ⟨kept_grounding.left_of_later hK h.1, h.2⟩
  left_of_holds h := ⟨kept_grounding.left_of_holds h.1, h.2⟩
  frame_of_works := kept_grounding.frame_of_works
  top_of_root h := kept_grounding.top_of_root h.1
  plain := kept_grounding.plain
  pair h ha hd := later_tight (kept_grounding.pair h.1 ha hd) h.2
  record name _ h hfields hnodup := later_tight (kept_grounding.record name h.1 hfields hnodup) h.2
  updated f _ h hr hv := later_tight (kept_grounding.updated f h.1 hr hv) h.2
  form h hform := later_tight (kept_grounding.form h.1 hform) h.2
  gensym stem h := later_tight (kept_grounding.gensym stem h.1) h.2
  output text h := later_tight (kept_grounding.output text h.1) h.2
  closure strategy name params _ _ h hs hb :=
    later_tight (kept_grounding.closure strategy name params h.1 (active_tight hs) hb) h.2
  expander name params _ _ h hs hb :=
    later_tight (kept_grounding.expander name params h.1 (active_tight hs) hb) h.2
  closure_body h := kept_grounding.closure_body h.1
  expander_body h := kept_grounding.expander_body h.1
  expander_scope h := kept_grounding.expander_scope h
  call hc := call_tight hc
  extend h := later_tight (kept_grounding.extend h.1) h.2.newFrame
  bind name _ h hf hv := later_tight (kept_grounding.bind name h.1 hf hv) (h.2.bind _ name _)
  lookup h hs := kept_grounding.lookup h.1 hs
  filling := by
    intro v w scope names h hs
    obtain ⟨v', hfilling, hw'⟩ := kept_grounding.filling names h.1 (active_tight hs)
    refine ⟨v', hfilling, hw', (h.2.newFrame.newSlots names).bindSlots _ ?_⟩
    intro b hb
    have hmem := (List.of_mem_zip hb).2
    rw [Store.newSlots_fst, List.mem_range'_1] at hmem
    rw [Store.slots_size_newSlots]
    exact hmem.2
  filling_later := @kept_grounding.filling_later
  filling_node := @kept_grounding.filling_node
  filling_frame := @kept_grounding.filling_frame
  filling_works := @kept_grounding.filling_works
  fill := by
    intro v v' w f slot slots u hfilling h hu
    obtain ⟨v'', hfilling', hw', -⟩ :=
      @KeptOutside.fill _ kept_grounding.toKeptOutside v v' w f slot slots u hfilling h.1 hu
    exact ⟨v'', hfilling', ⟨hw', h.2.fill slot u⟩, id⟩
  filled hfilling h := later_tight (kept_grounding.filled hfilling h.1) h.2
  unfilled := by
    intro v v' w f slots hfilling h
    exact ⟨@KeptOutside.unfilled _ kept_grounding.toKeptOutside v v' w f slots hfilling h.1, h.2⟩
  module name _ h hs hc hb := later_tight (kept_grounding.module name h.1 (active_tight hs) hc hb) h.2
  shown h := kept_grounding.shown h.1
  register h htop hm := later_tight (kept_grounding.register h.1 htop hm) h.2
  registered h := kept_grounding.registered h.1
  kept h := kept_grounding.kept h.1
  file := by
    intro v w p h hnew hloading
    obtain ⟨v₁, hw₁, hroot, hkeep, hleave⟩ := kept_grounding.file h.1 hnew hloading
    refine ⟨v₁, ⟨hw₁, h.2⟩, hroot, ?_, ?_⟩
    · intro v₂ w₂ m hle h₂ hc hm
      exact later_tight (hkeep v₂ w₂ m hle h₂.1 hc hm) h₂.2
    · intro w₂ h₂
      exact ⟨hleave w₂ h₂.1, h₂.2⟩

theorem starts_tightness : tightness.Starts where
  start := by
    obtain ⟨v, hv, hroot⟩ := starts_grounding.start
    refine ⟨v, ⟨hv, ?_⟩, hroot⟩
    -- the names of the primitive operations are bound one after another
    have hall : ∀ (bs : List (String × Value)) (s : Store), s.Tight →
        (s.bindAll rootFrame bs).Tight := by
      intro bs
      induction bs with
      | nil => exact fun s hs => hs
      | cons b bs ih => exact fun s hs => ih _ (hs.bind rootFrame b.1 b.2)
    have hinitial : World.initial.store.Tight := by
      intro f name slot hs
      rw [World.slotIn?_initial] at hs
      cases hs
    have hbound := hall (Primitive.all.map fun p => (p.name, .primitive p)) _ hinitial
    unfold Session.primitiveWorld
    with_reducible exact hbound
  recover := by
    intro v w hroot h
    obtain ⟨v', hw', hroot'⟩ := starts_grounding.recover hroot h.1
    exact ⟨v', ⟨hw', h.2⟩, hroot'⟩

end Invariant

/-- In every world of a session the slots that frames bind are there. -/
theorem World.Arises.tight {ctx : Context} {w : World} (h : w.Arises ctx) : w.store.Tight := by
  cases h with
  | top h =>
    obtain ⟨v, ⟨-, ht⟩, -⟩ := Invariant.kept_tightness.arises Invariant.starts_tightness h
    exact ht
  | moment h =>
    obtain ⟨v, ⟨-, ht⟩, -⟩ :=
      Invariant.kept_tightness.occurs Invariant.starts_tightness (fun hlax => hlax) h
    exact ht

/-! ## §3. Looking names up later -/

namespace World

variable {w w' : World} {scope : Scope}

/-- A name has the same slot in a scope if no frame of the scope has changed. -/
theorem slot?_stable (hs : w.Inside scope) (hc : Confined none w.store w'.store) (name : String) :
    w'.store.slot? scope name = w.store.slot? scope name :=
  Store.slot?_congr (fun f hf => hc.frame_eq f (hs.lt f hf) (by simp)) name

/-- A slot that a name has reads the same if no slot has changed. -/
theorem read_stable (ht : w.store.Tight) (hc : Confined none w.store w'.store) {name : String}
    {slot : SlotId} (h : w.store.slot? scope name = some slot) :
    w'.store.read slot = w.store.read slot := by
  obtain ⟨f, -, hf⟩ := List.exists_of_findSome?_eq_some h
  have hlt := ht f name slot hf
  unfold Store.read
  rw [hc.content_eq slot hlt fun g hg => absurd hg (by simp)]

/-- What changes nothing that is there leaves every name in every old scope with its meaning. -/
theorem lookup_stable (hw : w.Grounded) (ht : w.store.Tight) (hs : w.Inside scope)
    (hc : Confined none w.store w'.store) (name : String) :
    w'.store.lookup scope name = w.store.lookup scope name := by
  unfold Store.lookup
  -- on the modules on the way; each has a scope that is there
  generalize name.length = n
  induction n generalizing scope name with
  | zero =>
    unfold Store.lookupUpTo
    rw [slot?_stable hs hc]
    cases hslot : w.store.slot? scope name with
    | none => rfl
    | some slot => simp only [read_stable ht hc hslot]
  | succ n ih =>
    unfold Store.lookupUpTo
    rw [slot?_stable hs hc]
    cases hslot : w.store.slot? scope name with
    | some slot => simp only [read_stable ht hc hslot]
    | none =>
      cases splitMember? name with
      | none => rfl
      | some p =>
        obtain ⟨first, rest⟩ := p
        simp only [slot?_stable hs hc]
        cases hfirst : w.store.slot? scope first with
        | none => rfl
        | some slot =>
          simp only [read_stable ht hc hfirst]
          cases hread : w.store.read slot with
          | module m =>
            have hm : w.Inside m.scope := by
              have hsupports := (hw.read slot).self
              rw [hread] at hsupports
              exact hsupports
            simp only [ih hm]
          | _ => rfl

/-- So it goes on to stand for the same expander, or for none. -/
theorem expander?_stable (hw : w.Grounded) (ht : w.store.Tight) (hs : w.Inside scope)
    (hc : Confined none w.store w'.store) (name : String) :
    w'.store.expander? scope name = w.store.expander? scope name := by
  unfold Store.expander?
  rw [lookup_stable hw ht hs hc]

end World

end TinyLisp
