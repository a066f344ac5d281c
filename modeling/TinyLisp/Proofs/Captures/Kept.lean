import TinyLisp.Proofs.Captures.Ledger

/-!
# Every evaluation of a run keeps its ledger

Ledgers, as an invariant of one run. Two kinds of tasks begin with an entry: where a function is made
the moment is noted, and where one with a table of captured slots is called, the moment and the frame
that it opens for them. All other tasks go on with the ledger that they find.
-/

namespace TinyLisp

variable {ctx : Context} {A B : Set Moment}

/-! ## §1. The invariant -/

/-- The invariant of ledgers with certain entries, and others from a run. -/
def Invariant.ledger (ctx : Context) (A B : Set Moment) : Invariant where
  Stage := Ledger
  order := Ledger.inTime
  Holds K w := K.world = w ∧ (A ⊆ K.begun ∧ K.begun ⊆ B) ∧ K.Sound ctx
  Left K w := ∃ K', K.Le K' ∧ K'.world = w ∧ (A ⊆ K'.begun ∧ K'.begun ⊆ B) ∧ K'.Sound ctx
  Node K v := K.Node ctx v
  Frame K f := f < K.world.store.frames.size
  Works K f := K.owns f
  Complete _ _ := True
  Top _ := True
  Filling K K' f _ := K.Le K' ∧ K'.owns f
  hollow := False
  lax := False

namespace Invariant

variable {K K' : (ledger ctx A B).Stage} {w w' : World}

/-- A later stage, when the world is as it says. -/
theorem later_entered (h : K.Le K' ∧ K'.Sound ctx) (hB : A ⊆ K'.begun ∧ K'.begun ⊆ B)
    {P : (ledger ctx A B).Stage → Prop} (hP : P K') : (ledger ctx A B).Later K K'.world P :=
  ⟨K', h.1, ⟨rfl, hB, h.2⟩, hP⟩

/-- A later stage without a new entry. -/
theorem later_carried (hw : (ledger ctx A B).Holds K w)
    (h : K.Le (K.moved w') ∧ (K.moved w').Sound ctx) {P : (ledger ctx A B).Stage → Prop}
    (hP : P (K.moved w')) : (ledger ctx A B).Later K w' P :=
  later_entered h hw.2.1 hP

/-- Tags, fresh names, modules known and text do not matter to ledgers. -/
theorem later_same (hw : (ledger ctx A B).Holds K w) (tag : Nat) (gensym : Gensym)
    (library : Library) (output : String) {P : (ledger ctx A B).Stage → Prop}
    (hP : ∀ w', P (K.moved w')) :
    (ledger ctx A B).Later K { w with
      nextTag := tag, gensym := gensym, library := library, output := output } P := by
  obtain ⟨rfl, -, h⟩ := id hw
  have haside := h.aside
    (w := { K.world with
      nextTag := tag, gensym := gensym, library := library, output := output }) rfl rfl
  exact later_carried hw haside (hP _)

/-- Nor do the modules known matter to what a failure leaves. -/
theorem left_aside (h : (ledger ctx A B).Left K w) (library : Library) :
    (ledger ctx A B).Left K { w with library := library } := by
  obtain ⟨K', hK, hw⟩ := h
  obtain ⟨K'', hK', hw', -⟩ :=
    later_same (P := fun _ => True) hw w.nextTag w.gensym library w.output fun _ => trivial
  exact ⟨K'', hK.trans hK', hw'⟩

/-- A slot gets a good value. -/
theorem later_filled (hw : (ledger ctx A B).Holds K w) (slot : SlotId) {v : Value}
    (hv : (ledger ctx A B).Good K v) :
    (ledger ctx A B).Later K { w with store := w.store.fill slot v } fun _ => True := by
  obtain ⟨rfl, -, h⟩ := id hw
  exact later_carried hw (h.fill slot hv) trivial

theorem inside_of_active_ledger {scope : Scope} (hs : (ledger ctx A B).Active K scope) :
    K.world.Inside scope :=
  ⟨fun h => hs.inside h, hs.knows⟩

/-- A frame that was opened inside a scope. -/
theorem active_opened {f : FrameId} {scope : Scope} (hf : K.owns f)
    (hs : ∀ g ∈ scope, g < K.world.store.frames.size) : (ledger ctx A B).Active K (f :: scope) := by
  refine ⟨?_, ?_, fun h => absurd h (by simp)⟩
  · intro g hg
    rcases List.mem_cons.1 hg with rfl | hg
    · exact hf.1
    · exact hs g hg
  · rintro _ ⟨rfl⟩
    exact hf

/-! ## §2. Entries -/

/-- One more entry from the run. -/
theorem entries_begin {a : Moment} (h : A ⊆ K.begun ∧ K.begun ⊆ B) (ha : a ∈ B) :
    A ⊆ insert a K.begun ∧ insert a K.begun ⊆ B :=
  ⟨h.1.trans (Set.subset_insert a K.begun), Set.insert_subset ha h.2⟩

/-- A function is made: the moment is noted, and then the body is kept. -/
theorem lambda_ledger {n : Nat} {name : Option String} {params : Params} {body : Expr}
    {scope : Scope} (hmem : ⟨n + 1, .eval (.lambda name params body) scope, w⟩ ∈ B)
    (hw : (ledger ctx A B).Holds K w) (hs : (ledger ctx A B).Active K scope)
    (hb : (ledger ctx A B).Fits K body) :
    (ledger ctx A B).Ends K (fun K' c => (ledger ctx A B).Node K' (.closure c))
      (Eval.newClosure ctx.settings.strategy name params body scope w) := by
  obtain ⟨rfl, hB, h⟩ := hw
  let a : Moment := ⟨n + 1, .eval (.lambda name params body) scope, K.world⟩
  obtain ⟨hle, hsound⟩ := h.beginPlain (a := a) rfl fun _ _ _ => Moment.not_opensTable_eval
  have hpush := hsound.push (hb.mono fun _ hu => Ledger.Node.later hu hle)
  refine Later.since hle (later_entered hpush (entries_begin hB hmem) ⟨?_, a, ?_, ?_⟩)
  · exact (inside_of_active_ledger hs).later (hle.trans hpush.1).grows
  · exact Set.mem_insert a K.begun
  · exact ⟨body, _, rfl, rfl, .refl _, Array.getElem?_push_size⟩

/-- A function with a table of captured slots is called: the moment is noted, and two frames are
opened. -/
theorem opened_ledger {n : Nat} {c : Closure} {args : List Value} {table : List (String × SlotId)}
    (hmem : ⟨n + 1, .apply (.closure c) args, w⟩ ∈ B) (hw : (ledger ctx A B).Holds K w)
    (hc : (ledger ctx A B).Node K (.closure c)) (htable : c.captures = .table table) :
    ∃ K' inner, Eval.callScope c w = .ok inner K'.world ∧ K.Le K' ∧
      ⟨n + 1, .apply (.closure c) args, w⟩ ∈ K'.begun ∧ (ledger ctx A B).Holds K' K'.world ∧
        (ledger ctx A B).Active K' inner := by
  obtain ⟨rfl, hB, h⟩ := hw
  let a : Moment := ⟨n + 1, .apply (.closure c) args, K.world⟩
  obtain ⟨hle, hsound, howns⟩ := h.beginCall n args htable
  have hmem' := Set.mem_insert a K.begun
  -- the frame of the captured slots is there, behind that of the parameters
  have hcaptured := (hsound.opened hmem' (.call htable)).1
  have hscope := (hc.1.later hle.grows).cons hcaptured
  refine ⟨_, _, ?_, hle, hmem', ⟨rfl, entries_begin hB hmem, hsound⟩,
    active_opened howns hscope.lt⟩
  unfold Eval.callScope
  rw [htable]
  rfl

/-- The scope of a call. -/
theorem call_ledger {n : Nat} {c : Closure} {args : List Value}
    (hmem : ⟨n + 1, .apply (.closure c) args, w⟩ ∈ B) (hw : (ledger ctx A B).Holds K w)
    (hc : (ledger ctx A B).Node K (.closure c)) :
    (ledger ctx A B).Ends K (fun K' inner => (ledger ctx A B).Active K' inner)
      (Eval.callScope c w) := by
  cases hcaptures : c.captures with
  | scope =>
    obtain ⟨rfl, -, h⟩ := id hw
    have hnew := h.newFrame
    unfold Eval.callScope
    rw [hcaptures]
    refine later_carried hw hnew (active_opened ?_ (hc.1.later hnew.1.grows).lt)
    exact (h.owns_moved_succ (Store.frames_size_newFrame _)).2 (.inr rfl)
  | table table =>
    obtain ⟨K', inner, hcall, hle, -, hw', hactive⟩ := opened_ledger hmem hw hc hcaptures
    rw [hcall]
    exact ⟨K', hle, hw', hactive⟩

/-! ## §3. The invariant is kept -/

theorem kept_ledger (hclosed : Moment.Closed ctx B) : (ledger ctx A B).KeptIn ctx B where
  closed := hclosed
  lambda := lambda_ledger
  call := call_ledger
  node_mono hK h := Ledger.Node.later h hK
  frame_mono hK h := Nat.lt_of_lt_of_le h hK.grows.store.frames_le
  works_mono hK h := hK.owns h
  complete_mono _ h := h
  top_mono _ h := h
  left_of_later := by
    rintro K K' w hK ⟨K'', hK', hw⟩
    exact ⟨K'', hK.trans hK', hw⟩
  left_of_holds h := ⟨_, .refl _, h⟩
  frame_of_works h := h.1
  top_of_root _ _ := trivial
  plain h := Ledger.node_of_plain h
  pair hw _ _ := later_same hw _ _ _ _ fun _ => trivial
  record _ _ hw _ _ := later_same hw _ _ _ _ fun _ => trivial
  updated _ _ hw _ _ := later_same hw _ _ _ _ fun _ => trivial
  form := by
    intro K w form hw hform
    refine later_same hw _ _ _ _ fun w' => ?_
    exact hform.tag_every (fun _ hu => Ledger.node_of_plain hu) (fun _ _ _ => trivial) _
  gensym _ hw := later_same hw _ _ _ _ fun _ => trivial
  output _ hw := later_same hw _ _ _ _ fun _ => trivial
  expander := by
    intro K w name params body scope hw hs hb
    obtain ⟨rfl, -, h⟩ := id hw
    have hpush := h.push hb
    exact later_carried hw hpush ((inside_of_active_ledger hs).later hpush.1.grows)
  closure_body := by
    rintro K w c ⟨rfl, -, h⟩ _
    exact h.getD trivial c.id
  expander_body := by
    rintro K w m ⟨rfl, -, h⟩ _
    exact h.getD trivial m.id
  expander_scope h := h.lt
  extend := by
    intro K w hw
    obtain ⟨rfl, -, h⟩ := id hw
    refine later_carried hw h.newFrame ⟨?_, trivial⟩
    exact (h.owns_moved_succ (Store.frames_size_newFrame _)).2 (.inr rfl)
  bind := by
    intro K w f name v hw hf hv
    obtain ⟨rfl, -, h⟩ := id hw
    exact later_carried hw (h.bind hf name hv) trivial
  lookup := by
    rintro K w scope name v ⟨rfl, -, h⟩ _ hv _
    exact h.lookupUpTo trivial name.length hv
  filling := by
    intro K w scope names hw _
    obtain ⟨rfl, hB, h⟩ := id hw
    have hnew := h.newSlots names
    refine ⟨_, ⟨hnew.1, ?_⟩, rfl, hB, hnew.2⟩
    refine (h.owns_moved_succ ?_).2 (.inr rfl)
    rw [Store.frames_size_bindSlots, Store.frames_newSlots, Store.frames_size_newFrame]
  filling_later h hK := ⟨h.1.trans hK, hK.owns h.2⟩
  filling_node h hv := Ledger.Node.later hv h.1
  filling_frame h hf := Nat.lt_of_lt_of_le hf h.1.grows.store.frames_le
  filling_works h := h.2
  fill := by
    intro K K' w f slot slots v h hw hv
    obtain ⟨K'', hK, hw', -⟩ := later_filled hw slot hv
    exact ⟨K'', ⟨h.1.trans hK, Ledger.Le.owns hK h.2⟩, hw', id⟩
  filled h hw := ⟨_, h.1, hw, h.2, id⟩
  unfilled h hleft := by
    obtain ⟨K'', hK', hw⟩ := hleft
    exact ⟨K'', h.1.trans hK', hw⟩
  module _ _ hw _ _ _ := later_same hw _ _ _ _ fun _ => trivial
  shown := by
    rintro K w m name v ⟨rfl, -, h⟩ _ _ hv
    exact h.lookupUpTo trivial name.length hv
  register hw _ _ := later_same hw _ _ _ _ fun _ => trivial
  registered _ _ := trivial
  kept _ _ := trivial
  file := by
    intro K w p hw _ _
    obtain ⟨K₁, hK₁, hw₁, -⟩ := later_same (P := fun _ => True) hw w.nextTag w.gensym
      (w.library.enter p) w.output fun _ => trivial
    refine ⟨K₁, hw₁, hw₁.2.2.root, ?_, ?_⟩
    · intro K₂ w₂ m hK₂ hw₂ _ _
      exact Later.since (hK₁.trans hK₂) (later_same hw₂ w₂.nextTag w₂.gensym
        ((w₂.library.leave p).keep p m) w₂.output fun _ => ⟨trivial, id⟩)
    · intro w₂ hleft
      obtain ⟨K₂, hK₂, hw₂⟩ := left_aside hleft (w₂.library.leave p)
      exact ⟨K₂, hK₁.trans hK₂, hw₂⟩

/-! ## §4. Beginnings -/

/-- The ledger of the world that a session begins with has no entries. -/
theorem sound_blank (ctx : Context) : Ledger.Sound ctx ⟨World.initial, ∅⟩ := by
  refine ⟨⟨fun hf => hf.1, ?_, ?_⟩, World.Every.initial _, ⟨Nat.zero_lt_one, ?_⟩, ?_, ?_⟩
  · intro f name slot _ hs
    exact absurd (hs.symm.trans (World.slotIn?_initial f name)) (by simp)
  · intro f g name other slot _ _ hs _
    exact absurd (hs.symm.trans (World.slotIn?_initial f name)) (by simp)
  · rintro ⟨a, ha, -⟩
    exact ha
  · intro a ha
    exact absurd ha (by simp)
  · intro a c table f ha _
    exact absurd ha (by simp)

theorem starts_ledger (hclosed : Moment.Closed ctx B) : (ledger ctx ∅ B).Starts where
  start := by
    have hw : (ledger ctx ∅ B).Holds ⟨World.initial, ∅⟩ World.initial :=
      ⟨rfl, ⟨subset_rfl, Set.empty_subset B⟩, sound_blank ctx⟩
    exact (kept_ledger hclosed).start hw (sound_blank ctx).root
  recover := by
    rintro K w hroot ⟨K', hK, hw⟩
    exact ⟨K', hw, hK.owns hroot⟩

end Invariant

end TinyLisp
