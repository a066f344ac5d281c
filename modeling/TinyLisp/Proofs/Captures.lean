import TinyLisp.Proofs.Captures.Noted

/-!
# Slots have one owner, and captures stay shared

A call of a function that keeps a table of captured slots binds them in a frame of their own. Apart
from such frames no two frames bind the same slot, a name keeps its slot in every frame, and the slots
in a table are those that the frame in which the function was made binds, then and ever after. So in
the scope that a call opens a name has at all times the slot that it has without the table
(`Engine.captures_stay_shared`).

The frames opened for tables are known from the moments in the past of a session
(`Moment.CaptureFrame`), and everything is said of the states in which these moments begin and end.
-/

namespace TinyLisp

open Invariant (ledger)

/-! ## §1. Frames that share slots -/

namespace Store

variable {s : Store} {f : FrameId} {names : List String} {name : String} {slot : SlotId}

/-- The slots of a table are those that the frame binds. -/
theorem slotIn?_of_mem_slotsOf (h : (name, slot) ∈ s.slotsOf f names) :
    s.slotIn? f name = some slot := by
  obtain ⟨other, -, heq⟩ := List.mem_filterMap.1 h
  obtain ⟨t, ht, hpair⟩ := Option.map_eq_some_iff.1 heq
  cases hpair
  exact ht

/-- The names in a table are those that the frame binds, in order. -/
theorem map_fst_slotsOf (s : Store) (f : FrameId) (names : List String) :
    (s.slotsOf f names).map Prod.fst = names.filter (s.binds f) := by
  unfold slotsOf
  induction names with
  | nil => rfl
  | cons name names ih =>
    rw [List.filterMap_cons, List.filter_cons]
    unfold binds
    cases hs : s.slotIn? f name with
    | none => exact ih
    | some slot => exact congrArg (name :: ·) ih

/-- A frame without bindings is passed by. -/
theorem slot?_cons_of_empty (h : s.frame f = []) (scope : Scope) (name : String) :
    s.slot? (f :: scope) name = s.slot? scope name := by
  refine slot?_cons_of_not_mem ?_
  rw [h]
  exact List.not_mem_nil

/-- Names that have the same slot in two scopes have the same slot behind any frame. -/
theorem slot?_cons_congr {scope scope' : Scope} (h : s.slot? scope name = s.slot? scope' name)
    (g : FrameId) : s.slot? (g :: scope) name = s.slot? (g :: scope') name := by
  unfold slot? at h ⊢
  rw [List.findSome?_cons, List.findSome?_cons, h]

end Store

/-! ## §2. Scopes of calls -/

namespace Eval

variable {c : Closure} {table : List (String × SlotId)} {p : FrameId} {rest : Scope} {w : World}

/-- Two ways to open a scope lead to scopes in which every name has the same slot. -/
def SameSlots (x y : Eval Scope) (w : World) : Prop :=
  ∃ scope w₁ scope' w₂, x w = .ok scope w₁ ∧ y w = .ok scope' w₂ ∧
    ∀ name, w₁.store.slot? scope name = w₂.store.slot? scope' name

/-- A call of a function whose table agrees with the frame in which the function was made opens a
scope like one without the table. -/
theorem sameSlots_callScope (htable : c.captures = .table table) (hscope : c.scope = p :: rest)
    (hinside : w.Inside c.scope)
    (hshared : ∀ {name slot}, (name, slot) ∈ table → w.store.slotIn? p name = some slot) :
    SameSlots (callScope c) (extend c.scope) w := by
  let size := w.store.frames.size
  let s := w.store.newFrame.2.bindSlots size table
  have hcall : callScope c w =
      .ok (s.frames.size :: size :: c.scope) { w with store := s.newFrame.2 } := by
    unfold callScope
    rw [htable]
    rfl
  refine ⟨_, _, _, _, hcall, rfl, ?_⟩
  intro name
  have hsize : s.frames.size = size + 1 := by
    rw [Store.frames_size_bindSlots, Store.frames_size_newFrame]
  -- the frames that were there are as they were, in the one store and in the other
  have hold : ∀ f ∈ c.scope, s.newFrame.2.frame f = w.store.newFrame.2.frame f := by
    intro f hf
    rw [Store.frame_newFrame, Store.frame_bindSlots_of_ne (Nat.ne_of_lt (hinside.lt f hf))]
  have htop : s.newFrame.2.frame s.frames.size = [] := Store.frame_newFrame_size s
  have hnew : w.store.newFrame.2.frame size = [] := Store.frame_newFrame_size w.store
  have hcaptured : ∀ {name slot}, s.newFrame.2.slotIn? size name = some slot →
      s.newFrame.2.slotIn? p name = some slot := by
    intro name slot hslot
    unfold Store.slotIn? at hslot ⊢
    rw [hold p (by simp [hscope]), Store.frame_newFrame]
    rw [Store.frame_newFrame] at hslot
    exact hshared (Store.mem_of_slotIn?_newFrame hslot)
  calc s.newFrame.2.slot? (s.frames.size :: size :: c.scope) name
      = s.newFrame.2.slot? (size :: c.scope) name := Store.slot?_cons_of_empty htop _ name
    _ = s.newFrame.2.slot? c.scope name := by
      rw [hscope]
      exact Store.slot?_cons_of_shared fun hslot => Store.slot?_of_slotIn? rfl (hcaptured hslot)
    _ = w.store.newFrame.2.slot? c.scope name := Store.slot?_congr hold name
    _ = w.store.newFrame.2.slot? (size :: c.scope) name :=
      (Store.slot?_cons_of_empty hnew _ name).symm

end Eval

/-! ## §3. Functions whose captures stay shared -/

/-- A function with a table of captured slots came from an expression that was evaluated in the past,
in a scope with an innermost frame. The names in the table are the free variables that this frame
bound then, in order, and it binds them to the same slots now and in every later state; so that a
call, now or later, opens a scope in which every name has the slot that it has without the table. -/
structure Closure.StaysShared (ctx : Context) (past : Set Moment) (w : World) (c : Closure)
    (table : List (String × SlotId)) (a : Moment) (body : Expr) (p : FrameId) (rest : Scope) :
    Prop where
  past : a ∈ past
  task : a.task = .eval (.lambda c.name c.params body) c.scope
  made : ∃ w₁, a.result ctx = .ok (.closure c) w₁ ∧ w₁.Grows w
  code : w.bodies[c.id]? = some body
  scope : c.scope = p :: rest
  names : table.map Prod.fst =
    (Expr.freeVariables c.params c.name body).filter (a.world.store.binds p)
  shared : ∀ w', w' = w ∨ World.Before ctx w w' → ∀ {name slot}, (name, slot) ∈ table →
    w'.store.slotIn? p name = some slot
  calls : ∀ w', w' = w ∨ World.Before ctx w w' →
    Eval.SameSlots (Eval.callScope c) (Eval.extend c.scope) w'

/-- What there is to say of a value's outermost node: if it is a function with a table, its captures
stay shared. -/
def Value.StaysShared (ctx : Context) (past : Set Moment) (w : World) : Value → Prop
  | .closure c => ∀ table, c.captures = .table table →
      ∃ a body p rest, c.StaysShared ctx past w table a body p rest
  | _ => True

/-- All nodes of the values in a task have a property. -/
def Task.Every (N : Value → Prop) : Task → Prop
  | .eval e _ => e.Every N
  | .apply f args => f.Every N ∧ ∀ v ∈ args, v.Every N

/-- What a function's expression gave, where the function has a table: the table is of the free
variables that the innermost frame bound. -/
theorem Moment.table_of_made {ctx : Context} {a : Moment} {c : Closure} {body : Expr}
    {p : FrameId} {rest : Scope} {w₁ : World} {table : List (String × SlotId)}
    (htask : a.task = .eval (.lambda c.name c.params body) (p :: rest))
    (hresult : a.result ctx = .ok (.closure c) w₁) (htable : c.captures = .table table) :
    table = a.world.store.slotsOf p (Expr.freeVariables c.params c.name body) ∧
      a.world.Grows w₁ := by
  obtain ⟨n, t, w⟩ := a
  dsimp only at htask
  subst htask
  cases n with
  | zero =>
    have hfails : result ctx ⟨0, .eval (.lambda c.name c.params body) (p :: rest), w⟩ =
        .error .exhausted w := rfl
    exact absurd (hfails.symm.trans hresult) (by simp)
  | succ n =>
    have hmade : result ctx ⟨n + 1, .eval (.lambda c.name c.params body) (p :: rest), w⟩ =
        .ok (.closure ⟨w.bodies.size, c.name, c.params, w.store.captures ctx.settings.strategy
          (p :: rest) (Expr.freeVariables c.params c.name body), p :: rest⟩)
          { w with bodies := w.bodies.push body } := rfl
    rw [hmade] at hresult
    injection hresult with hvalue hworld
    injection hvalue with hclosure
    subst hworld
    refine ⟨?_, World.grows_push w body⟩
    rw [← hclosure] at htable
    dsimp only at htable ⊢
    -- only the strategy of tables makes a table
    cases hstrategy : ctx.settings.strategy with
    | wholeScope =>
      rw [hstrategy] at htable
      exact absurd htable (by simp [Store.captures])
    | captureTable =>
      rw [hstrategy] at htable
      exact (Captures.table.inj htable).symm

namespace Ledger

variable {ctx : Context} {past : Set Moment} {K : Ledger} {v : Value}

/-- What a sound ledger notes about functions is enough for their captures to stay shared. -/
theorem Node.staysShared (h : K.Node ctx v) (hpast : K.begun ⊆ past) :
    v.StaysShared ctx past K.world := by
  cases v with
  | closure c =>
    intro table htable
    obtain ⟨hinside, a, ha, body, w₁, htask, hresult, hg, hcode⟩ := h
    obtain ⟨p, rest, hscope⟩ := List.exists_cons_of_ne_nil hinside.ne
    obtain ⟨rfl, hmade⟩ := Moment.table_of_made (hscope ▸ htask) hresult htable
    have hlater : ∀ w', w' = K.world ∨ World.Before ctx K.world w' → K.world.Grows w' := by
      intro w' hw'
      rcases hw' with rfl | hbefore
      · exact .refl _
      · exact hbefore.grows
    have hshared : ∀ w', w' = K.world ∨ World.Before ctx K.world w' → ∀ {name slot},
        (name, slot) ∈ a.world.store.slotsOf p (Expr.freeVariables c.params c.name body) →
          w'.store.slotIn? p name = some slot := by
      intro w' hw' name slot hmem
      -- names keep their slots, from the moment on at which the table was made
      exact (hmade.trans (hg.trans (hlater w' hw'))).store.kept (Store.slotIn?_of_mem_slotsOf hmem)
    refine ⟨a, body, p, rest, hpast ha, htask, ⟨w₁, hresult, hg⟩, hcode, hscope,
      Store.map_fst_slotsOf _ _ _, hshared, ?_⟩
    intro w' hw'
    exact Eval.sameSlots_callScope htable hscope (hinside.later (hlater w' hw')) (hshared w' hw')
  | _ => trivial

/-- A slot has one owner outside the frames that were opened for captured slots in the past. -/
theorem Sound.one_owner (h : K.Sound ctx) (hpast : K.begun ⊆ past) {f g : FrameId}
    {name other : String} {slot : SlotId} (hf : ¬ Moment.CaptureFrame past f)
    (hg : ¬ Moment.CaptureFrame past g) (hname : K.world.store.slotIn? f name = some slot)
    (hother : K.world.store.slotIn? g other = some slot) : f = g ∧ name = other := by
  have howns : ∀ {f name}, ¬ Moment.CaptureFrame past f →
      K.world.store.slotIn? f name = some slot → K.owns f := by
    intro f name hf hslot
    exact ⟨Store.lt_size_of_slotIn? hslot, fun hcapture => hf (hcapture.mono hpast)⟩
  exact h.sole (howns hf hname) (howns hg hother) hname hother

end Ledger

/-! ## §4. States of a session -/

/-- The states of a session with its past: the present one, and those in which the moments of the past
began and ended. -/
inductive Session.Passed (ctx : Context) (s : Session) (past : Set Moment) : World → Prop
  | now : Passed ctx s past s.world
  | begins {a : Moment} (h : a ∈ past) : Passed ctx s past a.world
  | ends {a : Moment} (h : a ∈ past) : Passed ctx s past (a.after ctx)

namespace Session

variable {ctx : Context} {s : Session} {past : Set Moment}

/-- At every moment in the past of a session there is a ledger, and the task is ready for it. -/
theorem Arose.ledger_ready (h : s.Arose ctx past) {a : Moment} (ha : a ∈ past) :
    ∃ K : Ledger, (ledger ctx ∅ past).Holds K a.world ∧ (ledger ctx ∅ past).Ready K a.task :=
  ((Invariant.kept_ledger h.closed).arose (Invariant.starts_ledger h.closed) (fun hlax => hlax) h
    subset_rfl).2 a ha

/-- And where the task ends there is one again. -/
theorem Arose.ledger_ends (h : s.Arose ctx past) {a : Moment} (ha : a ∈ past) :
    ∃ K : Ledger, (ledger ctx ∅ past).Ends K (fun K' v => (ledger ctx ∅ past).Good K' v)
      (a.result ctx) := by
  obtain ⟨K, hw, ht⟩ := h.ledger_ready ha
  exact ⟨K, (Invariant.kept_ledger h.closed).ends ha hw ht⟩

/-- In every state there is a sound ledger with entries from the past. -/
theorem Passed.ledger (h : s.Arose ctx past) {w : World} (hw : s.Passed ctx past w) :
    ∃ K : Ledger, K.world = w ∧ K.begun ⊆ past ∧ K.Sound ctx := by
  cases hw with
  | now =>
    obtain ⟨⟨K, ⟨hworld, hpast, hsound⟩, -⟩, -⟩ := (Invariant.kept_ledger h.closed).arose
      (Invariant.starts_ledger h.closed) (fun hlax => hlax) h subset_rfl
    exact ⟨K, hworld, hpast.2, hsound⟩
  | begins ha =>
    obtain ⟨K, ⟨hworld, hpast, hsound⟩, -⟩ := h.ledger_ready ha
    exact ⟨K, hworld, hpast.2, hsound⟩
  | ends ha =>
    obtain ⟨K, hends⟩ := h.ledger_ends ha
    obtain ⟨K', hworld, hpast, hsound⟩ := Invariant.ledger_after h.closed hends
    exact ⟨K', hworld, hpast.2, hsound⟩

/-- What a task is about has captures that stay shared. -/
theorem Arose.shared_of_task (h : s.Arose ctx past) {a : Moment} (ha : a ∈ past) :
    a.task.Every (Value.StaysShared ctx past a.world) := by
  obtain ⟨K, ⟨hworld, hpast, -⟩, ht⟩ := h.ledger_ready ha
  have hshared : ∀ v, Ledger.Node ctx K v → v.StaysShared ctx past a.world := by
    intro v hv
    rw [← hworld]
    exact hv.staysShared hpast.2
  cases htask : a.task with
  | eval e scope =>
    rw [htask] at ht
    exact ht.1.mono hshared
  | apply f args =>
    rw [htask] at ht
    exact ⟨ht.1.mono hshared, fun v hv => (ht.2 v hv).mono hshared⟩

/-- So has what a task gives. -/
theorem Arose.shared_of_result (h : s.Arose ctx past) {a : Moment} (ha : a ∈ past) {v : Value}
    {w : World} (hresult : a.result ctx = .ok v w) : v.Every (Value.StaysShared ctx past w) := by
  obtain ⟨K, hends⟩ := h.ledger_ends ha
  rw [hresult] at hends
  obtain ⟨K', -, ⟨rfl, hpast, -⟩, hgood⟩ := hends
  exact hgood.mono fun u hu => Ledger.Node.staysShared hu hpast.2

/-- In every state a call in the past is still to come, or it is noted in a ledger. -/
theorem Passed.noted (h : s.Arose ctx past) {w : World} (hw : s.Passed ctx past w) {a : Moment}
    (ha : a ∈ past) {c : Closure} {table : List (String × SlotId)} {f : FrameId}
    (hopens : a.OpensTable c table f) : a.Noted ctx past w := by
  obtain ⟨hnow, hnoted⟩ := h.noted h.closed subset_rfl hopens ha
  cases hw with
  | now => exact .inr hnow
  | begins hd => exact (hnoted _ hd).1
  | ends hd => exact (hnoted _ hd).2

/-- In every state, names have the slots in a scope that a call opened that they have without the
frame of captured slots. -/
theorem Passed.sameSlots (h : s.Arose ctx past) {w : World} (hw : s.Passed ctx past w) {a : Moment}
    (ha : a ∈ past) {c : Closure} {table : List (String × SlotId)} {f : FrameId}
    (hopens : a.OpensTable c table f) (g : FrameId) (name : String) :
    w.store.slot? (g :: f :: c.scope) name = w.store.slot? (g :: c.scope) name := by
  refine Store.slot?_cons_congr ?_ g
  rcases hw.noted h ha hopens with hbefore | ⟨K', rfl, hentries, hsound⟩
  · -- before the call the frame is not there
    cases hopens with
    | call htable =>
      exact Store.slot?_cons_of_empty (Store.frame_of_size_le hbefore.store.frames_le) _ name
  · -- then it binds slots of the table only, and these the next frame binds as well
    obtain ⟨K, ⟨hworld, hpast, -⟩, ht⟩ := h.ledger_ready ha
    have hentry := Set.singleton_subset_iff.1 hentries.1
    have hsince : K.world.Grows K'.world := by
      rw [hworld]
      exact hsound.since hentry
    obtain ⟨-, hbound⟩ := hsound.opened hentry hopens
    have hnode : Ledger.Node ctx K (.closure c) := by
      cases hopens with
      | call htable => exact Value.every_closure.1 ht.1
    obtain ⟨a₀, body, p, rest, hshared⟩ := hnode.staysShared hpast.2 table hopens.captures_eq
    rw [hshared.scope]
    refine Store.slot?_cons_of_shared fun {slot} hslot => Store.slot?_of_slotIn? rfl ?_
    exact hsince.store.kept (hshared.shared _ (.inl rfl) (hbound hslot))

end Session

namespace Engine

/-- Slots have one owner, and captures stay shared. Take a session with its past, and any state in
which a moment of the past begins or ends, or the present one. A slot is bound in one frame at most
and to one name, apart from the frames that were opened for captured slots. A name that a frame
binds has the same slot in every later state. The captures of every function that is kept in the
state, that a task beginning there is about, or that a task ending there gave, stay shared. And
whatever call of the past opened a frame for captured slots, every name has the slot in the scope of
the call that it has without that frame. -/
theorem captures_stay_shared (ctx : Context) {s : Session} {past : Set Moment}
    (h : s.Arose ctx past) :
    (∀ w, s.Passed ctx past w →
      (∀ f g name other slot, ¬ Moment.CaptureFrame past f → ¬ Moment.CaptureFrame past g →
        w.store.slotIn? f name = some slot → w.store.slotIn? g other = some slot →
          f = g ∧ name = other) ∧
      (∀ f name slot, w.store.slotIn? f name = some slot →
        ∀ w', World.Before ctx w w' → w'.store.slotIn? f name = some slot) ∧
      w.Every (Value.StaysShared ctx past w) ∧
      ∀ a ∈ past, ∀ c table f, a.OpensTable c table f → ∀ g name,
        w.store.slot? (g :: f :: c.scope) name = w.store.slot? (g :: c.scope) name) ∧
    ∀ a ∈ past, a.task.Every (Value.StaysShared ctx past a.world) ∧
      ∀ v w, a.result ctx = .ok v w → v.Every (Value.StaysShared ctx past w) := by
  refine ⟨?_, ?_⟩
  · intro w hw
    refine ⟨?_, ?_, ?_, fun a ha c table f hopens g name => hw.sameSlots h ha hopens g name⟩
    · intro f g name other slot hf hg hname hother
      obtain ⟨K, rfl, hpast, hsound⟩ := hw.ledger h
      exact hsound.one_owner hpast hf hg hname hother
    · intro f name slot hslot w' hbefore
      exact hbefore.grows.store.kept hslot
    · obtain ⟨K, rfl, hpast, hsound⟩ := hw.ledger h
      exact hsound.toEvery.mono fun v hv => hv.staysShared hpast
  · intro a ha
    refine ⟨h.shared_of_task ha, ?_⟩
    intro v w hresult
    exact h.shared_of_result ha hresult

/-- The names in the table of a function that a frame binds to a name. -/
def capturedNames? (s : Store) (f : FrameId) (name : String) : Option (List String) :=
  match (s.slotIn? f name).bind s.content with
  | some (.closure c) =>
    match c.captures with
    | .table table => some (table.map Prod.fst)
    | .scope => none
  | _ => none

theorem exists_of_capturedNames? {s : Store} {f : FrameId} {name : String} {names : List String}
    (h : capturedNames? s f name = some names) :
    ∃ slot c table, s.slotIn? f name = some slot ∧ s.content slot = some (.closure c) ∧
      c.captures = .table table ∧ table.map Prod.fst = names := by
  unfold capturedNames? at h
  split at h
  · next c hc =>
    obtain ⟨slot, hslot, hcontent⟩ := Option.bind_eq_some_iff.1 hc
    split at h
    · next table htable => exact ⟨slot, c, table, hslot, hcontent, htable, Option.some.inj h⟩
    · exact absurd h (by simp)
  · exact absurd h (by simp)

set_option maxRecDepth 100000 in
/-- A function of a variable of the outermost frame, which has been called. -/
theorem captures_stay_shared_variable :
    let ctx : Context := ⟨.default, ⟨[], []⟩⟩
    ∃ (s : Session) (past : Set Moment) (c : Closure) (table : List (String × SlotId)),
      s.Arose ctx past ∧ c.captures = .table table ∧ table.map Prod.fst = ["x"] ∧
        ∃ a body p rest, c.StaysShared ctx past s.world table a body p rest := by
  intro ctx
  let s : Session := (Session.evalText ⟨ctx, 4, Session.primitiveWorld⟩
    "(define x 1) (define f (lambda () x)) (f)").2
  obtain ⟨past, harose⟩ : ∃ past, s.Arose ctx past := by
    obtain ⟨past, -, h⟩ := (Session.Arose.bare 4).evalText _
    exact ⟨past, h⟩
  have hnames : capturedNames? s.world.store rootFrame "f" = some ["x"] := by decide +kernel
  obtain ⟨slot, c, table, -, hcontent, htable, hmap⟩ := exists_of_capturedNames? hnames
  obtain ⟨-, -, hkept, -⟩ := (captures_stay_shared ctx harose).1 s.world .now
  have hshared := (hkept.content hcontent).self table htable
  exact ⟨s, past, c, table, harose, htable, hmap, hshared⟩

end Engine

end TinyLisp
