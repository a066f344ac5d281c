import TinyLisp.Proofs.Invariant.Build
import TinyLisp.Proofs.Isolation
import TinyLisp.Session
import Mathlib.Order.Basic

/-!
# Invariants of evaluation

An `Invariant` says what is known at a moment of a run (a *stage*), what a world must be like for
that, and which nodes the values have that are about at that moment. Stages are ordered: what is
known at one stage stays known at later ones. `Invariant.Kept` lists what has to be shown of an
invariant, one fact for each thing that the evaluator does to a world; that all evaluations keep
an invariant for which these facts hold is shown once, in the modules beside this one.

`Invariant.Runs` speaks of two computations: run from a world as the stage says, they agree, and
the world they leave is one of a later stage. To run two engines that differ only where the
invariant fails shows that a run never gets there (`TinyLisp.Proofs.Invariant.Moment`). A *lax*
invariant lets the first computation stop for want of depth. It may let the second one stop as well,
while the first goes on to a stage that is *apart*: as every stage after it is, this shows that a run
does not lose what it has once come by (`TinyLisp.Proofs.Invariant.Since`).
-/

namespace TinyLisp

open Store (Confined)

/-- What is claimed of every moment of a run. -/
structure Invariant where
  /-- What is known at a moment. -/
  Stage : Type
  [order : Preorder Stage]
  /-- The world is as the stage says. -/
  Holds : Stage → World → Prop
  /-- The world is one that a failure may leave behind. -/
  Left : Stage → World → Prop
  /-- A value may be about, as far as its outermost node tells. -/
  Node : Stage → Value → Prop
  /-- A frame may be part of a scope. -/
  Frame : Stage → FrameId → Prop
  /-- Names may be bound in a frame. -/
  Works : Stage → FrameId → Prop
  /-- A frame may become the frame of a module. -/
  Complete : Stage → FrameId → Prop
  /-- What is made now may be seen from everywhere. -/
  Top : Stage → Prop
  /-- From one stage another was reached, at which some slots of a frame are still to be
  filled. -/
  Filling : Stage → Stage → FrameId → List SlotId → Prop
  /-- Evaluations may take place in a scope without frames. -/
  hollow : Prop
  /-- The first of two computations may stop for want of depth. -/
  lax : Prop
  /-- The second may have stopped when the first has come to such a stage. -/
  Apart : Stage → Prop := fun _ => False

attribute [instance] Invariant.order

namespace Invariant

variable {I : Invariant} {α β : Type}

/-! ## §1. Good values, expressions and scopes -/

/-- A value of which every node may be about. -/
def Good (I : Invariant) (K : I.Stage) (v : Value) : Prop :=
  v.Every (I.Node K)

/-- An expression that contains good values only. -/
def Fits (I : Invariant) (K : I.Stage) (e : Expr) : Prop :=
  e.Every (I.Node K)

/-- Values that are all good. -/
def Lists (I : Invariant) (K : I.Stage) (vs : List Value) : Prop :=
  ∀ v ∈ vs, I.Good K v

/-- A scope in which names may be looked up. -/
def Knows (I : Invariant) (K : I.Stage) (scope : Scope) : Prop :=
  ∀ f ∈ scope, I.Frame K f

/-- A scope in which an evaluation may take place. -/
structure Active (I : Invariant) (K : I.Stage) (scope : Scope) : Prop where
  knows : I.Knows K scope
  works : ∀ f, scope.head? = some f → I.Works K f
  inside : scope = [] → I.hollow

/-! ## §2. Ends -/

/-- A world is as some later stage says, of which something more is known. -/
def Later (I : Invariant) (K : I.Stage) (w : World) (P : I.Stage → Prop) : Prop :=
  ∃ K', K ≤ K' ∧ I.Holds K' w ∧ P K'

/-- An end in a world of a later stage, with a result of which something is known there; or a
failure that leaves a world as it may. -/
def Ends (I : Invariant) (K : I.Stage) (P : I.Stage → α → Prop) :
    EStateM.Result Halt World α → Prop
  | .ok a w => I.Later K w fun K' => P K' a
  | .error _ w => I.Left K w

/-- An end at a stage that is apart. -/
def EndsApart (I : Invariant) (K : I.Stage) (P : I.Stage → α → Prop) :
    EStateM.Result Halt World α → Prop
  | .ok a w => I.Later K w fun K' => I.Apart K' ∧ P K' a
  | .error _ w => ∃ K', I.Apart K' ∧ I.Left K' w

/-- Two ends are the same, unless the first is for want of depth and the invariant is lax. -/
def Agree (I : Invariant) (r r' : EStateM.Result Halt World α) : Prop :=
  r = r' ∨ I.lax ∧ ∃ w, r = .error .exhausted w

/-- Of two ends the second is for want of depth, and the first at a stage that is apart. -/
def Parts (I : Invariant) (K : I.Stage) (P : I.Stage → α → Prop)
    (r r' : EStateM.Result Halt World α) : Prop :=
  (∃ w, r' = .error .exhausted w) ∧ I.EndsApart K P r

/-- Two computations agree when they are run in a world, unless the second one stops where the first
goes on apart; and they end well. -/
structure RunsAt (I : Invariant) (K : I.Stage) (P : I.Stage → α → Prop) (x y : Eval α)
    (w : World) : Prop where
  agree : I.Agree (x w) (y w) ∨ I.Parts K P (x w) (y w)
  ends : I.Ends K P (x w)

/-- The same, when the computations are run at another stage; and if that is apart, so is the end. -/
structure RunsFrom (I : Invariant) (K K' : I.Stage) (P : I.Stage → α → Prop) (x y : Eval α)
    (w : World) : Prop extends I.RunsAt K P x y w where
  apart : I.Apart K' → I.EndsApart K P (x w)

/-- Two computations agree in every world that is as the stage says, and end well. -/
def Runs (I : Invariant) (K : I.Stage) (P : I.Stage → α → Prop) (x y : Eval α) : Prop :=
  ∀ w, I.Holds K w → I.RunsAt K P x y w

/-! ## §3. What has to be shown -/

/-- The facts from which it follows that everything keeps an invariant but the making of functions
and the opening of scopes for calls of them. -/
structure KeptOutside (I : Invariant) : Prop where
  -- what is known stays known
  node_mono : ∀ {K K' : I.Stage} {v : Value}, K ≤ K' → I.Node K v → I.Node K' v
  frame_mono : ∀ {K K' : I.Stage} {f : FrameId}, K ≤ K' → I.Frame K f → I.Frame K' f
  works_mono : ∀ {K K' : I.Stage} {f : FrameId}, K ≤ K' → I.Works K f → I.Works K' f
  complete_mono : ∀ {K K' : I.Stage} {f : FrameId}, K ≤ K' → I.Complete K f → I.Complete K' f
  top_mono : ∀ {K K' : I.Stage}, K ≤ K' → I.Top K → I.Top K'
  left_of_later : ∀ {K K' : I.Stage} {w : World}, K ≤ K' → I.Left K' w → I.Left K w
  left_of_holds : ∀ {K : I.Stage} {w : World}, I.Holds K w → I.Left K w
  apart_mono : ∀ {K K' : I.Stage}, K ≤ K' → I.Apart K → I.Apart K' := by exact fun _ h => h
  frame_of_works : ∀ {K : I.Stage} {f : FrameId}, I.Works K f → I.Frame K f
  top_of_root : ∀ {K : I.Stage} {w : World}, I.Holds K w → I.Works K rootFrame → I.Top K
  -- values made without a trace in the store
  plain : ∀ {K : I.Stage} {v : Value}, v.Plain → I.Node K v
  pair : ∀ {K : I.Stage} {w : World} {a d : Value}, I.Holds K w → I.Good K a → I.Good K d →
    I.Later K { w with nextTag := w.nextTag + 1 } fun K' =>
      I.Node K' (.pair (some w.nextTag) a d)
  record : ∀ {K : I.Stage} {w : World} (name : String) {fields : Fields}, I.Holds K w →
    (∀ field ∈ fields, I.Good K field.2) → fields.keys.Nodup →
    I.Later K { w with nextTag := w.nextTag + 1 } fun K' =>
      I.Node K' (.record w.nextTag name fields)
  updated : ∀ {K : I.Stage} {w : World} {cell : Nat} {name : String} {fields : Fields}
    (f : String) {v : Value}, I.Holds K w → I.Good K (.record cell name fields) → I.Good K v →
    I.Later K { w with nextTag := w.nextTag + 1 } fun K' =>
      I.Node K' (.record w.nextTag name (fields.set f v))
  form : ∀ {K : I.Stage} {w : World} {form : Value}, I.Holds K w → Datum form →
    I.Later K { w with nextTag := (form.tag w.nextTag).2 } fun K' =>
      I.Good K' (form.tag w.nextTag).1
  gensym : ∀ {K : I.Stage} {w : World} (stem : String), I.Holds K w →
    I.Later K { w with gensym := (w.gensym.fresh stem).2 } fun _ => True
  output : ∀ {K : I.Stage} {w : World} (text : String), I.Holds K w →
    I.Later K { w with output := text } fun _ => True
  -- functions and expanders
  expander : ∀ {K : I.Stage} {w : World} (name : String) (params : Params) {body : Expr}
    {scope : Scope}, I.Holds K w → I.Active K scope → I.Fits K body →
    I.Later K { w with bodies := w.bodies.push body } fun K' =>
      I.Node K' (.expander ⟨w.bodies.size, name, params, scope⟩)
  closure_body : ∀ {K : I.Stage} {w : World} {c : Closure}, I.Holds K w →
    I.Node K (.closure c) → I.Fits K (w.bodies.getD c.id (.literal .nil))
  expander_body : ∀ {K : I.Stage} {w : World} {m : Expander}, I.Holds K w →
    I.Node K (.expander m) → I.Fits K (w.bodies.getD m.id (.literal .nil))
  expander_scope : ∀ {K : I.Stage} {m : Expander}, I.Node K (.expander m) → I.Knows K m.scope
  -- frames
  extend : ∀ {K : I.Stage} {w : World}, I.Holds K w →
    I.Later K { w with store := w.store.newFrame.2 } fun K' =>
      I.Works K' w.store.frames.size ∧ I.Complete K' w.store.frames.size
  bind : ∀ {K : I.Stage} {w : World} {f : FrameId} (name : String) {v : Value}, I.Holds K w →
    I.Works K f → I.Good K v →
    I.Later K { w with store := w.store.bind f name v } fun _ => True
  lookup : ∀ {K : I.Stage} {w : World} {scope : Scope} {name : String} {v : Value},
    I.Holds K w → I.Knows K scope → w.store.lookup scope name = .ok v → v ≠ .unspecified →
    I.Good K v
  -- frames whose names come before their values; the stage before is kept in mind until all have
  -- one, since a failure on the way is one that the stage before must allow for
  filling : ∀ {K : I.Stage} {w : World} {scope : Scope} (names : List String), I.Holds K w →
    I.Active K scope →
    ∃ K', I.Filling K K' w.store.frames.size (w.store.newFrame.2.newSlots names).1 ∧
      I.Holds K' { w with
        store := (w.store.newFrame.2.newSlots names).2.bindSlots w.store.frames.size
          (names.zip (w.store.newFrame.2.newSlots names).1) }
  filling_later : ∀ {K K' K'' : I.Stage} {f : FrameId} {slots : List SlotId},
    I.Filling K K' f slots → K' ≤ K'' → I.Filling K K'' f slots
  filling_node : ∀ {K K' : I.Stage} {f : FrameId} {slots : List SlotId} {v : Value},
    I.Filling K K' f slots → I.Node K v → I.Node K' v
  filling_frame : ∀ {K K' : I.Stage} {f g : FrameId} {slots : List SlotId},
    I.Filling K K' f slots → I.Frame K g → I.Frame K' g
  filling_works : ∀ {K K' : I.Stage} {f : FrameId} {slots : List SlotId},
    I.Filling K K' f slots → I.Works K' f
  fill : ∀ {K K' : I.Stage} {w : World} {f : FrameId} {slot : SlotId} {slots : List SlotId}
    {v : Value}, I.Filling K K' f (slot :: slots) → I.Holds K' w → I.Good K' v →
    ∃ K'', I.Filling K K'' f slots ∧ I.Holds K'' { w with store := w.store.fill slot v } ∧
      (I.Apart K' → I.Apart K'')
  filled : ∀ {K K' : I.Stage} {w : World} {f : FrameId}, I.Filling K K' f [] → I.Holds K' w →
    I.Later K w fun K'' => I.Works K'' f ∧ (I.Apart K' → I.Apart K'')
  unfilled : ∀ {K K' : I.Stage} {w : World} {f : FrameId} {slots : List SlotId},
    I.Filling K K' f slots → I.Left K' w → I.Left K w
  -- modules
  module : ∀ {K : I.Stage} {w : World} {f : FrameId} {rest : Scope} (name : String)
    {exports : List String}, I.Holds K w → I.Active K (f :: rest) → I.Complete K f →
    (∀ n ∈ exports, w.store.binds f n = true) →
    I.Later K { w with nextTag := w.nextTag + 1 } fun K' =>
      I.Node K' (.module ⟨w.nextTag, name, f :: rest, exports⟩)
  shown : ∀ {K : I.Stage} {w : World} {m : Module} {name : String} {v : Value}, I.Holds K w →
    I.Node K (.module m) → name ∈ m.exports → w.store.lookup m.scope name = .ok v → I.Good K v
  register : ∀ {K : I.Stage} {w : World} {m : Module}, I.Holds K w → I.Top K →
    I.Node K (.module m) →
    I.Later K { w with library := w.library.register m } fun _ => True
  registered : ∀ {K : I.Stage} {w : World} {name : String} {m : Module}, I.Holds K w →
    w.library.registry.get? name = some m → I.Node K (.module m)
  kept : ∀ {K : I.Stage} {w : World} {p : Place} {m : Module}, I.Holds K w →
    w.library.files.get? p = some m → I.Node K (.module m)
  -- a file begins at a stage of its own, in which the outermost frame may be written to; its end
  -- is one for the run that asked for it, with the module kept or with nothing but the place left
  file : ∀ {K : I.Stage} {w : World} {p : Place}, I.Holds K w →
    w.library.files.get? p = none → w.library.loading.contains p = false →
    ∃ K₁, I.Holds K₁ { w with library := w.library.enter p } ∧ I.Works K₁ rootFrame ∧
      (∀ K₂ w₂ m, K₁ ≤ K₂ → I.Holds K₂ w₂ → Confined none w.store w₂.store →
        I.Node K₂ (.module m) →
        I.Later K { w₂ with library := (w₂.library.leave p).keep p m } fun K₃ =>
          I.Node K₃ (.module m) ∧ (I.Apart K₂ → I.Apart K₃)) ∧
      ∀ w₂, I.Left K₁ w₂ → I.Left K { w₂ with library := w₂.library.leave p }
  left_apart : ∀ {K : I.Stage} {w : World} (p : Place), I.Apart K → I.Left K w →
    ∃ K', I.Apart K' ∧ I.Left K' { w with library := w.library.leave p } := by
      exact fun _ h _ => False.elim h

/-- The facts from which it follows that every evaluation keeps an invariant. -/
structure Kept (I : Invariant) : Prop extends I.KeptOutside where
  closure : ∀ {K : I.Stage} {w : World} (strategy : Strategy) (name : Option String)
    (params : Params) {body : Expr} {scope : Scope}, I.Holds K w → I.Active K scope →
    I.Fits K body →
    I.Later K { w with bodies := w.bodies.push body } fun K' =>
      I.Node K' (.closure ⟨w.bodies.size, name, params,
        w.store.captures strategy scope (Expr.freeVariables params name body), scope⟩)
  call : ∀ {K : I.Stage} {c : Closure}, I.Node K (.closure c) →
    I.Runs K (fun K' inner => I.Active K' inner) (Eval.callScope c) (Eval.callScope c)

/-- The facts from which it follows that an invariant holds from the beginning of a session, and
again after every failure at top level. -/
structure Starts (I : Invariant) : Prop where
  start : ∃ K, I.Holds K Session.primitiveWorld ∧ I.Works K rootFrame
  recover : ∀ {K : I.Stage} {w : World}, I.Works K rootFrame → I.Left K w →
    ∃ K', I.Holds K' w ∧ I.Works K' rootFrame

/-! ## §4. What stays known -/

namespace KeptOutside

variable {K K' : I.Stage}

theorem good_mono (hI : I.KeptOutside) (hK : K ≤ K') {v : Value} (h : I.Good K v) : I.Good K' v :=
  h.mono fun _ hu => hI.node_mono hK hu

theorem fits_mono (hI : I.KeptOutside) (hK : K ≤ K') {e : Expr} (h : I.Fits K e) : I.Fits K' e :=
  h.mono fun _ hu => hI.node_mono hK hu

theorem lists_mono (hI : I.KeptOutside) (hK : K ≤ K') {vs : List Value} (h : I.Lists K vs) :
    I.Lists K' vs :=
  fun v hv => hI.good_mono hK (h v hv)

theorem knows_mono (hI : I.KeptOutside) (hK : K ≤ K') {scope : Scope} (h : I.Knows K scope) :
    I.Knows K' scope :=
  fun f hf => hI.frame_mono hK (h f hf)

theorem active_mono (hI : I.KeptOutside) (hK : K ≤ K') {scope : Scope} (h : I.Active K scope) :
    I.Active K' scope :=
  ⟨hI.knows_mono hK h.knows, fun f hf => hI.works_mono hK (h.works f hf), h.inside⟩

/-- A frame that may be worked in, put inside a scope that is known. -/
theorem active_cons (hI : I.KeptOutside) {f : FrameId} {scope : Scope} (hf : I.Works K f)
    (h : I.Knows K scope) : I.Active K (f :: scope) := by
  refine ⟨?_, ?_, fun h => absurd h (by simp)⟩
  · intro g hg
    rcases List.mem_cons.1 hg with rfl | hg
    · exact hI.frame_of_works hf
    · exact h g hg
  · rintro _ ⟨rfl⟩
    exact hf

theorem active_root (hI : I.KeptOutside) (h : I.Works K rootFrame) : I.Active K rootScope :=
  hI.active_cons h fun _ hf => absurd hf (by simp)

/-- Atoms are good. -/
theorem atom (hI : I.KeptOutside) {v : Value} (hv : v.nodes = [v]) (hp : v.Plain) : I.Good K v :=
  Value.every_atom (fun _ hu => hI.plain hu) hv hp

/-- A form built from a good datum fits. -/
theorem built (hI : I.KeptOutside) {v : Value} (h : I.Good K v) {e : Expr}
    (he : Expr.build v = .ok e) : I.Fits K e :=
  Expr.build_every (fun _ hu => hI.plain hu) h he

end KeptOutside

/-! ## §5. Ends and agreement -/

variable {K K' : I.Stage} {P Q : I.Stage → α → Prop} {w : World}

theorem Later.mono {P Q : I.Stage → Prop} (h : I.Later K w P)
    (hPQ : ∀ K', K ≤ K' → P K' → Q K') : I.Later K w Q := by
  obtain ⟨K', hK, hw, hP⟩ := h
  exact ⟨K', hK, hw, hPQ K' hK hP⟩

theorem Later.since {P : I.Stage → Prop} (hK : K ≤ K') (h : I.Later K' w P) :
    I.Later K w P := by
  obtain ⟨K'', hK', hw, hP⟩ := h
  exact ⟨K'', hK.trans hK', hw, hP⟩

theorem Ends.since (hI : I.KeptOutside) (hK : K ≤ K') {r : EStateM.Result Halt World α}
    (h : I.Ends K' P r) : I.Ends K P r := by
  cases r with
  | ok a w => exact Later.since hK h
  | error e w => exact hI.left_of_later hK h

/-- However a computation ends, the world is one that may be left behind. -/
theorem Ends.left (hI : I.KeptOutside) {x : Eval α} (h : I.Ends K P (x w)) :
    I.Left K (x.after w) := by
  unfold Eval.after
  cases hx : x w with
  | ok a w' =>
    rw [hx] at h
    obtain ⟨K', hK, hw', -⟩ := h
    exact hI.left_of_later hK (hI.left_of_holds hw')
  | error e w' =>
    rw [hx] at h
    exact h

theorem Ends.mono {r : EStateM.Result Halt World α} (h : I.Ends K P r)
    (hPQ : ∀ K' a, K ≤ K' → P K' a → Q K' a) : I.Ends K Q r := by
  cases r with
  | ok a w => exact Later.mono h fun K' hK hP => hPQ K' a hK hP
  | error e w => exact h

theorem EndsApart.since (hK : K ≤ K') {r : EStateM.Result Halt World α}
    (h : I.EndsApart K' P r) : I.EndsApart K P r := by
  cases r with
  | ok a w => exact Later.since hK h
  | error e w => exact h

theorem EndsApart.mono {r : EStateM.Result Halt World α} (h : I.EndsApart K P r)
    (hPQ : ∀ K' a, K ≤ K' → P K' a → Q K' a) : I.EndsApart K Q r := by
  cases r with
  | ok a w => exact Later.mono h fun K' hK hP => ⟨hP.1, hPQ K' a hK hP.2⟩
  | error e w => exact h

/-- What is run at a stage that is apart ends at such a stage. -/
theorem Ends.apart (hI : I.KeptOutside) (hK : K ≤ K') (hapart : I.Apart K')
    {r : EStateM.Result Halt World α} (h : I.Ends K' P r) : I.EndsApart K P r := by
  cases r with
  | ok a w =>
    obtain ⟨K'', hK', hw, hP⟩ := h
    exact ⟨K'', hK.trans hK', hw, hI.apart_mono hK' hapart, hP⟩
  | error e w => exact ⟨K', hapart, h⟩

theorem later_now {P : I.Stage → Prop} (hw : I.Holds K w) (h : P K) : I.Later K w P :=
  ⟨K, le_refl K, hw, h⟩

theorem Agree.refl (r : EStateM.Result Halt World α) : I.Agree r r :=
  .inl rfl

/-- Where the first computation does not stop for want of depth, the second ends the same. -/
theorem Agree.eq_of_ne {r r' : EStateM.Result Halt World α} (h : I.Agree r r')
    (hr : ∀ w, r ≠ .error .exhausted w) : r = r' := by
  rcases h with h | ⟨-, w, hw⟩
  · exact h
  · exact absurd hw (hr w)

theorem Agree.eq_of_ok {a : α} {r' : EStateM.Result Halt World α}
    (h : I.Agree (.ok a w) r') : r' = .ok a w :=
  (h.eq_of_ne fun _ => by simp).symm

namespace RunsAt

variable {x y : Eval α}

/-- One computation that ends well. -/
theorem same (h : I.Ends K P (x w)) : I.RunsAt K P x x w :=
  ⟨.inl (.refl _), h⟩

theorem of_ends (h : I.Agree (x w) (y w) ∧ I.Ends K P (x w)) : I.RunsAt K P x y w :=
  ⟨.inl h.1, h.2⟩

/-- If no stage is apart the two computations agree. -/
theorem agrees (h : I.RunsAt K P x y w) (hnone : ∀ K : I.Stage, ¬ I.Apart K) :
    I.Agree (x w) (y w) := by
  obtain ⟨hagree | ⟨-, hapart⟩, -⟩ := h
  · exact hagree
  · cases hx : x w with
    | ok a w' =>
      rw [hx] at hapart
      obtain ⟨K', -, -, hK', -⟩ := hapart
      exact absurd hK' (hnone K')
    | error e w' =>
      rw [hx] at hapart
      obtain ⟨K', hK', -⟩ := hapart
      exact absurd hK' (hnone K')

theorem since (hI : I.KeptOutside) (hK : K ≤ K') (h : I.RunsAt K' P x y w) :
    I.RunsAt K P x y w :=
  ⟨h.agree.imp_right fun hparts => ⟨hparts.1, hparts.2.since hK⟩, h.ends.since hI hK⟩

theorem ok {a : α} {w' : World} (hx : x w = .ok a w') (h : I.Later K w' fun K' => P K' a) :
    I.RunsAt K P x x w := by
  refine same ?_
  rw [hx]
  exact h

theorem mono (h : I.RunsAt K P x y w) (hPQ : ∀ K' a, K ≤ K' → P K' a → Q K' a) :
    I.RunsAt K Q x y w :=
  ⟨h.agree.imp_right fun hparts => ⟨hparts.1, hparts.2.mono hPQ⟩, h.ends.mono hPQ⟩

/-- What is known of a first computation, run at a stage of its own, and of what follows it. -/
theorem step {Q : I.Stage → β → Prop} {k k' : α → Eval β} (h : I.RunsAt K' P x y w)
    (hI : I.KeptOutside) (herror : ∀ w', I.Left K' w' → I.Left K w')
    (hk : ∀ K'' a w', K' ≤ K'' → I.Holds K'' w' → P K'' a →
      I.RunsFrom K K'' Q (k a) (k' a) w') : I.RunsFrom K K' Q (x >>= k) (y >>= k') w := by
  obtain ⟨hagree, hends⟩ := h
  cases hx : x w with
  | error e w₁ =>
    rw [hx] at hagree hends
    have hxk : (x >>= k) w = .error e w₁ := Eval.bind_of_error hx
    refine ⟨⟨?_, ?_⟩, ?_⟩
    · rw [hxk]
      rcases hagree with (hy | ⟨hlax, w₂, he⟩) | ⟨⟨w₂, hy⟩, hapart⟩
      · rw [Eval.bind_of_error hy.symm]
        exact .inl (.refl _)
      · cases he
        exact .inl (.inr ⟨hlax, w₁, rfl⟩)
      · rw [Eval.bind_of_error hy]
        exact .inr ⟨⟨w₂, rfl⟩, hapart⟩
    · rw [hxk]
      exact herror w₁ hends
    · intro hapart
      rw [hxk]
      exact ⟨K', hapart, hends⟩
  | ok a w₁ =>
    rw [hx] at hagree hends
    have hxk : (x >>= k) w = k a w₁ := Eval.bind_of_ok hx
    obtain ⟨K₁, hK₁, hw₁, hP⟩ := id hends
    have hrest := hk K₁ a w₁ hK₁ hw₁ hP
    refine ⟨⟨?_, ?_⟩, ?_⟩
    · rw [hxk]
      rcases hagree with hagree | ⟨⟨w₂, hy⟩, K₂, hK₂, hw₂, hapart, hP₂⟩
      · rw [Eval.bind_of_ok hagree.eq_of_ok]
        exact hrest.agree
      -- the second has stopped already, and what the first still does it does apart
      · rw [Eval.bind_of_error hy]
        exact .inr ⟨⟨w₂, rfl⟩, (hk K₂ a w₁ hK₂ hw₂ hP₂).apart hapart⟩
    · rw [hxk]
      exact hrest.ends
    · intro hapart
      rw [hxk]
      exact hrest.apart (hI.apart_mono hK₁ hapart)

theorem bind {Q : I.Stage → β → Prop} {k k' : α → Eval β} (hI : I.KeptOutside)
    (h : I.RunsAt K P x y w) (hk : ∀ K' a, K ≤ K' → P K' a → I.Runs K' Q (k a) (k' a)) :
    I.RunsAt K Q (x >>= k) (y >>= k') w := by
  refine (h.step hI (fun _ hleft => hleft) fun K₁ a w₁ hK₁ hw₁ hP => ?_).toRunsAt
  have hrest := hk K₁ a hK₁ hP w₁ hw₁
  exact ⟨hrest.since hI hK₁, fun hapart => hrest.ends.apart hI hK₁ hapart⟩

end RunsAt

/-! ## §6. Rules -/

namespace Runs

variable {x y : Eval α}

theorem mono (h : I.Runs K P x y) (hPQ : ∀ K' a, K ≤ K' → P K' a → Q K' a) :
    I.Runs K Q x y :=
  fun w hw => (h w hw).mono hPQ

theorem bind {Q : I.Stage → β → Prop} {k k' : α → Eval β} (h : I.Runs K P x y) (hI : I.KeptOutside)
    (hk : ∀ K' a, K ≤ K' → P K' a → I.Runs K' Q (k a) (k' a)) :
    I.Runs K Q (x >>= k) (y >>= k') :=
  fun w hw => (h w hw).bind hI hk

theorem pure {a : α} (h : P K a) : I.Runs K P (pure a) (pure a) :=
  fun _ hw => .ok rfl (later_now hw h)

theorem throw (hI : I.KeptOutside) (e : Halt) : I.Runs K P (throw e) (throw e) :=
  fun _ hw => .same (hI.left_of_holds hw)

theorem fail (hI : I.KeptOutside) (e : EvalError) : I.Runs K P (Eval.fail e) (Eval.fail e) :=
  throw hI _

theorem typeError (hI : I.KeptOutside) (fault : TypeFault) :
    I.Runs K P (Eval.typeError fault) (Eval.typeError fault) :=
  fail hI _

theorem ofExcept (hI : I.KeptOutside) {r : Except EvalError α} (h : Yields (P K) r) :
    I.Runs K P (Eval.ofExcept r) (Eval.ofExcept r) := by
  cases r with
  | ok a => exact pure (h a rfl)
  | error e => exact fail hI e

theorem checkArity (hI : I.KeptOutside) (a : Arity) (n : Nat) (name : String) :
    I.Runs K (fun _ _ => True) (Eval.checkArity a n name) (Eval.checkArity a n name) :=
  ofExcept hI (yields_true _)

/-- What follows a look at the world is run in that world. -/
theorem get {k k' : World → Eval α} (h : ∀ w, I.Holds K w → I.RunsAt K P (k w) (k' w) w) :
    I.Runs K P (get >>= k) (get >>= k') := by
  intro w hw
  have hk : ∀ k : World → Eval α, (MonadState.get >>= k) w = k w w := fun _ => rfl
  refine ⟨?_, ?_⟩
  · rw [hk k, hk k']
    exact (h w hw).agree
  · rw [hk k]
    exact (h w hw).ends

/-- What follows a look at the modules is run in the world in which they were seen. -/
theorem library {k k' : Library → Eval α}
    (h : ∀ w, I.Holds K w → I.RunsAt K P (k w.library) (k' w.library) w) :
    I.Runs K P (Eval.library >>= k) (Eval.library >>= k') := by
  have hk : ∀ k : Library → Eval α,
      (Eval.library >>= k) = (MonadState.get >>= fun w => k w.library) := fun _ => rfl
  rw [hk k, hk k']
  exact get h

/-- A computation that does not fail and leads to a later stage. -/
theorem change (h : ∀ w, I.Holds K w →
    ∃ a w', x w = .ok a w' ∧ I.Later K w' fun K' => P K' a) : I.Runs K P x x := by
  intro w hw
  obtain ⟨a, w', hx, hlater⟩ := h w hw
  exact .ok hx hlater

end Runs

end Invariant

end TinyLisp
