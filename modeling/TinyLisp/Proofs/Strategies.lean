import TinyLisp.Proofs.Simulation.Step
import TinyLisp.Session

/-!
# The strategies cannot be told apart

A session is a sequence of steps, each of which runs a text or a file. What can be seen of a step
is what it ended with, in print or as a failure; the text written; the counter of fresh names;
and the names that the outermost frame binds. Two sessions that differ in how functions keep
their scope, and in nothing else, show the same at every step (`Session.history_eq`).
-/

namespace TinyLisp

open Correspondence

/-! ## §1. What is seen of a session -/

/-- The kinds of failures of a session. -/
inductive SessionError.Kind
  | read (e : ReadError)
  | eval (kind : EvalError.Kind)
  | unreadable (e : FileError)
  | tooDeep
  deriving DecidableEq

/-- The kind of a failure. -/
def SessionError.kind : SessionError → SessionError.Kind
  | read e => .read e
  | eval e => .eval e.kind
  | unreadable _ e => .unreadable e
  | tooDeep => .tooDeep

/-- What is seen of a failure: its kind and its wording. -/
def SessionError.seen (e : SessionError) : SessionError.Kind × String :=
  (e.kind, e.message)

/-- What is seen of a value: how it is printed in either style, and the name of its type. -/
def Value.seen (v : Value) : (Style → String) × String :=
  (fun style => v.print style, v.typeName)

/-- What is seen of a session when a step has ended. -/
structure Observation where
  ending : Except (SessionError.Kind × String) ((Style → String) × String)
  /-- All text written so far. -/
  output : String
  gensym : Gensym
  rootNames : List String

/-- A step of a session: a text to run, or the path of a file to run. -/
inductive SessionStep
  | text (source : String)
  | file (path : String)

namespace Session

/-- Takes a step. -/
def take (s : Session) : SessionStep → Outcome × Session
  | .text source => s.evalText source
  | .file path => s.evalFile path

/-- What is seen when a step has ended like this. -/
def observe (s : Session) (ending : Outcome) : Observation where
  ending := (ending.map Value.seen).mapError SessionError.seen
  output := s.world.output
  gensym := s.world.gensym
  rootNames := s.rootNames

/-- What is seen step by step. -/
def observations (s : Session) : List SessionStep → List Observation
  | [] => []
  | step :: steps =>
    (s.take step).2.observe (s.take step).1 :: (s.take step).2.observations steps

/-- What is seen of a new session: how it fails to start, or what its steps show. -/
def history (depth : Nat) (ctx : Context) (steps : List SessionStep) :
    Except (SessionError.Kind × String) (List Observation) :=
  ((startWithin depth ctx).map (·.observations steps)).mapError SessionError.seen

end Session

/-! ## §2. Sessions in step -/

/-- Sessions that belong together. -/
structure Correspondence.Sessions (K : Correspondence Backdrop.bare) (s s' : Session) : Prop where
  context : s.context.Alike s'.context
  depth : s.depth = s'.depth
  world : K.Worlds s.world s'.world

/-- Endings that look the same. -/
def SameEnding (r r' : Outcome) : Prop :=
  (r.map Value.seen).mapError SessionError.seen = (r'.map Value.seen).mapError SessionError.seen

/-- Steps that belong together: they end alike, in sessions that belong together. -/
def StepsAlike (p p' : Outcome × Session) : Prop :=
  SameEnding p.1 p'.1 ∧ ∃ K : Correspondence Backdrop.bare, K.Sessions p.2 p'.2

variable {O : Backdrop} {K : Correspondence Backdrop.bare} {s s' : Session}

theorem sameEnding_value {K : Correspondence O} {v v' : Value} (h : K.Values v v') :
    SameEnding (.ok v) (.ok v') := by
  have hprint : (fun style => v.print style) = fun style => v'.print style := by
    funext style
    exact h.print_eq K.faithful style
  show Except.ok v.seen = Except.ok v'.seen
  unfold Value.seen
  rw [hprint, h.typeName_eq]

theorem sameEnding_eval {e e' : EvalError} (h : EvalError.Alike e e') :
    SameEnding (.error (.eval e)) (.error (.eval e')) := by
  show Except.error (SessionError.Kind.eval e.kind, e.message) =
    Except.error (SessionError.Kind.eval e'.kind, e'.message)
  rw [h.kind, h.message]

theorem run_alike (h : K.Sessions s s') {x y : Eval Value} (hxy : K.Sim Values x y) :
    StepsAlike (s.run x) (s'.run y) := by
  have he := hxy s.world s'.world h.world
  unfold Session.run
  generalize x s.world = r, y s'.world = r' at he
  cases he with
  | @ok K' _ _ _ _ hK hw hv => exact ⟨sameEnding_value hv, K', h.context, h.depth, hw⟩
  | @error K' _ _ _ _ hK hw hh =>
    cases hh with
    | failed he => exact ⟨sameEnding_eval he, K', h.context, h.depth, hw⟩
    | exhausted => exact ⟨rfl, K', h.context, h.depth, hw⟩
  | excused he => exact he.elim

theorem evalText_alike (h : K.Sessions s s') (source : String) :
    StepsAlike (s.evalText source) (s'.evalText source) := by
  unfold Session.evalText
  cases hread : readData source with
  | error e => exact ⟨rfl, K, h⟩
  | ok forms =>
    have hen : s.engine.InStep Backdrop.bare s'.engine := by
      unfold Session.engine
      rw [← h.depth]
      exact Engine.inStep_ofDepth h.context s.depth
    exact run_alike h (hen.evalForms View.whole_whole K.active_root .nil (readData_like hread))

theorem take_alike (h : K.Sessions s s') (step : SessionStep) :
    StepsAlike (s.take step) (s'.take step) := by
  cases step with
  | text source => exact evalText_alike h source
  | file path =>
    show StepsAlike (s.evalFile path) (s'.evalFile path)
    unfold Session.evalFile
    rw [← h.context.disk]
    cases s.context.disk.readText path with
    | error e => exact ⟨rfl, K, h⟩
    | ok source => exact evalText_alike h source

/-- Sessions in worlds that belong together show the same when their steps ended alike. -/
theorem observe_eq {K : Correspondence O} (h : K.Worlds s.world s'.world) {r r' : Outcome}
    (hr : SameEnding r r') : s.observe r = s'.observe r' := by
  have hnames : s.rootNames = s'.rootNames := by
    unfold Session.rootNames Store.names
    rw [h.store.frame_eq _ _ K.root]
  unfold Session.observe
  rw [hr, h.output, h.gensym, hnames]

theorem observations_eq (h : K.Sessions s s') (steps : List SessionStep) :
    s.observations steps = s'.observations steps := by
  induction steps generalizing K s s' with
  | nil => rfl
  | cons step steps ih =>
    obtain ⟨hr, K', h'⟩ := take_alike h step
    unfold Session.observations
    rw [observe_eq h'.world hr, ih h']

/-! ## §3. New sessions -/

/-- The correspondence of two runs that have done nothing: the outermost frames are a pair. -/
def Correspondence.start : Correspondence Backdrop.bare where
  frame f f' := f = rootFrame ∧ f' = rootFrame
  body _ _ := False
  code _ _ := False
  left := ⟨fun _ _ _ => False, fun _ _ => False⟩
  right := ⟨fun _ _ _ => False, fun _ _ => False⟩
  frame_inj := by
    rintro f f' g g' ⟨rfl, rfl⟩ ⟨rfl, rfl⟩
    exact ⟨fun _ => rfl, fun _ => rfl⟩
  body_inj _ _ _ _ h := h.elim
  root := ⟨rfl, rfl⟩
  apart _ h := h.elim

theorem Side.valid_of_empty (paired : FrameId → Prop) (s : Store) :
    Side.Valid ⟨fun _ _ _ => False, fun _ _ => False⟩ paired s :=
  ⟨fun _ _ _ h => h.elim, fun _ _ h => h.elim, fun _ _ h => h.elim, fun _ _ _ _ h => h.elim⟩

theorem worlds_initial : Correspondence.start.Worlds World.initial World.initial := by
  refine ⟨⟨?_, ?_, rfl, ?_, Side.valid_of_empty _ _, Side.valid_of_empty _ _, Backdrop.holds_bare _ _⟩,
    fun _ _ h => h.elim, fun _ _ h => h.elim, fun _ _ h => h.elim, rfl, rfl, ⟨.nil, .nil, rfl⟩, rfl⟩
  · rintro f f' ⟨rfl, rfl⟩
    exact ⟨by decide, by decide⟩
  · rintro f f' ⟨rfl, rfl⟩
    rfl
  · intro slot
    rw [Store.content_of_size_le (Nat.zero_le slot)]
    exact .none

theorem worlds_primitive :
    Correspondence.start.Worlds Session.primitiveWorld Session.primitiveWorld := by
  have hprimitives : TableLike Correspondence.start.Values
      (Primitive.all.map fun p => (p.name, Value.primitive p))
      (Primitive.all.map fun p => (p.name, Value.primitive p)) := by
    refine List.forall₂_same.2 fun e he => ⟨rfl, ?_⟩
    obtain ⟨p, -, rfl⟩ := List.mem_map.1 he
    exact .primitive p
  exact worlds_initial.withStores (.refl _) (fun _ _ hb => hb) (fun _ _ he => he)
    (worlds_initial.store.bindAll (Works.bare ⟨rfl, rfl⟩) hprimitives)

/-- Sessions in worlds that belong together. -/
theorem sessions_of_worlds {ctx ctx' : Context} (hctx : ctx.Alike ctx') (depth : Nat)
    {w w' : World} (hw : K.Worlds w w') : K.Sessions ⟨ctx, depth, w⟩ ⟨ctx', depth, w'⟩ :=
  ⟨hctx, rfl, hw⟩

theorem begun_alike {p p' : Outcome × Session} (h : StepsAlike p p')
    (steps : List SessionStep) :
    ((Session.begun p).map (·.observations steps)).mapError SessionError.seen =
      ((Session.begun p').map (·.observations steps)).mapError SessionError.seen := by
  obtain ⟨r, s⟩ := p
  obtain ⟨r', s'⟩ := p'
  obtain ⟨hr, K, hs⟩ := h
  cases r with
  | ok v =>
    cases r' with
    | ok v' => exact congrArg Except.ok (observations_eq hs steps)
    | error e' => exact absurd hr (by simp [SameEnding, Except.map, Except.mapError])
  | error e =>
    cases r' with
    | ok v' => exact absurd hr (by simp [SameEnding, Except.map, Except.mapError])
    | error e' =>
      have hseen : e.seen = e'.seen := by
        simpa [SameEnding, Except.map, Except.mapError] using hr
      exact congrArg Except.error hseen

/-- New sessions show the same if their contexts differ only in how functions keep their
scope. -/
theorem Session.history_eq {ctx ctx' : Context} (hctx : ctx.Alike ctx') (depth : Nat)
    (steps : List SessionStep) : history depth ctx steps = history depth ctx' steps := by
  have hprelude := evalText_alike (sessions_of_worlds hctx depth worlds_primitive) prelude
  unfold history startWithin
  exact begun_alike hprelude steps

/-- Functions that keep their whole scope and functions that keep a table of captured slots
show the same: for all texts and files run one after another, on every disk, with every search
path and limit of expansion, and with every allowance of depth, one that is used up included. -/
theorem Session.strategies_agree (depth : Nat) (disk : Disk) (limit : Nat) (path : List String)
    (steps : List SessionStep) :
    history depth ⟨⟨.wholeScope, limit, path⟩, disk⟩ steps =
      history depth ⟨⟨.captureTable, limit, path⟩, disk⟩ steps := by
  have hctx : Context.Alike ⟨⟨.wholeScope, limit, path⟩, disk⟩ ⟨⟨.captureTable, limit, path⟩, disk⟩ :=
    ⟨rfl, rfl, rfl⟩
  exact history_eq hctx depth steps

end TinyLisp
