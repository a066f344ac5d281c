import TinyLisp.World
import TinyLisp.Expr.Build
import TinyLisp.Settings
import TinyLisp.Value.Tag

/-!
# Evaluation as an effect

An evaluation changes the world and ends with a value, with a failure, or for want of depth:
recursion goes only so deep. Whatever it changed before a failure stays changed.

The recursion of the evaluator is left open. An `Engine` is a way to evaluate an expression in
a scope and to apply a value to arguments; each part of the evaluator is a plain definition
over an engine, and `TinyLisp.Eval.Step` closes the circle.
-/

namespace TinyLisp

/-- Why an evaluation ends without a value. -/
inductive Halt
  | failed (e : EvalError)
  /-- The depth given was not enough. -/
  | exhausted

/-- A computation that may change the world, fail, or run out of depth. -/
abbrev Eval := EStateM Halt World

/-- A way to evaluate and to apply. -/
structure Engine where
  eval : Expr → Scope → Eval Value
  apply : Value → List Value → Eval Value

namespace Eval

/-! ## §1. Failing -/

/-- Fails. -/
def fail {α : Type} (e : EvalError) : Eval α :=
  throw (.failed e)

/-- Fails for a value of a wrong type. -/
def typeError {α : Type} (fault : TypeFault) : Eval α :=
  fail (.type fault)

/-- A result, or the failure it is. -/
def ofExcept {α : Type} : Except EvalError α → Eval α
  | .ok a => pure a
  | .error e => fail e

/-- Fails unless a procedure takes so many arguments. -/
def checkArity (a : Arity) (n : Nat) (name : String) : Eval Unit :=
  ofExcept ((a.check n name).mapError .arity)

/-- Runs a computation and gives its end, whatever it is. -/
def observe {α : Type} (x : Eval α) : Eval (Except Halt α) := fun w =>
  match x w with
  | .ok a w => .ok (.ok a) w
  | .error h w => .ok (.error h) w

/-! ## §2. The store -/

/-- Opens a new frame inside a scope. -/
def extend (scope : Scope) : Eval Scope :=
  modifyGet fun w =>
    let (f, store) := w.store.newFrame
    (f :: scope, { w with store := store })

/-- Gives a name a value in the innermost frame of a scope. -/
def bindName (scope : Scope) (name : String) (v : Value) : Eval Unit :=
  match scope with
  | [] => pure ()
  | f :: _ => modify fun w => { w with store := w.store.bind f name v }

/-- Gives names their values, in the innermost frame of a scope. -/
def bindAll (scope : Scope) (bs : List (String × Value)) : Eval Unit :=
  match scope with
  | [] => pure ()
  | f :: _ => modify fun w => { w with store := w.store.bindAll f bs }

/-- Gives names slots, in the innermost frame of a scope. -/
def bindSlots (scope : Scope) (bs : List (String × SlotId)) : Eval Unit :=
  match scope with
  | [] => pure ()
  | f :: _ => modify fun w => { w with store := w.store.bindSlots f bs }

/-- As many new empty slots as there are names. -/
def newSlots (names : List String) : Eval (List SlotId) :=
  modifyGet fun w =>
    let (slots, store) := w.store.newSlots names
    (slots, { w with store := store })

/-- Puts a value into a slot. -/
def fill (slot : SlotId) (v : Value) : Eval Unit :=
  modify fun w => { w with store := w.store.fill slot v }

/-- Looks a name up. -/
def lookup (scope : Scope) (name : String) : Eval Value := do
  ofExcept ((← get).store.lookup scope name)

/-- The expander that a name stands for in a scope, if it stands for one. -/
def expander? (scope : Scope) (name : String) : Eval (Option Expander) := do
  pure ((← get).store.expander? scope name)

/-! ## §3. Bodies, tags, output -/

/-- Keeps a body and gives its number. -/
def newBody (e : Expr) : Eval Nat :=
  modifyGet fun w => (w.bodies.size, { w with bodies := w.bodies.push e })

/-- The body with a number. -/
def body (id : Nat) : Eval Expr := do
  pure ((← get).bodies.getD id (.literal .nil))

/-- A tag that nothing has. -/
def newTag : Eval Nat :=
  modifyGet fun w => (w.nextTag, { w with nextTag := w.nextTag + 1 })

/-- A new pair. -/
def newPair (a d : Value) : Eval Value := do
  pure (.pair (some (← newTag)) a d)

/-- A chain of new pairs that ends in `tail`. -/
def newChain (tail : Value) : List Value → Eval Value
  | [] => pure tail
  | v :: vs => do newPair v (← newChain tail vs)

/-- A proper list of new pairs. -/
def newList (vs : List Value) : Eval Value :=
  newChain .nil vs

/-- Tags the pairs of a form just read. -/
def tagForm (form : Value) : Eval Value :=
  modifyGet fun w =>
    let (form, n) := form.tag w.nextTag
    (form, { w with nextTag := n })

/-- Writes text. -/
def write (s : String) : Eval Unit :=
  modify fun w => { w with output := w.output ++ s }

end Eval

namespace Engine

/-- Evaluates expressions from left to right. -/
def evalEach (en : Engine) (scope : Scope) : List Expr → Eval (List Value)
  | [] => pure []
  | e :: es => do
    let v ← en.eval e scope
    let vs ← en.evalEach scope es
    pure (v :: vs)

/-- Builds a form and evaluates it. -/
def evalForm (en : Engine) (scope : Scope) (form : Value) : Eval Value :=
  match Expr.build form with
  | .ok e => en.eval e scope
  | .error fault => Eval.fail (.form fault)

end Engine

end TinyLisp
