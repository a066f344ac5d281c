import TinyLisp.Eval.Engine
import TinyLisp.Expr.Free

/-!
# Making and calling functions

A function keeps its defining scope. Under one of the two strategies it also keeps a table with
the slots of those free variables that the innermost frame of that scope binds at that moment.
A call then opens a frame with the table between the parameters and the defining scope, so that
those names are found without a walk.
-/

namespace TinyLisp

/-- The slots that a frame gives to some names, for those that it binds. -/
def Store.slotsOf (s : Store) (f : FrameId) (names : List String) :
    List (String × SlotId) :=
  names.filterMap fun name => (s.slotIn? f name).map fun slot => (name, slot)

/-- What a function with these free variables keeps of its defining scope. -/
def Store.captures (s : Store) (strategy : Strategy) (scope : Scope) (free : List String) :
    Captures :=
  match strategy, scope with
  | .wholeScope, _ => .scope
  | .captureTable, [] => .table []
  | .captureTable, f :: _ => .table (s.slotsOf f free)

namespace Eval

/-- Makes a function in a scope. -/
def newClosure (strategy : Strategy) (name : Option String) (params : Params) (body : Expr)
    (scope : Scope) : Eval Closure := do
  let captures :=
    (← get).store.captures strategy scope (Expr.freeVariables params name body)
  let id ← newBody body
  pure ⟨id, name, params, captures, scope⟩

/-- Makes an expander in a scope. -/
def newExpander (name : String) (params : Params) (body : Expr) (scope : Scope) :
    Eval Expander := do
  let id ← newBody body
  pure ⟨id, name, params, scope⟩

/-- The scope of a call: a new frame for the parameters, inside the captured slots, if there is
a table of them, inside the defining scope. -/
def callScope (c : Closure) : Eval Scope :=
  match c.captures with
  | .scope => extend c.scope
  | .table slots => do
    let captured ← extend c.scope
    bindSlots captured slots
    extend captured

/-- Gives parameters their arguments in the innermost frame of a scope: the fixed ones by
position, and the rest parameter the list of all others. -/
def bindParams (params : Params) (args : List Value) (scope : Scope) (name : String) :
    Eval Unit := do
  checkArity params.arity args.length name
  bindAll scope (params.fixed.zip args)
  match params.rest with
  | none => pure ()
  | some rest => bindName scope rest (← newList (args.drop params.fixed.length))

end Eval

/-- Applies a function to arguments. -/
def Engine.applyClosure (en : Engine) (c : Closure) (args : List Value) : Eval Value := do
  let scope ← Eval.callScope c
  Eval.bindParams c.params args scope c.label
  en.eval (← Eval.body c.id) scope

end TinyLisp
