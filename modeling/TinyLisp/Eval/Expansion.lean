import TinyLisp.Eval.Function

/-!
# Expansion

A call whose callee names an expander is not applied: the expander's body runs on the argument
forms as they were read, and what it gives is evaluated in place of the call. One quote around
the result is taken off. As long as the result is itself a call of an expander, it is expanded
again, up to a limit.
-/

namespace TinyLisp

/-- Takes one quote off. -/
def Value.unquoted : Value → Value
  | .quote v => v
  | v => v

/-- The name, the expander and the argument forms of a form that calls an expander. -/
def Store.expanderCall? (s : Store) (scope : Scope) (form : Value) :
    Option (String × Expander × List Value) :=
  match form.elements? with
  | some (.symbol name :: args) => (s.expander? scope name).map fun m => (name, m, args)
  | _ => none

namespace Engine

/-- Runs the body of an expander once. -/
def runExpander (en : Engine) (name : String) (m : Expander) (args : List Value) :
    Eval Value := do
  let scope ← Eval.extend m.scope
  Eval.bindParams m.params args scope name
  pure (← en.eval (← Eval.body m.id) scope).unquoted

/-- Expands a form as long as it calls an expander, at most `n` times. `first` is the name that
the first call went by. -/
def settle (en : Engine) (limit : Nat) (first : String) (scope : Scope) :
    Nat → Value → Eval Value
  | 0, form => do
    match (← get).store.expanderCall? scope form with
    | none => pure form
    | some _ => Eval.fail (.expansionLimit first limit)
  | n + 1, form => do
    match (← get).store.expanderCall? scope form with
    | none => pure form
    | some (name, m, args) =>
      let expansion ← en.runExpander name m args
      en.settle limit first scope n expansion

/-- Expands a call until it calls no expander any more. The first expansion is always made. -/
def expand (en : Engine) (limit : Nat) (name : String) (m : Expander) (args : List Value)
    (scope : Scope) : Eval Value := do
  let expansion ← en.runExpander name m args
  en.settle limit name scope (limit - 1) expansion

/-- The expansion of a form, as data. -/
def macroexpand (en : Engine) (limit : Nat) (form : Value) (scope : Scope) : Eval Value := do
  match (← get).store.expanderCall? scope form with
  | some (name, m, args) => en.expand limit name m args scope
  | none => Eval.fail (.notAnExpander (form.elements?.bind List.head? |>.getD form).text)

end Engine

end TinyLisp
