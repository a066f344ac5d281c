import TinyLisp.Eval.Engine
import TinyLisp.Value.Template

/-!
# Filling templates

Evaluating a template evaluates the payloads of its holes at depth zero, from left to right,
and puts the values into their places. A splice in the place of an element puts the elements of
its list there; in any other place it is a fault. Everything else is kept; lists are built
anew.

`fillParts` gives the elements of a list and what it ends in, with no element for a datum that
is not a list; so one recursion serves for lists and for single data.
-/

namespace TinyLisp

/-- The elements that a value spliced into a list stands for. -/
def Value.spliced (v : Value) : Eval (List Value) :=
  match v.elements? with
  | some vs => pure vs
  | none => Eval.typeError (.spliceNotAList v)

/-- Fills a template at depth `d`, where `hole` evaluates a payload: gives the elements of a
list, in order, and its tail. -/
def Value.fillParts (hole : Value → Eval Value) : Nat → Value → Eval (List Value × Value)
  | 0, .pair _ (.unquoteSplicing payload) r => do
    let here ← (← hole payload).spliced
    let (others, tail) ← r.fillParts hole 0
    pure (here ++ others, tail)
  | d, .pair _ a r => do
    let (elements, end_) ← a.fillParts hole d
    let here ← Eval.newChain end_ elements
    let (others, tail) ← r.fillParts hole d
    pure (here :: others, tail)
  | 0, .unquote payload => do
    pure ([], ← hole payload)
  | d + 1, .unquote v => do
    let (elements, tail) ← v.fillParts hole d
    pure ([], .unquote (← Eval.newChain tail elements))
  | 0, .unquoteSplicing _ => Eval.typeError .spliceOutsideList
  | d + 1, .unquoteSplicing v => do
    let (elements, tail) ← v.fillParts hole d
    pure ([], .unquoteSplicing (← Eval.newChain tail elements))
  | d, .quasiquote v => do
    let (elements, tail) ← v.fillParts hole (d + 1)
    pure ([], .quasiquote (← Eval.newChain tail elements))
  | d, .quote v => do
    let (elements, tail) ← v.fillParts hole d
    pure ([], .quote (← Eval.newChain tail elements))
  | _, v => pure ([], v)

/-- Fills a template at depth zero. -/
def Engine.fillTemplate (en : Engine) (scope : Scope) (t : Value) : Eval Value := do
  let (elements, tail) ← t.fillParts (en.evalForm scope) 0
  Eval.newChain tail elements

end TinyLisp
