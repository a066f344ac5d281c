import TinyLisp.Eval.Template
import TinyLisp.Eval.Expansion
import TinyLisp.Eval.Module
import TinyLisp.Primitive.Run

/-!
# Evaluation

`evalStep` says what each kind of expression means over an engine, and `applyStep` what it is to
apply a value. `Engine.ofDepth n` is the engine with `n` levels of recursion: the one without
any is exhausted at once, and the next one takes one step and leaves the rest to the one
before.
-/

namespace TinyLisp

namespace Engine

/-! ## §1. Special forms -/

/-- The value of a literal: what a quote wraps, what a template is filled to, and otherwise the
literal itself. A hole needs a template around it. -/
def evalLiteral (en : Engine) (scope : Scope) : Value → Eval Value
  | .quote v => pure v
  | .quasiquote t => en.fillTemplate scope t
  | .unquote v => Eval.typeError (.holeOutsideTemplate (Value.unquote v).typeName)
  | .unquoteSplicing v => Eval.typeError (.holeOutsideTemplate (Value.unquoteSplicing v).typeName)
  | v => pure v

/-- The value of a variable. -/
def evalVar (scope : Scope) (name : String) : Eval Value := do
  match ← Eval.lookup scope name with
  | .unspecified => Eval.fail (.unassigned name)
  | v => pure v

/-- Evaluates up to the first false value; gives that, or the last value, or `last` if there is
nothing to evaluate. -/
def evalAnd (en : Engine) (scope : Scope) (last : Value) : List Expr → Eval Value
  | [] => pure last
  | e :: es => do
    let v ← en.eval e scope
    if v.isTrue then en.evalAnd scope v es else pure v

/-- Evaluates up to the first true value, and gives it. -/
def evalOr (en : Engine) (scope : Scope) : List Expr → Eval Value
  | [] => pure (.bool false)
  | e :: es => do
    let v ← en.eval e scope
    if v.isTrue then pure v else en.evalOr scope es

/-- Evaluates all, and gives the last value, or `last` if there is nothing to evaluate. -/
def evalSequence (en : Engine) (scope : Scope) (last : Value) : List Expr → Eval Value
  | [] => pure last
  | e :: es => do
    let v ← en.eval e scope
    en.evalSequence scope v es

/-- Binds each name in a frame of its own, inside the scope in which its initial value was
evaluated; gives the innermost scope. -/
def bindNested (en : Engine) (scope : Scope) : List (String × Expr) → Eval Scope
  | [] => pure scope
  | (name, init) :: bs => do
    let v ← en.eval init scope
    let inner ← Eval.extend scope
    Eval.bindName inner name v
    en.bindNested inner bs

/-- Fills slots with initial values, all evaluated in one scope. -/
def fillSlots (en : Engine) (scope : Scope) : List ((String × Expr) × SlotId) → Eval Unit
  | [] => pure ()
  | ((_, init), slot) :: bs => do
    let v ← en.eval init scope
    Eval.fill slot v
    en.fillSlots scope bs

/-- The scope of the body of a `let` form. The first initial value of a sequential one is
evaluated in the frame in which its name is then bound; of a recursive one, every name has its
slot before the first initial value is evaluated. -/
def letScope (en : Engine) (scope : Scope) :
    LetKind → List (String × Expr) → Eval Scope
  | .parallel, bs => do
    let vs ← en.evalEach scope (bs.map Prod.snd)
    let inner ← Eval.extend scope
    Eval.bindAll inner ((bs.map Prod.fst).zip vs)
    pure inner
  | .sequential, [] => Eval.extend scope
  | .sequential, (name, init) :: bs => do
    let inner ← Eval.extend scope
    let v ← en.eval init inner
    Eval.bindName inner name v
    en.bindNested inner bs
  | .recursive, bs => do
    let inner ← Eval.extend scope
    let slots ← Eval.newSlots (bs.map Prod.fst)
    Eval.bindSlots inner ((bs.map Prod.fst).zip slots)
    en.fillSlots inner (bs.zip slots)
    pure inner

/-- The value of a `let` form. -/
def evalLet (en : Engine) (scope : Scope) (kind : LetKind) (bs : List (String × Expr))
    (body : Expr) : Eval Value := do
  let inner ← en.letScope scope kind bs
  en.eval body inner

/-- Defines a function or an expander, and gives its name. A function is bound under its own
name in a frame around its body, so that it can call itself. -/
def evalDefinition (en : Engine) (scope : Scope) (kind : DefinitionKind) (name : String)
    (params : Params) (body : Expr) : Eval Value := do
  match kind with
  | .function =>
    let f ← en.evalLet scope .recursive [(name, .lambda (some name) params body)] (.var name)
    Eval.bindName scope name f
  | .expander =>
    let m ← Eval.newExpander name params body scope
    Eval.bindName scope name (.expander m)
  pure (.symbol name)

/-! ## §2. Calls -/

/-- The expander that a callee names in a scope, with the name. -/
def expanderAt (scope : Scope) : Expr → Eval (Option (String × Expander))
  | .var name => do
    pure ((← Eval.expander? scope name).map fun m => (name, m))
  | _ => pure none

/-- A call: of an expander, the value of its expansion; otherwise the callee is evaluated, then
the arguments from left to right, and the one is applied to the others. -/
def evalCall (en : Engine) (ctx : Context) (scope : Scope) (callee : Expr)
    (args : Except FormError (List Expr)) (forms : List Value) : Eval Value := do
  match ← expanderAt scope callee with
  | some (name, m) =>
    let expansion ← en.expand ctx.settings.expansionLimit name m forms scope
    en.evalForm scope expansion
  | none =>
    match args with
    | .error fault => Eval.fail (.form fault)
    | .ok args =>
      let f ← en.eval callee scope
      let vs ← en.evalEach scope args
      en.apply f vs

/-! ## §3. One step -/

/-- What an expression means. -/
def evalStep (ctx : Context) (en : Engine) (e : Expr) (scope : Scope) : Eval Value :=
  match e with
  | .literal v => en.evalLiteral scope v
  | .var name => evalVar scope name
  | .ite c t e => do
    let v ← en.eval c scope
    if v.isTrue then en.eval t scope else en.eval e scope
  | .and es => en.evalAnd scope (.bool true) es
  | .or es => en.evalOr scope es
  | .sequence es => en.evalSequence scope .nil es
  | .call callee args forms => en.evalCall ctx scope callee (.ok args) forms
  | .deferred callee fault forms => en.evalCall ctx scope callee (.error fault) forms
  | .letIn kind bs body => en.evalLet scope kind bs body
  | .lambda name params body => do
    pure (.closure (← Eval.newClosure ctx.settings.strategy name params body scope))
  | .define name e => do
    let v ← en.eval e scope
    Eval.bindName scope name v
    pure v
  | .definition kind name params body => en.evalDefinition scope kind name params body
  | .module name exports body => do
    pure (.module (← en.defineModule name exports body scope))
  | .importFrom target spec => do
    let m ← en.resolve ctx scope target
    Eval.importModule m scope spec
    pure (.module m)
  | .macroexpand form => en.macroexpand ctx.settings.expansionLimit form scope

/-- What it is to apply a value to arguments. -/
def applyStep (en : Engine) (f : Value) (args : List Value) : Eval Value :=
  match f with
  | .primitive p => p.call en args
  | .closure c => en.applyClosure c args
  | .expander m => Eval.typeError (.expanderApplied m.name)
  | v => Eval.typeError (.notApplicable v)

/-- The engine that takes one step and leaves the rest to another. -/
def next (ctx : Context) (en : Engine) : Engine where
  eval e scope := evalStep ctx en e scope
  apply f args := applyStep en f args

/-- The engine without any depth. -/
def exhausted : Engine where
  eval _ _ := throw .exhausted
  apply _ _ := throw .exhausted

/-- The engine with `n` levels of recursion. -/
def ofDepth (ctx : Context) : Nat → Engine
  | 0 => exhausted
  | n + 1 => {
      eval := fun e scope => evalStep ctx (ofDepth ctx n) e scope
      apply := fun f args => applyStep (ofDepth ctx n) f args }

theorem ofDepth_succ (ctx : Context) (n : Nat) :
    ofDepth ctx (n + 1) = (ofDepth ctx n).next ctx := rfl

end Engine

end TinyLisp
