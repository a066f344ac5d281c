import TinyLisp.Value.Print

/-!
# Expressions

A datum is built into an expression before it is evaluated (`TinyLisp.Expr.Build`), so the
shape of every special form is checked once. A call keeps its argument forms as they were
read: if the callee turns out to name an expander, it gets those forms as data, and they need
not be expressions at all. A call whose argument forms do not build is *deferred*: it keeps
the fault, which counts only if the call is an application after all.
-/

namespace TinyLisp

/-! ## §1. Faults in forms -/

/-- Why a datum is not an expression. -/
inductive FormError
  | improperList (v : Value)
  | wrongCount (form : String) (count : Nat)
  | notASymbol (form : String) (v : Value)
  | malformedBinding (form : String) (v : Value)
  | badParams (form : String) (e : ParamsError)
  | malformedExports (v : Value)
  | malformedImport (v : Value)
  deriving Inhabited

/-- The wording of a fault in a form. -/
def FormError.message : FormError → String
  | improperList v => "cannot evaluate improper list " ++ v.text
  | wrongCount form n => form ++ ": wrong number of parts (" ++ Nat.repr n ++ ")"
  | notASymbol form v => form ++ ": expected a symbol, got " ++ v.text
  | malformedBinding form v => form ++ ": malformed binding " ++ v.text
  | badParams form e => form ++ ": " ++ e.message
  | malformedExports v => "module: malformed export list " ++ v.text
  | malformedImport v => "import: malformed import " ++ v.text

/-! ## §2. Expressions -/

/-- In which scope the initial values of a `let` form are evaluated. -/
inductive LetKind
  /-- All outside: `let`. -/
  | parallel
  /-- Each beneath the bindings before it: `let*`. -/
  | sequential
  /-- All beneath all bindings: `letrec`. -/
  | recursive
  deriving Repr, DecidableEq

/-- The word that introduces a `let` form. -/
def LetKind.keyword : LetKind → String
  | parallel => "let"
  | sequential => "let*"
  | recursive => "letrec"

/-- What an import names: a module, or a file to load. -/
inductive ImportTarget
  | name (name : String)
  | path (path : String)
  deriving Repr, DecidableEq

/-- What an import brings in. -/
inductive ImportSpec
  /-- Every exported name. -/
  | all
  /-- Some exported names. -/
  | only (names : List String)
  /-- The module itself under another name. -/
  | renamed (name : String)
  deriving Repr, DecidableEq

/-- What a definition with parameters defines. -/
inductive DefinitionKind
  /-- A function: `defun`. -/
  | function
  /-- An expander: `defmacro`. -/
  | expander
  deriving Repr, DecidableEq

/-- The word that introduces a definition. -/
def DefinitionKind.keyword : DefinitionKind → String
  | function => "defun"
  | expander => "defmacro"

/-- An expression. -/
inductive Expr
  | literal (v : Value)
  | var (name : String)
  | ite (condition then_ else_ : Expr)
  | and (parts : List Expr)
  | or (parts : List Expr)
  | sequence (parts : List Expr)
  /-- A call whose argument forms build; `forms` are what an expander gets. -/
  | call (callee : Expr) (args : List Expr) (forms : List Value)
  /-- A call whose argument forms do not build, with the first fault among them. -/
  | deferred (callee : Expr) (fault : FormError) (forms : List Value)
  | letIn (kind : LetKind) (bindings : List (String × Expr)) (body : Expr)
  | lambda (name : Option String) (params : Params) (body : Expr)
  /-- `define` and `setq`. -/
  | define (name : String) (value : Expr)
  | definition (kind : DefinitionKind) (name : String) (params : Params) (body : Expr)
  | module (name : String) (exports : List String) (body : List Expr)
  | importFrom (target : ImportTarget) (spec : ImportSpec)
  | macroexpand (form : Value)
  deriving Inhabited

/-- Induction over expressions. -/
@[induction_eliminator]
theorem Expr.induct {motive : Expr → Prop} (literal : ∀ v, motive (literal v))
    (var : ∀ name, motive (var name))
    (ite : ∀ c t e, motive c → motive t → motive e → motive (ite c t e))
    (and : ∀ parts, (∀ e ∈ parts, motive e) → motive (and parts))
    (or : ∀ parts, (∀ e ∈ parts, motive e) → motive (or parts))
    (sequence : ∀ parts, (∀ e ∈ parts, motive e) → motive (sequence parts))
    (call : ∀ callee args forms, motive callee → (∀ e ∈ args, motive e) →
      motive (call callee args forms))
    (deferred : ∀ callee fault forms, motive callee → motive (deferred callee fault forms))
    (letIn : ∀ kind bindings body, (∀ b ∈ bindings, motive b.2) → motive body →
      motive (letIn kind bindings body))
    (lambda : ∀ name params body, motive body → motive (lambda name params body))
    (define : ∀ name value, motive value → motive (define name value))
    (definition : ∀ kind name params body, motive body →
      motive (definition kind name params body))
    (module : ∀ name exports body, (∀ e ∈ body, motive e) → motive (module name exports body))
    (importFrom : ∀ target spec, motive (importFrom target spec))
    (macroexpand : ∀ form, motive (macroexpand form)) : ∀ e, motive e := by
  intro e
  exact @Expr.rec motive (fun es => ∀ e ∈ es, motive e) (fun bs => ∀ b ∈ bs, motive b.2)
    (fun b => motive b.2) literal var ite and or sequence call deferred letIn lambda define
    definition module importFrom macroexpand
    (by simp) (fun _ _ h hs => by simpa using ⟨h, hs⟩)
    (by simp) (fun _ _ h hs => by simpa using ⟨h, fun a b hb => hs (a, b) hb⟩)
    (fun _ _ h => h) e

end TinyLisp
