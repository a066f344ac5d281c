import TinyLisp.Expr.Build
import TinyLisp.Names
import TinyLisp.Dotted
import TinyLisp.Value.Template

/-!
# Free variables

The names that the body of a function refers to without binding them, as far as its text
shows. A dotted name depends on what its first segment is bound to. Of quoted data nothing is
referred to; of a template, what its holes refer to. A hole is built into an expression to be
searched; one that does not build counts with every symbol in it, and so do the argument forms
of a deferred call.

`references` follows the structure of an expression and takes the search of a hole as a
parameter. `formReferences` ties that knot by the nesting of the forms within an expression:
the expression built from a hole holds only forms that nest less deeply than the template.
-/

namespace TinyLisp

/-! ## §1. References -/

/-- The name that a reference depends on, unless it is among the bound ones. -/
def reference (bound : List String) (name : String) : List String :=
  if bound.contains name then []
  else
    let base := ((splitMember? name).map Prod.fst).getD name
    if bound.contains base then [] else [base]

/-- Every symbol in a datum, wrapped data excepted. -/
def Value.symbols : Value → List String
  | .symbol s => [s]
  | .pair _ a d => a.symbols ++ d.symbols
  | _ => []

/-! ## §2. Expressions -/

namespace Expr

/-- The names that a datum refers to beneath some bound names. -/
abbrev HoleSearch := List String → Value → List String

/-- The names that the symbols of a datum refer to. -/
def symbolReferences (bound : List String) (v : Value) : List String :=
  v.symbols.flatMap (reference bound)

/-- The name that the head of a form refers to. -/
def headReferences (bound : List String) (form : Value) : List String :=
  match form.elements? with
  | some (.symbol s :: _) => reference bound s
  | _ => []

mutual

/-- The names that an expression refers to, from left to right. -/
def references (search : HoleSearch) (bound : List String) : Expr → List String
  | literal (.quasiquote t) => (t.holes 0).flatMap (search bound)
  | literal _ => []
  | var s => reference bound s
  | ite c t e =>
    references search bound c ++ references search bound t ++ references search bound e
  | and es => referencesEach search bound es
  | or es => referencesEach search bound es
  | sequence es => referencesEach search bound es
  | call f args _ => references search bound f ++ referencesEach search bound args
  | deferred f _ forms =>
    references search bound f ++ forms.flatMap (symbolReferences bound)
  | letIn .parallel bs body =>
    referencesInits search bound bs ++ references search (bs.map Prod.fst ++ bound) body
  | letIn .sequential bs body =>
    referencesNested search bound bs ++ references search (bs.map Prod.fst ++ bound) body
  | letIn .recursive bs body =>
    referencesInits search (bs.map Prod.fst ++ bound) bs ++
      references search (bs.map Prod.fst ++ bound) body
  | lambda name params body => references search (params.names ++ name.toList ++ bound) body
  | define _ e => references search bound e
  | definition _ name params body => references search (params.names ++ [name] ++ bound) body
  | module _ _ body => referencesEach search bound body
  | importFrom _ _ => []
  | macroexpand form => headReferences bound form
termination_by structural e => e

/-- The names that several expressions refer to. -/
def referencesEach (search : HoleSearch) (bound : List String) : List Expr → List String
  | [] => []
  | e :: es => references search bound e ++ referencesEach search bound es
termination_by structural es => es

/-- The names that initial values refer to, all beneath the same bound names. -/
def referencesInits (search : HoleSearch) (bound : List String) :
    List (String × Expr) → List String
  | [] => []
  | (_, e) :: bs => references search bound e ++ referencesInits search bound bs
termination_by structural bs => bs

/-- The names that initial values refer to, each beneath the names before it. -/
def referencesNested (search : HoleSearch) (bound : List String) :
    List (String × Expr) → List String
  | [] => []
  | (name, e) :: bs =>
    references search bound e ++ referencesNested search (name :: bound) bs
termination_by structural bs => bs

end

/-! ## §3. Forms -/

/-- The names that a form refers to, with at most `n` templates around each other. -/
def formReferences : Nat → HoleSearch
  | 0, _, _ => []
  | n + 1, bound, form =>
    match build form with
    | .ok e => references (formReferences n) bound e
    | .error _ => symbolReferences bound form

mutual

/-- A bound on how deeply forms nest in the templates of an expression. -/
def templateHeight : Expr → Nat
  | literal v => v.height
  | var _ => 0
  | ite c t e => max (templateHeight c) (max (templateHeight t) (templateHeight e))
  | and es => templateHeightEach es
  | or es => templateHeightEach es
  | sequence es => templateHeightEach es
  | call f args _ => max (templateHeight f) (templateHeightEach args)
  | deferred f _ _ => templateHeight f
  | letIn _ bs body => max (templateHeightInits bs) (templateHeight body)
  | lambda _ _ body => templateHeight body
  | define _ e => templateHeight e
  | definition _ _ _ body => templateHeight body
  | module _ _ body => templateHeightEach body
  | importFrom _ _ => 0
  | macroexpand _ => 0
termination_by structural e => e

/-- The greatest bound of several expressions. -/
def templateHeightEach : List Expr → Nat
  | [] => 0
  | e :: es => max (templateHeight e) (templateHeightEach es)
termination_by structural es => es

/-- The greatest bound of several initial values. -/
def templateHeightInits : List (String × Expr) → Nat
  | [] => 0
  | (_, e) :: bs => max (templateHeight e) (templateHeightInits bs)
termination_by structural bs => bs

end

/-- The free variables of a function with these parameters and this body, ascending. Its own
name counts as bound. -/
def freeVariables (params : Params) (own : Option String) (body : Expr) : List String :=
  Names.ofList
    (references (formReferences body.templateHeight) (params.names ++ own.toList) body)

end Expr

end TinyLisp
