import TinyLisp.Expr.Basic

/-!
# From expressions back to data

`Expr.toForm` writes an expression as a datum that builds to it again. Sugar comes back in one
spelling: a missing last part of a conditional as `()`, `setq` as `define`, a body of several
forms without its `begin`.

In the place of a body a sequence stands for its parts, so every expression has two renderings:
as a single form, and as the forms of a body.
-/

namespace TinyLisp

namespace Expr

/-- An expression as a single form and as the forms of a body. -/
structure Rendering where
  form : Value
  body : List Value

/-- A form that is a body of its own. -/
def Rendering.single (v : Value) : Rendering := ⟨v, [v]⟩

/-- A special form, by its keyword and its parts. -/
def special (keyword : String) (parts : List Value) : Value :=
  Value.ofList (.symbol keyword :: parts)

/-- A parameter list as data. -/
def paramsForm (p : Params) : Value :=
  Value.ofList (p.toNames.map .symbol)

/-- The parts of an import. -/
def importParts : ImportTarget → ImportSpec → List Value
  | target, spec =>
    (match target with
      | .name s => Value.symbol s
      | .path p => Value.string p) ::
    (match spec with
      | .all => []
      | .only names => [Value.ofList (names.map .symbol)]
      | .renamed name => [.symbol ":as", .symbol name])

mutual

/-- Both renderings of an expression. -/
def render : Expr → Rendering
  | literal v => .single v
  | var s => .single (.symbol s)
  | ite c t e => .single (special "if" [(render c).form, (render t).form, (render e).form])
  | and es => .single (special "and" (renderEach es))
  | or es => .single (special "or" (renderEach es))
  | sequence es =>
    let parts := renderEach es
    let whole := special "begin" parts
    ⟨whole, if parts.isEmpty then [whole] else parts⟩
  | call f _ forms => .single (Value.ofList ((render f).form :: forms))
  | deferred f _ forms => .single (Value.ofList ((render f).form :: forms))
  | letIn kind bs body =>
    .single (special kind.keyword (Value.ofList (renderBindings bs) :: (render body).body))
  | lambda _ params body => .single (special "lambda" (paramsForm params :: (render body).body))
  | define name e => .single (special "define" [.symbol name, (render e).form])
  | definition kind name params body =>
    .single (special kind.keyword (.symbol name :: paramsForm params :: (render body).body))
  | module name exports body =>
    .single (special "module"
      (.symbol name :: special "export" (exports.map .symbol) :: renderEach body))
  | importFrom target spec => .single (special "import" (importParts target spec))
  | macroexpand form => .single (special "macroexpand" [form])
termination_by structural e => e

/-- The forms of several expressions. -/
def renderEach : List Expr → List Value
  | [] => []
  | e :: es => (render e).form :: renderEach es
termination_by structural es => es

/-- The bindings of a `let` form, each a list of a name and a form. -/
def renderBindings : List (String × Expr) → List Value
  | [] => []
  | (name, e) :: bs => Value.ofList [.symbol name, (render e).form] :: renderBindings bs
termination_by structural bs => bs

end

/-- The datum that an expression is written as. -/
def toForm (e : Expr) : Value :=
  (render e).form

end Expr

end TinyLisp
