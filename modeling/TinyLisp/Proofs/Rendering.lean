import TinyLisp.Proofs.Building
import TinyLisp.Expr.Form

/-!
# Writing an expression and building it again

What was built of a datum can be written as a datum that builds again (`Expr.build_toForm`). It
builds to the same expression, but for one thing: a sequence of one part that is the body of a
function, of a `let` form or of a definition is not told from its part (`Expr.compact`). The
argument forms of a call are not looked into, so they come back as they were, built or not.

The proof is by the rule of what is built: each form is built again of the renderings of its parts.
The one thing to see to is that a callee is never rendered as a keyword.
-/

namespace TinyLisp

/-! ## §1. Parameters -/

namespace Params

/-- A parameter list is spelled by the names that it was made from. -/
theorem toNames_of_ofNames {names : List String} {p : Params} (h : ofNames names = .ok p) :
    p.toNames = names :=
  (ofNames_eq_ok_iff.1 h).1

end Params

namespace Expr

theorem Spelled.ofNames {p : Params} (h : Spelled p) : Params.ofNames p.toNames = .ok p := by
  obtain ⟨names, hp⟩ := h
  rw [Params.toNames_of_ofNames hp]
  exact hp

theorem paramNames_symbols (form : String) (names : List String) :
    paramNames form (names.map .symbol) = .ok names := by
  induction names with
  | nil => rfl
  | cons name names ih =>
    show (paramNames form (names.map .symbol)).map (name :: ·) = _
    rw [ih]
    rfl

theorem namesIn_symbols (form : String) (names : List String) :
    namesIn form (names.map .symbol) = .ok names := by
  induction names with
  | nil => rfl
  | cons name names ih =>
    show (namesIn form (names.map .symbol) >>= fun xs => pure (name :: xs)) = _
    rw [ih]
    rfl

theorem buildParams_paramsForm (form : String) {p : Params} (hp : Spelled p) :
    buildParams form (paramsForm p) = .ok p := by
  unfold buildParams paramsForm
  rw [Value.elements?_ofList]
  show (paramNames form _ >>= fun names => _) = _
  rw [paramNames_symbols]
  show (Params.ofNames p.toNames).mapError _ = _
  rw [hp.ofNames]
  rfl

/-! ## §2. Expressions without bodies of one part -/

/-- The part of a sequence that has no other. -/
def sole : Expr → Expr
  | sequence [e] => e
  | e => e

mutual

/-- An expression with the part in its place of each sequence of one part that is a body. What is
a call keeps its argument forms, and what they were built to. -/
def compact : Expr → Expr
  | literal v => literal v
  | var s => var s
  | ite c t e => ite (compact c) (compact t) (compact e)
  | and es => and (compactEach es)
  | or es => or (compactEach es)
  | sequence es => sequence (compactEach es)
  | call f args forms => call (compact f) args forms
  | deferred f fault forms => deferred (compact f) fault forms
  | letIn kind bs body => letIn kind (compactBindings bs) (compact body).sole
  | lambda name params body => lambda name params (compact body).sole
  | define name e => define name (compact e)
  | definition kind name params body => definition kind name params (compact body).sole
  | module name exports body => module name exports (compactEach body)
  | importFrom target spec => importFrom target spec
  | macroexpand form => macroexpand form
termination_by structural e => e

/-- Several expressions, each without bodies of one part. -/
def compactEach : List Expr → List Expr
  | [] => []
  | e :: es => compact e :: compactEach es
termination_by structural es => es

/-- The bindings of a `let` form, their expressions without bodies of one part. -/
def compactBindings : List (String × Expr) → List (String × Expr)
  | [] => []
  | (name, e) :: bs => (name, compact e) :: compactBindings bs
termination_by structural bs => bs

end

/-! ## §3. Forms built of renderings -/

/-- Whether an expression is built again, up to bodies of one part, of what it is written as. -/
def Returns (e : Expr) : Prop :=
  build e.toForm = .ok e.compact

theorem build_list (head : Value) (forms : List Value) :
    build (Value.ofList (head :: forms)) = buildList build head forms :=
  build_of_elements (Value.elements?_ofList _)

/-- A list that begins with a keyword is built as its special form. -/
theorem build_special (k : Keyword) (parts : List Value) :
    build (special k.name parts) = buildSpecial build parts k :=
  build_of_keyword k (Value.elements?_ofList _)

/-- Any other list is built as a call. -/
theorem build_ofList {head : Value} (h : CanHead head) (forms : List Value) :
    build (Value.ofList (head :: forms)) = buildCall build head forms := by
  rw [build_list]
  unfold buildList
  split
  · next s => rw [h s rfl]
  · rfl

variable {es : List Expr} {e : Expr}

theorem buildEach_renderEach (h : ∀ e ∈ es, Returns e) :
    buildEach build (renderEach es) = .ok (compactEach es) := by
  induction es with
  | nil => rfl
  | cons e es ih =>
    rw [List.forall_mem_cons] at h
    have he : build (render e).form = .ok e.compact := h.1
    simp only [renderEach, compactEach, buildEach, he, ih h.2]

theorem buildBindings_renderBindings (form : String) {bs : List (String × Expr)}
    (h : ∀ b ∈ bs, Returns b.2) :
    buildBindings build form (renderBindings bs) = .ok (compactBindings bs) := by
  induction bs with
  | nil => rfl
  | cons b bs ih =>
    obtain ⟨name, e⟩ := b
    rw [List.forall_mem_cons] at h
    have he : build (render e).form = .ok e.compact := h.1
    have hb : buildBinding build form (Value.ofList [.symbol name, (render e).form]) =
        .ok (name, e.compact) := by
      unfold buildBinding
      rw [Value.elements?_ofList]
      show (build (render e).form).map _ = _
      rw [he]
      rfl
    simp only [renderBindings, compactBindings, buildBindings, hb, ih h.2]

theorem returns_sequence (h : ∀ e ∈ es, Returns e) : Returns (sequence es) := by
  show build (special Keyword.sequence.name (renderEach es)) = _
  rw [build_special]
  show (buildEach build (renderEach es)).map sequence = _
  rw [buildEach_renderEach h]
  rfl

/-- The forms of a sequence that is built again are built one by one. -/
theorem buildEach_of_returns (h : Returns (sequence es)) :
    buildEach build (renderEach es) = .ok (compactEach es) := by
  have hspecial : (buildEach build (renderEach es)).map sequence =
      .ok (sequence (compactEach es)) := (build_special .sequence _).symm.trans h
  cases hes : buildEach build (renderEach es) with
  | error fault =>
    rw [hes] at hspecial
    cases hspecial
  | ok xs =>
    rw [hes] at hspecial
    cases hspecial
    rfl

/-- A body is built of the forms that it is written as. -/
theorem buildBody_render (form : String) (h : Returns e) :
    buildBody build form (render e).body = .ok e.compact.sole := by
  have hsingle : buildBody build form [(render e).form] = .ok e.compact := h
  cases e with
  | sequence es =>
    match es with
    | [] => exact hsingle
    | [x] =>
      -- the one form builds to the part, no longer to a sequence
      have hx := buildEach_of_returns h
      simp only [renderEach, buildEach] at hx
      show build (render x).form = .ok x.compact
      cases hb : build (render x).form with
      | error fault =>
        rw [hb] at hx
        cases hx
      | ok y =>
        rw [hb] at hx
        cases hx
        rfl
    | x :: y :: zs =>
      show (buildEach build (renderEach (x :: y :: zs))).map sequence = _
      rw [buildEach_of_returns h]
      rfl
  | _ => exact hsingle

theorem exists_render_body (e : Expr) : ∃ v vs, (render e).body = v :: vs := by
  cases e with
  | sequence es =>
    cases es with
    | nil => exact ⟨_, [], rfl⟩
    | cons e es => exact ⟨_, renderEach es, rfl⟩
  | _ => exact ⟨_, [], rfl⟩

theorem returns_letIn {kind : LetKind} {bs : List (String × Expr)} (hbs : ∀ b ∈ bs, Returns b.2)
    (h : Returns e) : Returns (letIn kind bs e) := by
  have hbody := buildBody_render kind.keyword h
  obtain ⟨v, vs, hvs⟩ := exists_render_body e
  show build (special (Keyword.letIn kind).name
    (Value.ofList (renderBindings bs) :: (render e).body)) = _
  rw [hvs] at hbody ⊢
  rw [build_special]
  simp only [buildSpecial, buildLet, Value.elements?_ofList,
    buildBindings_renderBindings kind.keyword hbs, hbody]
  rfl

theorem returns_lambda {params : Params} (hp : Spelled params) (h : Returns e) :
    Returns (lambda none params e) := by
  have hbody := buildBody_render "lambda" h
  obtain ⟨v, vs, hvs⟩ := exists_render_body e
  show build (special Keyword.lambda.name (paramsForm params :: (render e).body)) = _
  rw [hvs] at hbody ⊢
  rw [build_special]
  simp only [buildSpecial, buildLambda, buildParams_paramsForm "lambda" hp, hbody]
  rfl

theorem returns_definition {kind : DefinitionKind} {name : String} {params : Params}
    (hp : Spelled params) (h : Returns e) : Returns (definition kind name params e) := by
  have hbody := buildBody_render kind.keyword h
  obtain ⟨v, vs, hvs⟩ := exists_render_body e
  show build (special (Keyword.definition kind).name
    (.symbol name :: paramsForm params :: (render e).body)) = _
  rw [hvs] at hbody ⊢
  rw [build_special]
  simp only [buildSpecial, buildDefinition, nameIn, buildParams_paramsForm kind.keyword hp, hbody]
  rfl

theorem returns_module {name : String} {exports : List String} (h : ∀ e ∈ es, Returns e) :
    Returns (module name exports es) := by
  have hexports : buildExports (special "export" (exports.map .symbol)) = .ok exports := by
    unfold buildExports special
    rw [Value.elements?_ofList]
    exact namesIn_symbols "export" exports
  show build (special Keyword.module.name
    (.symbol name :: special "export" (exports.map .symbol) :: renderEach es)) = _
  rw [build_special]
  simp only [buildSpecial, buildModule, nameIn, hexports, buildEach_renderEach h]
  rfl

theorem returns_importFrom (target : ImportTarget) (spec : ImportSpec) :
    Returns (importFrom target spec) := by
  have honly (whole : Value) (names : List String) :
      buildImportSpec whole [Value.ofList (names.map .symbol)] = .ok (.only names) := by
    unfold buildImportSpec
    simp only [Value.elements?_ofList, namesIn_symbols]
    rfl
  show build (special Keyword.importFrom.name (importParts target spec)) = _
  rw [build_special]
  show buildImport (importParts target spec) = .ok (importFrom target spec)
  cases target with
  | name s =>
    cases spec with
    | all => rfl
    | only names => exact congrArg (Except.map (importFrom (.name s))) (honly _ names)
    | renamed name => rfl
  | path p =>
    cases spec with
    | all => rfl
    | only names => exact congrArg (Except.map (importFrom (.path p))) (honly _ names)
    | renamed name => rfl

theorem composes_returns : Composes Returns Returns where
  missing := rfl
  body h := returns_sequence h
  ite {c t e} hc ht he := by
    show build (special Keyword.ite.name [c.toForm, t.toForm, e.toForm]) = _
    rw [build_special]
    simp only [buildSpecial, buildIte]
    rw [show build c.toForm = _ from hc, show build t.toForm = _ from ht,
      show build e.toForm = _ from he]
    rfl
  and {es} h := by
    show build (special Keyword.and.name (renderEach es)) = _
    rw [build_special]
    exact congrArg (Except.map Expr.and) (buildEach_renderEach h)
  or {es} h := by
    show build (special Keyword.or.name (renderEach es)) = _
    rw [build_special]
    exact congrArg (Except.map Expr.or) (buildEach_renderEach h)
  sequence h := returns_sequence h
  letIn hbs h := returns_letIn hbs h
  lambda hp h := returns_lambda hp h
  define {name e} h := by
    show build (special Keyword.define.name [.symbol name, e.toForm]) = _
    rw [build_special]
    simp only [buildSpecial, buildDefine, nameIn]
    rw [show build e.toForm = _ from h]
    rfl
  definition hp h := returns_definition hp h
  module h := returns_module h
  importFrom target spec := returns_importFrom target spec

/-! ## §4. Callees -/

/-- Only a symbol is built to what is written as a symbol. -/
theorem toForm_ne_symbol {v : Value} (hv : ∀ s, v ≠ .symbol s) (h : build v = .ok e) :
    ∀ s, e.toForm ≠ .symbol s := by
  have hcomposes : Composes (fun _ => True) fun e => ∀ s, e.toForm ≠ .symbol s := by
    constructor <;> intros <;> first | trivial | exact fun h => by cases h
  have hquotes : Quotes (fun _ => True) fun e => ∀ s, e.toForm ≠ .symbol s := by
    constructor <;> intros <;> exact fun h => by cases h
  have hcall (head : Value) (forms : List Value) :
      Yields (fun e : Expr => ∀ s, e.toForm ≠ .symbol s) (buildCall build head forms) := by
    refine (yields_true _).map fun f _ s => ?_
    split <;> exact fun h => by cases h
  rw [build_eq] at h
  revert e
  show Yields (fun e : Expr => ∀ s, e.toForm ≠ .symbol s) (buildStep build v)
  unfold buildStep
  split
  · next s => exact absurd rfl (hv s)
  · split
    · exact yields_error _
    · unfold buildList
      split
      · split
        · exact buildSpecial_yields hcomposes (fun _ => yields_true _) (fun _ _ _ _ => trivial)
            hquotes (fun _ _ => trivial) _
        · exact hcall _ _
      · exact hcall _ _
  · exact yields_ok hv

/-- What a callee was built of can be called, and so can what it is written as. -/
theorem canHead_toForm {head : Value} {f : Expr} (hcan : CanHead head) (h : build head = .ok f) :
    CanHead f.toForm := by
  intro s hs
  by_cases hsymbol : ∃ name, head = .symbol name
  · obtain ⟨name, rfl⟩ := hsymbol
    cases h
    exact hcan s hs
  · exact absurd hs (toForm_ne_symbol (fun name hname => hsymbol ⟨name, hname⟩) h s)

/-! ## §5. What is built again -/

theorem buildRule_returns : BuildRule (fun _ => True) Returns where
  descends _ _ _ _ := trivial
  pair _ := ⟨trivial, trivial⟩
  composes := composes_returns
  quotes := ⟨fun _ => rfl, fun _ => rfl, fun _ => rfl, fun _ => rfl, fun _ => rfl⟩
  var _ := rfl
  literal {v} _ hsymbol hpair := by
    show build v = .ok (literal v)
    rw [build_eq]
    unfold buildStep
    split
    · next s => exact absurd rfl (hsymbol s)
    · next cell a d => exact absurd rfl (hpair cell a d)
    · rfl
  call {head forms f args} hcan hhead hf _ hargs _ := by
    show build (Value.ofList (f.toForm :: forms)) = _
    rw [build_ofList (canHead_toForm hcan hhead)]
    unfold buildCall
    rw [show build f.toForm = _ from hf, show buildEach build forms = _ from hargs]
    rfl
  deferred {head forms f fault} hcan hhead hf _ hargs := by
    show build (Value.ofList (f.toForm :: forms)) = _
    rw [build_ofList (canHead_toForm hcan hhead)]
    unfold buildCall
    rw [show build f.toForm = _ from hf, show buildEach build forms = _ from hargs]
    rfl

/-- What a datum is built to is built again of what it is written as, up to bodies of one part. -/
theorem build_toForm {v : Value} {e : Expr} (h : build v = .ok e) :
    build e.toForm = .ok e.compact :=
  build_yields buildRule_returns trivial e h

/-- A function with a body of one part. The argument form of the call in it keeps its own. -/
theorem build_toForm_lambda :
    let form := special "begin" [.symbol "x"]
    let callF := call (var "f") [sequence [var "x"]] [form]
    let params : Params := ⟨["x"], some "y"⟩
    build (special "lambda" [paramsForm params,
        special "begin" [Value.ofList [.symbol "f", form]]]) =
      .ok (lambda none params (sequence [callF])) ∧
    build (lambda none params (sequence [callF])).toForm = .ok (lambda none params callF) := by
  intro form callF params
  have hbuilt : build (special "lambda" [paramsForm params,
      special "begin" [Value.ofList [.symbol "f", form]]]) =
    .ok (lambda none params (sequence [callF])) := by rfl
  exact ⟨hbuilt, build_toForm hbuilt⟩

end Expr

end TinyLisp
