import TinyLisp.Proofs.Sequential
import TinyLisp.Proofs.Ending
import TinyLisp.Proofs.Rendering

/-!
# A `let` form is the application of a function

A parallel `let` form evaluates its initial forms, opens a frame for the names and evaluates its body
there. To apply an anonymous function with these names as parameters to the initial forms does more:
the function is made before the arguments are evaluated, and under the strategy of tables it captures
slots of the scope at that moment; a call then puts a frame with these slots between the parameters
and the scope. Nothing of this can be seen. The two end alike, whatever the initial forms bind in the
meantime and whatever the body makes that keeps its scope (`Engine.let_is_application`).

The body of the function is one that the other run does not keep. It is noted in the correspondence of
the two runs as an expression without a partner. The captured slots were there from the outset, so
that the frame in between is a veil.
-/

namespace TinyLisp

open Correspondence

/-! ## §1. The two forms -/

/-- A form binds names to the values of initial forms around a body. -/
def Value.IsLet (form : Value) (bs : List (String × Value)) (body : List Value) : Prop :=
  ∃ bindings items,
    form.elements? = some (.symbol (Keyword.letIn .parallel).name :: bindings :: body) ∧
      bindings.elements? = some items ∧
        items.map Value.elements? = bs.map fun b => some [.symbol b.1, b.2]

/-- A form applies an anonymous function with such a body to the initial forms. -/
def Value.IsApplication (form : Value) (bs : List (String × Value)) (body : List Value) : Prop :=
  ∃ function params, form.elements? = some (function :: bs.map Prod.snd) ∧
    function.elements? = some (.symbol Keyword.lambda.name :: params :: body) ∧
      params.elements? = some (bs.map fun b => .symbol b.1)

namespace Params

/-- Distinct names, none of which is the marker, spell fixed parameters. -/
theorem ofNames_of_nodup {names : List String} (hnodup : names.Nodup) (hmark : restMark ∉ names) :
    ofNames names = .ok ⟨names, none⟩ := by
  have hnames : (Params.mk names none).names = names := List.append_nil names
  refine ofNames_eq_ok_iff.2 ⟨List.append_nil names, ?_, ?_⟩
  · rwa [hnames]
  · rwa [hnames]

end Params

namespace Expr

variable {bs : List (String × Value)} {es : List Expr} {form : Value} {body : List Value} {e : Expr}

theorem exists_buildEach {vs : List Value} (h : ∀ v ∈ vs, ∃ e, build v = .ok e) :
    ∃ es, buildEach build vs = .ok es ∧ es.length = vs.length := by
  induction vs with
  | nil => exact ⟨[], rfl, rfl⟩
  | cons v vs ih =>
    obtain ⟨e, he⟩ := h v (by simp)
    obtain ⟨es, hes, hlength⟩ := ih fun u hu => h u (List.mem_cons_of_mem v hu)
    refine ⟨e :: es, ?_, congrArg (· + 1) hlength⟩
    unfold buildEach
    rw [he, hes]

/-- A body is built the same in every form. -/
theorem exists_buildBody (hne : body ≠ []) (h : ∀ v ∈ body, ∃ e, build v = .ok e) :
    ∃ e, ∀ name, buildBody build name body = .ok e := by
  match body with
  | [] => exact absurd rfl hne
  | [v] =>
    obtain ⟨e, he⟩ := h v (by simp)
    exact ⟨e, fun _ => he⟩
  | v :: u :: vs =>
    obtain ⟨es, hes, -⟩ := exists_buildEach h
    refine ⟨.sequence es, fun _ => ?_⟩
    show (buildEach build (v :: u :: vs)).map Expr.sequence = _
    rw [hes]
    rfl

theorem buildBindings_of_each {items : List Value}
    (hitems : items.map Value.elements? = bs.map fun b => some [.symbol b.1, b.2])
    (hes : buildEach build (bs.map Prod.snd) = .ok es) (name : String) :
    buildBindings build name items = .ok ((bs.map Prod.fst).zip es) := by
  induction bs generalizing items es with
  | nil =>
    obtain rfl : items = [] := List.map_eq_nil_iff.1 hitems
    rfl
  | cons b bs ih =>
    obtain ⟨item, items', rfl, hitem, hitems'⟩ := List.map_eq_cons_iff.1 hitems
    rw [List.map_cons] at hes
    unfold buildEach at hes
    cases he : build b.2 with
    | error fault => simp [he] at hes
    | ok e =>
      cases hrest : buildEach build (bs.map Prod.snd) with
      | error fault => simp [he, hrest] at hes
      | ok es' =>
        simp only [he, hrest] at hes
        cases hes
        have hbinding : buildBinding build name item = .ok (b.1, e) := by
          unfold buildBinding
          rw [hitem]
          simp only [he]
          rfl
        unfold buildBindings
        rw [hbinding, ih hitems' hrest]
        rfl

theorem build_of_isLet (h : form.IsLet bs body)
    (hes : buildEach build (bs.map Prod.snd) = .ok es) (hne : body ≠ [])
    (he : ∀ name, buildBody build name body = .ok e) :
    build form = .ok (.letIn .parallel ((bs.map Prod.fst).zip es) e) := by
  obtain ⟨bindings, items, hform, hbindings, hitems⟩ := h
  obtain ⟨v, vs, rfl⟩ := List.exists_cons_of_ne_nil hne
  rw [build_of_keyword (.letIn .parallel) hform]
  show buildLet build .parallel (bindings :: v :: vs) = _
  unfold buildLet
  simp only [hbindings, buildBindings_of_each hitems hes, he]
  rfl

theorem build_of_isApplication (h : form.IsApplication bs body)
    (hnodup : (bs.map Prod.fst).Nodup) (hmark : restMark ∉ bs.map Prod.fst)
    (hes : buildEach build (bs.map Prod.snd) = .ok es) (hne : body ≠ [])
    (he : ∀ name, buildBody build name body = .ok e) :
    build form = .ok (.call (.lambda none ⟨bs.map Prod.fst, none⟩ e) es (bs.map Prod.snd)) := by
  obtain ⟨function, params, hform, hfunction, hparams⟩ := h
  obtain ⟨v, vs, rfl⟩ := List.exists_cons_of_ne_nil hne
  have hnames : buildParams "lambda" params = .ok ⟨bs.map Prod.fst, none⟩ := by
    have hsymbols : (bs.map fun b => Value.symbol b.1) = (bs.map Prod.fst).map .symbol := by
      rw [List.map_map]
      rfl
    unfold buildParams
    rw [hparams, hsymbols]
    show (paramNames "lambda" _ >>= fun names => _) = _
    rw [paramNames_symbols]
    show (Params.ofNames _).mapError _ = _
    rw [Params.ofNames_of_nodup hnodup hmark]
    rfl
  have hlambda : build function = .ok (.lambda none ⟨bs.map Prod.fst, none⟩ e) := by
    rw [build_of_keyword .lambda hfunction]
    show (buildParams "lambda" params >>= fun params =>
      buildBody build "lambda" (v :: vs) >>= fun body => pure (lambda none params body)) = _
    rw [hnames, he]
    rfl
  have hcall : build form = buildCall build function (bs.map Prod.snd) := by
    rw [build_of_elements hform]
    unfold buildList
    cases function with
    | symbol name => exact absurd hfunction (by simp [Value.elements?])
    | _ => rfl
  rw [hcall]
  unfold buildCall
  rw [hlambda, hes]
  rfl

end Expr

/-! ## §2. A body without a partner -/

namespace Correspondence

variable {O : Backdrop} {K : Correspondence O} {V : View} {p : Prop} {w w' : World}
variable {scope scope' : Scope}

/-- Notes which expression a body of the run on the left is. -/
def note (K : Correspondence O) (b : Nat) (e : Expr) : Correspondence O :=
  { K with code := fun c x => K.code c x ∨ (c = b ∧ x = e) }

theorem le_note (K : Correspondence O) (b : Nat) (e : Expr) : K.Le (K.note b e) :=
  ⟨fun _ _ h => h, fun _ _ h => h, fun _ _ h => .inl h, .refl _, .refl _⟩

/-- The run on the left keeps a body that the other run does not keep. -/
theorem Worlds.pushLeft (h : K.Worlds w w') (e : Expr) :
    (K.note w.bodies.size e).Worlds { w with bodies := w.bodies.push e } w' := by
  have hK := le_note K w.bodies.size e
  have hst := h.store
  -- what was kept before has its place still
  have hold : ∀ b, b < w.bodies.size →
      (w.bodies.push e).getD b (.literal .nil) = w.bodies.getD b (.literal .nil) := by
    intro b hb
    rw [Array.getD_eq_getD_getElem?, Array.getD_eq_getD_getElem?, Array.getElem?_push_lt hb,
      Array.getElem?_eq_getElem hb]
  have hstores : (K.note w.bodies.size e).Stores w.store w'.store :=
    ⟨hst.frame_lt, hst.frame_eq, hst.slots_size, hst.content_mono hK, hst.left, hst.right,
      hst.backdrop⟩
  refine ⟨hstores, ?_, ?_, ?_, h.nextTag, h.gensym, h.library.mono hK, h.output⟩
  · intro b b' hb
    have hlt := h.body_lt b b' hb
    rw [Array.size_push]
    exact ⟨Nat.lt_succ_of_lt hlt.1, hlt.2⟩
  · intro b b' hb
    rw [hold b (h.body_lt b b' hb).1]
    exact Exprs.mono hK (h.body b b' hb)
  · rintro b x (hb | ⟨rfl, rfl⟩)
    · obtain ⟨hlt, hx⟩ := h.code b x hb
      rw [Array.size_push, hold b hlt]
      exact ⟨Nat.lt_succ_of_lt hlt, hx⟩
    · rw [Array.size_push, Array.getD_eq_getD_getElem?, Array.getElem?_push_size]
      exact ⟨Nat.lt_succ_self _, rfl⟩

/-- A scope that is there stands for itself. -/
theorem active_self {w : World} {hw : w.Grounded} {hO : ∀ f, Backdrop.bare.apart f → _}
    (hs : w.Inside scope) : (self Backdrop.bare w hw hO).Active True View.whole scope scope := by
  obtain ⟨f, rest, rfl⟩ := List.exists_cons_of_ne_nil hs.ne
  have hrest : (self Backdrop.bare w hw hO).Along True View.whole.seen rest rest :=
    along_self fun g hg => hs.lt g (List.mem_cons_of_mem f hg)
  exact .cons (.bare ⟨rfl, hs.lt f (by simp)⟩) hrest (fun _ => .inl) (fun _ hn => hn.elim)
    (.inl View.whole_whole)

end Correspondence

/-! ## §3. The two runs -/

namespace Engine

variable {ctx : Context} {w : World} {scope : Scope}

/-- Makes an anonymous function and applies it. -/
def applyAnonymous (ctx : Context) (params : Params) (body : Expr) (inits : List Expr)
    (scope : Scope) (en : Engine) : Eval Value := do
  let c ← Eval.newClosure ctx.settings.strategy none params body scope
  let vs ← en.evalEach scope inits
  en.applyClosure c vs

theorem deepens_applyAnonymous (params : Params) (body : Expr) (inits : List Expr) (scope : Scope) :
    Deepens ctx (applyAnonymous ctx params body inits scope) :=
  (deepens_const _).bind fun c => (deepens_evalEach scope inits).bind fun vs =>
    deepens_applyClosure c vs

/-- A call of an anonymous function comes to what the function, once made, comes to when it is applied
to the arguments. -/
theorem finishes_anonymous {params : Params} {body : Expr} {inits : List Expr}
    {forms : List Value} {r : EStateM.Result Halt World Value} :
    Finishes ctx (fun en => en.eval (.call (.lambda none params body) inits forms) scope) w r ↔
      Finishes ctx (applyAnonymous ctx params body inits scope) w r := by
  let c : Closure := ⟨w.bodies.size, none, params,
    w.store.captures ctx.settings.strategy scope (Expr.freeVariables params none body), scope⟩
  let w₁ : World := { w with bodies := w.bodies.push body }
  have hlambda : evalEnd ctx (.lambda none params body) scope w = some (.ok (.closure c) w₁) := by
    rw [evalEnd_eq]
    exact atLast_of_const (fun _ => rfl) (by simp)
  have hrest : Deepens ctx fun en => en.evalEach scope inits >>= fun vs => en.applyClosure c vs :=
    (deepens_evalEach scope inits).bind fun vs => deepens_applyClosure c vs
  have hcall : evalEnd ctx (.call (.lambda none params body) inits forms) scope w =
      atLast ctx (applyAnonymous ctx params body inits scope) w := by
    rw [evalEnd_call rfl, hlambda]
    calc
      _ = (eachEnd ctx inits scope w₁).andThen fun vs w₂ =>
          atLast ctx (fun en => en.applyClosure c vs) w₂ :=
        End.andThen_congr fun vs w₂ _ => applyEnd_eq (.closure c) vs w₂
      _ = atLast ctx (fun en => en.evalEach scope inits >>= fun vs => en.applyClosure c vs) w₁ :=
        (atLast_bind (deepens_evalEach scope inits) fun vs => deepens_applyClosure c vs).symm
      _ = atLast ctx (applyAnonymous ctx params body inits scope) w :=
        (atLast_of_run fun en => Eval.bind_of_ok rfl).symm
  rw [← atLast_eq_some (deepens_eval _ scope),
    ← atLast_eq_some (deepens_applyAnonymous params body inits scope)]
  exact Eq.congr hcall rfl

/-- Applied to as many values as it has parameters, a function of the run on the left ends as its body
does in a frame with these values. -/
theorem InStep.applyClosure_left {en : Engine} {K : Correspondence Backdrop.bare}
    (hen : en.InStep Backdrop.bare en) {c : Closure} {names : List String} {body : Expr}
    (hparams : c.params = ⟨names, none⟩) (hcode : K.code c.id body) (hbody : K.Exprs body body)
    (hs : K.Active True View.whole c.scope c.scope) (hcov : K.left.Covers c.scope c.captures)
    {vs vs' : List Value} (h : K.Lists vs vs') (hlength : names.length = vs.length) :
    K.Sim Values (en.applyClosure c vs)
      (Eval.extend c.scope >>= fun inner => Eval.bindAll inner (names.zip vs') >>= fun _ =>
        en.eval body inner) := by
  have hne : c.scope ≠ [] := by
    generalize c.scope = S at hs
    cases hs with
    | cons => simp
  intro w w' hw
  obtain ⟨T, w₁, K₁, hT, hK₁, hw₁, halong, hsuffix⟩ :=
    capturedScope_left hw hne hs.scopes.along hcov
  have hopened : en.applyClosure c vs w =
      (Eval.extend T >>= fun inner => Eval.bindParams c.params vs inner c.label >>= fun _ =>
        Eval.body c.id >>= fun x => en.eval x inner) w₁ := by
    unfold Engine.applyClosure
    rw [callScope_eq, bind_assoc, Eval.bind_of_ok hT]
  have hscopes : K₁.Scopes True View.whole T c.scope := (hs.scopes.mono hK₁).of_suffix hsuffix halong
  have hkeys : (names.zip vs).map Prod.fst = names := List.map_fst_zip (Nat.le_of_eq hlength)
  have hbind (inner : Scope) : Eval.bindParams c.params vs inner c.label =
      Eval.bindAll inner (names.zip vs) := by
    have harity : c.params.arity.contains vs.length = true := by
      rw [hparams]
      exact Arity.contains_exactly.2 hlength.symm
    unfold Eval.bindParams
    rw [Eval.checkArity_of_contains harity, hparams]
    simp
  rw [hopened]
  simp only [hbind]
  refine Ends.since hK₁ ((?_ : K₁.Sim Values _ _) w₁ w' hw₁)
  refine (Sim.extend T c.scope).bind fun K₂ hK₂ S S' hopen => ?_
  have hK := hK₁.trans hK₂
  have hactive := hopen.active (hscopes.mono hK₂)
  refine (Sim.bindAll hactive (zip_like names (Lists.mono hK h))).bind fun K₃ hK₃ _ _ hbound => ?_
  -- only the run on the left has to look the body up
  have hK' := hK.trans hK₃
  intro w₂ w₂' hw₂
  have hlookup : Eval.body c.id w₂ = .ok body w₂ :=
    congrArg (EStateM.Result.ok · w₂) (hw₂.code _ _ (hK'.code _ _ hcode)).2
  rw [Eval.bind_of_ok hlookup]
  exact hen.eval K₃ (Exprs.mono hK' hbody) (.whole (View.whole_whole.adding _)) (.active hbound)
    w₂ w₂' hw₂

/-- At every depth, an anonymous function applied goes with a parallel `let` form. -/
theorem anonymous_ends (hw : w.Grounded) (hs : w.Inside scope) {names : List String}
    {inits : List Expr} {body : Expr} (hinits : ∀ e ∈ inits, e.Every w.Supports)
    (hbody : body.Every w.Supports) (hlength : names.length = inits.length) (n : Nat) :
    (itself w hw).Ends Values
      (applyAnonymous ctx ⟨names, none⟩ body inits scope (ofDepth ctx n) w)
      ((ofDepth ctx n).evalLet scope .parallel (names.zip inits) body w) := by
  let c : Closure := ⟨w.bodies.size, none, ⟨names, none⟩,
    w.store.captures ctx.settings.strategy scope (Expr.freeVariables ⟨names, none⟩ none body), scope⟩
  let K := (itself w hw).note w.bodies.size body
  have hK : (itself w hw).Le K := le_note _ _ _
  have hen : (ofDepth ctx n).InStep Backdrop.bare (ofDepth ctx n) :=
    inStep_ofDepth ⟨rfl, rfl, rfl⟩ n
  have hactive : K.Active True View.whole scope scope := (active_self hs).mono hK
  have heach : List.Forall₂ K.Exprs inits inits :=
    List.forall₂_same.2 fun e he => Exprs.mono hK (.self own_self (hinits e he))
  have hbodies : K.Exprs body body := Exprs.mono hK (.self own_self hbody)
  -- all bindings of the scope are relied on from the outset, those captured among them
  have hcov : K.left.Covers scope c.captures :=
    Side.covers_captures (Side.of w.store) w.store ctx.settings.strategy scope _
  have hleft : applyAnonymous ctx ⟨names, none⟩ body inits scope (ofDepth ctx n) w =
      ((ofDepth ctx n).evalEach scope inits >>= fun vs => (ofDepth ctx n).applyClosure c vs)
        { w with bodies := w.bodies.push body } := Eval.bind_of_ok rfl
  have hright : (ofDepth ctx n).evalLet scope .parallel (names.zip inits) body =
      (ofDepth ctx n).evalEach scope inits >>= fun vs => Eval.extend scope >>= fun inner =>
        Eval.bindAll inner (names.zip vs) >>= fun _ => (ofDepth ctx n).eval body inner := by
    simp only [evalLet, letScope, List.map_fst_zip (Nat.le_of_eq hlength),
      List.map_snd_zip (Nat.le_of_eq hlength.symm), bind_assoc, pure_bind]
  rw [hleft, hright]
  refine Ends.since hK ?_
  have hwhole : ∀ e ∈ inits, e.Covered View.whole := fun _ _ => .whole View.whole_whole
  refine (?_ : K.Sim Values _ _) _ _ ((worlds_itself hw).pushLeft body)
  refine (hen.evalEach heach hwhole (.active hactive)).bind fun K₁ hK₁ vs vs' hvs => ?_
  obtain ⟨hlists, hcount⟩ := hvs
  exact hen.applyClosure_left rfl (hK₁.code _ _ (.inr ⟨rfl, rfl⟩)) (Exprs.mono hK₁ hbodies)
    (hactive.mono hK₁) (hcov.mono hK₁.left) hlists (hlength.trans hcount.symm)

/-! ## §4. The theorem -/

/-- A `let` form is the application of a function. In every world of a session and in every scope
there, under either strategy, let the names that a form binds be distinct, none of them the marker of
the rest parameter, and let the initial forms and the body build. Then the form and the application of
an anonymous function with the same body to the initial forms both build, and they end alike: with
values that are alike up to frames and bodies, or with the same failure, with the same text written,
and with the same bindings in what was there before. -/
theorem let_is_application (h : w.Arises ctx) (hs : w.Inside scope) {form call : Value}
    {bs : List (String × Value)} {body : List Value} (hform : form.IsLet bs body)
    (hcall : call.IsApplication bs body) (hnodup : (bs.map Prod.fst).Nodup)
    (hmark : restMark ∉ bs.map Prod.fst) (hinits : ∀ b ∈ bs, ∃ e, Expr.build b.2 = .ok e)
    (hne : body ≠ []) (hbody : ∀ v ∈ body, ∃ e, Expr.build v = .ok e)
    (hsupports : form.Every w.Supports) :
    ∃ e e', Expr.build form = .ok e ∧ Expr.build call = .ok e' ∧
      EndsAs ctx h.grounded scope e' e := by
  obtain ⟨inits, hinits, hlength⟩ : ∃ es, Expr.buildEach Expr.build (bs.map Prod.snd) = .ok es ∧
      es.length = (bs.map Prod.snd).length := by
    refine Expr.exists_buildEach fun v hv => ?_
    obtain ⟨b, hb, rfl⟩ := List.mem_map.1 hv
    exact hinits b hb
  obtain ⟨e, he⟩ := Expr.exists_buildBody hne hbody
  have hlet := Expr.build_of_isLet hform hinits hne he
  have hevery := Expr.build_every (fun _ => World.supports_of_plain) hsupports hlet
  obtain ⟨hbindings, hrest⟩ := Expr.every_letIn.1 hevery
  have hcount : (bs.map Prod.fst).length = inits.length := by
    rw [hlength, List.length_map, List.length_map]
  refine ⟨_, _, hlet, Expr.build_of_isApplication hcall hnodup hmark hinits hne he, ?_⟩
  refine endsAs_of_ends finishes_anonymous finishes_eval fun n => ?_
  refine anonymous_ends h.grounded hs (fun init hinit => ?_) hrest hcount n
  -- every initial expression is the one of some binding
  rw [← List.map_snd_zip (Nat.le_of_eq hcount.symm)] at hinit
  obtain ⟨b, hb, rfl⟩ := List.mem_map.1 hinit
  exact hbindings b hb

/-- In `(let ((x (begin (define y 1) y)) (z 2)) (lambda () x))` an initial form binds a name in the
scope, and the body makes a function. Functions keep tables. -/
theorem let_is_application_define :
    let ctx : Context := ⟨.default, ⟨[], []⟩⟩
    let list := Value.ofList
    let init := list [.symbol "begin", list [.symbol "define", .symbol "y", .int 1], .symbol "y"]
    let body := list [.symbol "lambda", .nil, .symbol "x"]
    let form := list [.symbol "let",
      list [list [.symbol "x", init], list [.symbol "z", .int 2]], body]
    let call := list [list [.symbol "lambda", list [.symbol "x", .symbol "z"], body], init, .int 2]
    ∃ h : Session.primitiveWorld.Arises ctx, ∃ e e', Expr.build form = .ok e ∧
      Expr.build call = .ok e' ∧ EndsAs ctx h.grounded rootScope e' e := by
  intro ctx list init body form call
  have h := arises_primitive ctx
  let bs : List (String × Value) := [("x", init), ("z", .int 2)]
  have hform : form.IsLet bs [body] := ⟨_, _, rfl, rfl, rfl⟩
  have hcall : call.IsApplication bs [body] := ⟨_, _, rfl, rfl, rfl⟩
  have hinits : ∀ b ∈ bs, ∃ e, Expr.build b.2 = .ok e := by
    intro b hb
    rcases List.mem_cons.1 hb with rfl | hb
    · exact ⟨_, rfl⟩
    · obtain rfl := List.mem_singleton.1 hb
      exact ⟨_, rfl⟩
  have hbody : ∀ v ∈ [body], ∃ e, Expr.build v = .ok e := by
    intro v hv
    obtain rfl := List.mem_singleton.1 hv
    exact ⟨_, rfl⟩
  have hsupports : form.Every Session.primitiveWorld.Supports := by
    simp [form, body, init, list, Value.ofList, Value.chain, World.Supports]
  exact ⟨h, let_is_application h (inside_root h.grounded) hform hcall (by decide) (by decide) hinits
    (by simp) hbody hsupports⟩

end Engine

end TinyLisp
