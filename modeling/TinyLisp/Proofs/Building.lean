import TinyLisp.Expr.Build

/-!
# What holds of everything that is built

A property of expressions holds of all that is built if each form keeps it: if a form has it
whenever its parts do (`Expr.Composes`), and the expressions without parts have it
(`Expr.BuildRule`). The data that are built may be assumed to be good, in any sense in which the
parts of good data are good.
-/

namespace TinyLisp

/-! ## §1. What a result holds -/

section

variable {ε α β : Type} {P : α → Prop} {Q : β → Prop}

/-- If a result is not a fault, it has a property. -/
def Yields (P : α → Prop) (x : Except ε α) : Prop :=
  ∀ a, x = .ok a → P a

theorem yields_ok {a : α} (h : P a) : Yields P (.ok a : Except ε α) := by
  intro b hb
  cases hb
  exact h

theorem yields_error (e : ε) : Yields P (.error e : Except ε α) := by
  intro a ha
  cases ha

theorem yields_true (x : Except ε α) : Yields (fun _ => True) x :=
  fun _ _ => trivial

theorem Yields.bind {x : Except ε α} {k : α → Except ε β} (hx : Yields P x)
    (hk : ∀ a, P a → Yields Q (k a)) : Yields Q (x >>= k) := by
  cases x with
  | error e => exact yields_error e
  | ok a => exact hk a (hx a rfl)

theorem Yields.map {x : Except ε α} {f : α → β} (hx : Yields P x)
    (hf : ∀ a, P a → Q (f a)) : Yields Q (x.map f) := by
  cases x with
  | error e => exact yields_error e
  | ok a => exact yields_ok (hf a (hx a rfl))

end

namespace Expr

/-! ## §2. One layer -/

/-- A list is built by its first element and the others, whatever its pairs are tagged with. -/
theorem build_of_elements {form head : Value} {args : List Value}
    (h : form.elements? = some (head :: args)) : build form = buildList build head args := by
  cases form with
  | pair cell a d =>
    obtain ⟨rest, hrest, hcons⟩ := Option.map_eq_some_iff.1 h
    obtain ⟨rfl, rfl⟩ := List.cons.inj hcons
    rw [build_eq]
    unfold buildStep
    simp only [hrest]
  | _ => exact absurd h (by simp [Value.elements?])

/-- If it begins with a keyword, it is built as the special form. -/
theorem build_of_keyword {form : Value} {args : List Value} (k : Keyword)
    (h : form.elements? = some (.symbol k.name :: args)) :
    build form = buildSpecial build args k := by
  rw [build_of_elements h]
  unfold buildList
  simp only [Keyword.ofName?_name]

/-- A parameter list that names spell. -/
def Spelled (params : Params) : Prop :=
  ∃ names, Params.ofNames names = .ok params

/-- Each form has the property `Q` if its parts have the property `P`. -/
structure Composes (P Q : Expr → Prop) : Prop where
  /-- What stands for the part that a conditional lacks. -/
  missing : P (literal .nil)
  /-- A body of several forms. -/
  body : ∀ {es}, (∀ e ∈ es, P e) → P (sequence es)
  ite : ∀ {c t e}, P c → P t → P e → Q (ite c t e)
  and : ∀ {es}, (∀ e ∈ es, P e) → Q (and es)
  or : ∀ {es}, (∀ e ∈ es, P e) → Q (or es)
  sequence : ∀ {es}, (∀ e ∈ es, P e) → Q (sequence es)
  letIn : ∀ {kind bs body}, (∀ b ∈ bs, P b.2) → P body → Q (letIn kind bs body)
  lambda : ∀ {params body}, Spelled params → P body → Q (lambda none params body)
  define : ∀ {name e}, P e → Q (define name e)
  definition : ∀ {kind name params body}, Spelled params → P body →
    Q (definition kind name params body)
  module : ∀ {name exports es}, (∀ e ∈ es, P e) → Q (module name exports es)
  importFrom : ∀ target spec, Q (importFrom target spec)

/-- Forms that keep data as they are have the property `Q` if the data are good. -/
structure Quotes (G : Value → Prop) (Q : Expr → Prop) : Prop where
  quote : ∀ {v}, G v → Q (literal (.quote v))
  quasiquote : ∀ {v}, G v → Q (literal (.quasiquote v))
  unquote : ∀ {v}, G v → Q (literal (.unquote v))
  unquoteSplicing : ∀ {v}, G v → Q (literal (.unquoteSplicing v))
  macroexpand : ∀ {v}, G v → Q (macroexpand v)

/-- The elements of good data are good. -/
def Descends (G : Value → Prop) : Prop :=
  ∀ {v : Value} {items : List Value}, G v → v.elements? = some items → ∀ w ∈ items, G w

section

variable {P Q : Expr → Prop} {G : Value → Prop} {sub : Builder} {v : Value} {vs : List Value}

theorem buildEach_yields (hsub : ∀ v ∈ vs, Yields P (sub v)) :
    Yields (fun es => ∀ e ∈ es, P e) (buildEach sub vs) := by
  induction vs with
  | nil => exact yields_ok (by simp)
  | cons v vs ih =>
    rw [List.forall_mem_cons] at hsub
    unfold buildEach
    cases hx : sub v with
    | error e => exact yields_error e
    | ok x =>
      cases hxs : buildEach sub vs with
      | error e => exact yields_error e
      | ok xs => exact yields_ok (List.forall_mem_cons.2 ⟨hsub.1 x hx, ih hsub.2 xs hxs⟩)

theorem buildParams_yields (form : String) (v : Value) :
    Yields Spelled (buildParams form v) := by
  unfold buildParams
  cases v.elements? with
  | none => exact yields_error _
  | some items =>
    refine (yields_true _).bind fun names _ => ?_
    cases hp : Params.ofNames names with
    | error e => exact yields_error _
    | ok params => exact yields_ok ⟨names, hp⟩

section

variable (h : Composes P Q) (hsub : ∀ {v}, G v → Yields P (sub v))

include hsub

theorem buildBindings_yields (hG : Descends G) (form : String) (hvs : ∀ v ∈ vs, G v) :
    Yields (fun bs => ∀ b ∈ bs, P b.2) (buildBindings sub form vs) := by
  induction vs with
  | nil => exact yields_ok (by simp)
  | cons v vs ih =>
    rw [List.forall_mem_cons] at hvs
    have hv : Yields (fun b => P b.2) (buildBinding sub form v) := by
      unfold buildBinding
      split
      · next name init hi => exact (hsub (hG hvs.1 hi init (by simp))).map fun e he => he
      · exact yields_error _
    unfold buildBindings
    cases hb : buildBinding sub form v with
    | error e => exact yields_error e
    | ok b =>
      cases hbs : buildBindings sub form vs with
      | error e => exact yields_error e
      | ok bs => exact yields_ok (List.forall_mem_cons.2 ⟨hv b hb, ih hvs.2 bs hbs⟩)

include h

theorem buildBody_yields (form : String) (hvs : ∀ v ∈ vs, G v) :
    Yields P (buildBody sub form vs) := by
  match vs with
  | [] => exact yields_error _
  | [v] => exact hsub (hvs v (by simp))
  | v :: w :: vs => exact (buildEach_yields fun u hu => hsub (hvs u hu)).map fun es hes => h.body hes

theorem buildIte_yields (hvs : ∀ v ∈ vs, G v) : Yields Q (buildIte sub vs) := by
  match vs with
  | [] => exact yields_error _
  | [_] => exact yields_error _
  | [c, t] =>
    refine (hsub (hvs c (by simp))).bind fun c hc => ?_
    refine (hsub (hvs t (by simp))).bind fun t ht => ?_
    exact yields_ok (h.ite hc ht h.missing)
  | [c, t, e] =>
    refine (hsub (hvs e (by simp))).bind fun e he => ?_
    refine (hsub (hvs c (by simp))).bind fun c hc => ?_
    refine (hsub (hvs t (by simp))).bind fun t ht => ?_
    exact yields_ok (h.ite hc ht he)
  | _ :: _ :: _ :: _ :: _ => exact yields_error _

theorem buildLet_yields (hG : Descends G) (kind : LetKind) (hvs : ∀ v ∈ vs, G v) :
    Yields Q (buildLet sub kind vs) := by
  match vs with
  | [] => exact yields_error _
  | [_] => exact yields_error _
  | bindings :: v :: vs =>
    rw [List.forall_mem_cons] at hvs
    simp only [buildLet]
    split
    · exact yields_error _
    · next items hi =>
      refine (buildBindings_yields hsub hG _ (hG hvs.1 hi)).bind fun bs hbs => ?_
      refine (buildBody_yields h hsub _ hvs.2).bind fun body hb => ?_
      exact yields_ok (h.letIn hbs hb)

theorem buildLambda_yields (hvs : ∀ v ∈ vs, G v) : Yields Q (buildLambda sub vs) := by
  match vs with
  | [] => exact yields_error _
  | [_] => exact yields_error _
  | params :: v :: vs =>
    rw [List.forall_mem_cons] at hvs
    refine (buildParams_yields _ params).bind fun params hp => ?_
    refine (buildBody_yields h hsub _ hvs.2).bind fun body hb => ?_
    exact yields_ok (h.lambda hp hb)

theorem buildDefine_yields (form : String) (hvs : ∀ v ∈ vs, G v) :
    Yields Q (buildDefine sub form vs) := by
  match vs with
  | [] => exact yields_error _
  | [_] => exact yields_error _
  | [name, v] =>
    refine (yields_true _).bind fun name _ => ?_
    refine (hsub (hvs v (by simp))).bind fun e he => ?_
    exact yields_ok (h.define he)
  | _ :: _ :: _ :: _ => exact yields_error _

theorem buildDefinition_yields (kind : DefinitionKind) (hvs : ∀ v ∈ vs, G v) :
    Yields Q (buildDefinition sub kind vs) := by
  match vs with
  | [] => exact yields_error _
  | [_] => exact yields_error _
  | [_, _] => exact yields_error _
  | name :: params :: v :: vs =>
    rw [List.forall_mem_cons, List.forall_mem_cons] at hvs
    refine (yields_true _).bind fun name _ => ?_
    refine (buildParams_yields _ params).bind fun params hp => ?_
    refine (buildBody_yields h hsub _ hvs.2.2).bind fun body hb => ?_
    exact yields_ok (h.definition hp hb)

theorem buildModule_yields (hvs : ∀ v ∈ vs, G v) : Yields Q (buildModule sub vs) := by
  match vs with
  | [] => exact yields_error _
  | [_] => exact yields_error _
  | name :: exports :: forms =>
    rw [List.forall_mem_cons, List.forall_mem_cons] at hvs
    refine (yields_true _).bind fun name _ => ?_
    refine (yields_true _).bind fun exports _ => ?_
    refine (buildEach_yields fun v hv => hsub (hvs.2.2 v hv)).bind fun body hb => ?_
    exact yields_ok (h.module hb)

omit hsub in
theorem buildImport_yields : Yields Q (buildImport vs) := by
  unfold buildImport
  split
  · exact (yields_true _).map fun spec _ => h.importFrom _ spec
  · exact (yields_true _).map fun spec _ => h.importFrom _ spec
  · exact yields_error _

omit h hsub in
theorem buildWrapper_yields (k : Keyword) {wrap : Value → Value}
    (hwrap : ∀ {v}, G v → Q (literal (wrap v))) (hvs : ∀ v ∈ vs, G v) :
    Yields Q (buildWrapper k wrap vs) := by
  match vs with
  | [] => exact yields_error _
  | [v] => exact yields_ok (hwrap (hvs v (by simp)))
  | _ :: _ :: _ => exact yields_error _

theorem buildSpecial_yields (hG : Descends G) (hquotes : Quotes G Q) (hvs : ∀ v ∈ vs, G v)
    (k : Keyword) : Yields Q (buildSpecial sub vs k) := by
  have each : Yields (fun es => ∀ e ∈ es, P e) (buildEach sub vs) :=
    buildEach_yields fun v hv => hsub (hvs v hv)
  cases k with
  | quote => exact buildWrapper_yields _ hquotes.quote hvs
  | quasiquote => exact buildWrapper_yields _ hquotes.quasiquote hvs
  | unquote => exact buildWrapper_yields _ hquotes.unquote hvs
  | unquoteSplicing => exact buildWrapper_yields _ hquotes.unquoteSplicing hvs
  | ite => exact buildIte_yields h hsub hvs
  | and => exact each.map fun es hes => h.and hes
  | or => exact each.map fun es hes => h.or hes
  | sequence => exact each.map fun es hes => h.sequence hes
  | lambda => exact buildLambda_yields h hsub hvs
  | letIn kind => exact buildLet_yields h hsub hG kind hvs
  | define => exact buildDefine_yields h hsub "define" hvs
  | setq => exact buildDefine_yields h hsub "setq" hvs
  | definition kind => exact buildDefinition_yields h hsub kind hvs
  | module => exact buildModule_yields h hsub hvs
  | importFrom => exact buildImport_yields h
  | macroexpand =>
    -- one form exactly, since anything else is malformed
    match vs with
    | [] => exact yields_error _
    | [form] => exact yields_ok (hquotes.macroexpand (hvs form (by simp)))
    | _ :: _ :: _ => exact yields_error _

end

end

/-! ## §3. All layers -/

/-- A form that can be called: anything but a keyword. -/
def CanHead (v : Value) : Prop :=
  ∀ s, v = .symbol s → Keyword.ofName? s = none

/-- What makes a property hold of everything that is built of good data. -/
structure BuildRule (G : Value → Prop) (P : Expr → Prop) : Prop where
  descends : Descends G
  pair : ∀ {cell a d}, G (.pair cell a d) → G a ∧ G d
  composes : Composes P P
  quotes : Quotes G P
  var : ∀ s, P (var s)
  literal : ∀ {v}, G v → (∀ s, v ≠ .symbol s) → (∀ cell a d, v ≠ .pair cell a d) → P (literal v)
  call : ∀ {head forms f args}, CanHead head → build head = .ok f → P f → (∀ v ∈ forms, G v) →
    buildAll forms = .ok args → (∀ e ∈ args, P e) → P (call f args forms)
  deferred : ∀ {head forms f fault}, CanHead head → build head = .ok f → P f →
    (∀ v ∈ forms, G v) → buildAll forms = .error fault → P (deferred f fault forms)

section

variable {G : Value → Prop} {P : Expr → Prop}

theorem buildCall_yields (h : BuildRule G P) {head : Value} {forms : List Value}
    (hcan : CanHead head) (hforms : ∀ v ∈ forms, G v)
    (hsub : ∀ v ∈ head :: forms, Yields P (build v)) : Yields P (buildCall build head forms) := by
  rw [List.forall_mem_cons] at hsub
  intro e he
  unfold buildCall at he
  cases hf : build head with
  | error fault =>
    rw [hf] at he
    cases he
  | ok f =>
    rw [hf] at he
    cases he
    cases hargs : buildEach build forms with
    | ok args =>
      exact h.call hcan hf (hsub.1 f hf) hforms hargs (buildEach_yields hsub.2 args hargs)
    | error fault => exact h.deferred hcan hf (hsub.1 f hf) hforms hargs

/-- What is built of good data has the property. The induction is on the height of the datum, of
which every part has a smaller one. -/
theorem build_yields (h : BuildRule G P) {v : Value} (hv : G v) : Yields P (build v) := by
  induction hn : v.height using Nat.strongRecOn generalizing v with
  | ind n ih =>
    subst hn
    have hlower : ∀ {w : Value}, G w ∧ w.height < v.height → Yields P (build w) :=
      fun hw => ih _ hw.2 hw.1 rfl
    rw [build_eq]
    unfold buildStep
    split
    · exact yields_ok (h.var _)
    · next cell a d =>
      obtain ⟨ha, hd⟩ := h.pair hv
      split
      · exact yields_error _
      · next args hargs =>
        have hhead : a.height < (Value.pair cell a d).height := by
          simp only [Value.height]
          omega
        have heach : ∀ w ∈ args, G w ∧ w.height < (Value.pair cell a d).height := by
          intro w hw
          have hlt := height_le_of_elements? hargs hw
          refine ⟨h.descends hd hargs w hw, ?_⟩
          simp only [Value.height]
          omega
        have hcall (hcan : CanHead a) : Yields P (buildCall build a args) := by
          refine buildCall_yields h hcan (fun w hw => (heach w hw).1) fun w hw => ?_
          rcases List.mem_cons.1 hw with rfl | hw
          · exact hlower ⟨ha, hhead⟩
          · exact hlower (heach w hw)
        have hdescends : Descends fun w => G w ∧ w.height < (Value.pair cell a d).height := by
          intro w items hw hitems u hu
          have hlt := height_le_of_elements? hitems hu
          exact ⟨h.descends hw.1 hitems u hu, by omega⟩
        have hquotes : Quotes (fun w => G w ∧ w.height < (Value.pair cell a d).height) P :=
          ⟨fun hw => h.quotes.quote hw.1, fun hw => h.quotes.quasiquote hw.1,
            fun hw => h.quotes.unquote hw.1, fun hw => h.quotes.unquoteSplicing hw.1,
            fun hw => h.quotes.macroexpand hw.1⟩
        unfold buildList
        split
        · next s =>
          split
          · exact buildSpecial_yields h.composes hlower hdescends hquotes heach _
          · next hnone =>
            refine hcall fun s' hs' => ?_
            cases hs'
            exact hnone
        · next hsymbol => exact hcall fun s hs => absurd hs (hsymbol s)
    · next hsymbol hpair => exact yields_ok (h.literal hv hsymbol hpair)

end

end Expr

end TinyLisp
