import Mathlib.Logic.Relation
import TinyLisp.Proofs.Filling
import TinyLisp.Proofs.Simulation.References

/-!
# Walking through templates

Two recursions go through a template and count the quasiquotes around them. One fills the holes and
builds new lists on the way; the other looks for the names that a function refers to, visits the
holes, and builds each payload into an expression to be searched in turn.

Filling is written down once more with a record of the payloads it evaluates
(`Value.fillRecorded`). The record is a prefix of the payloads that the search visits, and all of
them if the filling succeeds (`Value.fillRecorded_within`).

The search goes from expressions to templates, from templates to forms and from forms to the
expressions that are built from them (`Visit.Asks`). This comes to an end (`Visit.asks_wellFounded`),
so the search of a form is the only one that satisfies its equation (`Expr.Ties`).
-/

namespace TinyLisp

/-! ## §1. Records -/

/-- A computation with a record of the payloads that it evaluates. -/
def Recorded (α : Type) : Type :=
  World → List Value × EStateM.Result Halt World α

namespace Recorded

variable {α β : Type}

/-- One computation after another; if the first one fails, its record is all. -/
instance : Monad Recorded where
  pure a := fun w => ([], .ok a w)
  bind x k := fun w =>
    match x w with
    | (ps, .ok a w') => (ps ++ (k a w').1, (k a w').2)
    | (ps, .error halt w') => (ps, .error halt w')

/-- A computation that evaluates no payload. -/
def silent (x : Eval α) : Recorded α :=
  fun w => ([], x w)

/-- The evaluation of a payload. -/
def ask (hole : Value → Eval Value) (payload : Value) : Recorded Value :=
  fun w => ([payload], hole payload w)

/-- The computation without its record. -/
def result (x : Recorded α) : Eval α :=
  fun w => (x w).2

theorem bind_of_ok {x : Recorded α} {w w' : World} {ps : List Value} {a : α}
    (h : x w = (ps, .ok a w')) (k : α → Recorded β) :
    (x >>= k) w = (ps ++ (k a w').1, (k a w').2) := by
  show (match x w with
    | (ps, .ok a w') => (ps ++ (k a w').1, (k a w').2)
    | (ps, .error halt w') => (ps, .error halt w')) = _
  rw [h]

theorem bind_of_error {x : Recorded α} {w w' : World} {ps : List Value} {halt : Halt}
    (h : x w = (ps, .error halt w')) (k : α → Recorded β) :
    (x >>= k) w = (ps, .error halt w') := by
  show (match x w with
    | (ps, .ok a w') => (ps ++ (k a w').1, (k a w').2)
    | (ps, .error halt w') => (ps, .error halt w')) = _
  rw [h]

/-- Records do not change what is computed. -/
theorem result_bind (x : Recorded α) (k : α → Recorded β) :
    (x >>= k).result = x.result >>= fun a => (k a).result := by
  funext w
  match hx : x w with
  | (ps, .ok a w') =>
    have hfirst : x.result w = .ok a w' := congrArg Prod.snd hx
    rw [Eval.bind_of_ok hfirst]
    show ((x >>= k) w).2 = (k a w').2
    rw [bind_of_ok hx k]
  | (ps, .error halt w') =>
    have hfirst : x.result w = .error halt w' := congrArg Prod.snd hx
    rw [Eval.bind_of_error hfirst]
    show ((x >>= k) w).2 = .error halt w'
    rw [bind_of_error hx k]

/-- A record is a prefix of some payloads, and all of them if the computation succeeds. -/
def Within (ps : List Value) (x : Recorded α) : Prop :=
  ∀ w, (x w).1 <+: ps ∧ ∀ a w', (x w).2 = .ok a w' → (x w).1 = ps

namespace Within

variable {ps qs : List Value} {x : Recorded α} {k : α → Recorded β}

theorem silent (x : Eval α) : Within [] (silent x) :=
  fun _ => ⟨List.prefix_refl _, fun _ _ _ => rfl⟩

theorem pure (a : α) : Within [] (pure a : Recorded α) :=
  fun _ => ⟨List.prefix_refl _, fun _ _ _ => rfl⟩

theorem ask (hole : Value → Eval Value) (p : Value) : Within [p] (ask hole p) :=
  fun _ => ⟨List.prefix_refl _, fun _ _ _ => rfl⟩

theorem fail (ps : List Value) (e : EvalError) :
    Within ps (Recorded.silent (Eval.fail e : Eval α)) := by
  intro w
  refine ⟨List.prefix_append [] ps, ?_⟩
  intro a w' h
  cases h

theorem bind (hx : Within ps x) (hk : ∀ a, Within qs (k a)) : Within (ps ++ qs) (x >>= k) := by
  intro w
  obtain ⟨hhead, hall⟩ := hx w
  match hrun : x w with
  | (rs, .error halt w') =>
    rw [hrun] at hhead
    rw [bind_of_error hrun k]
    refine ⟨hhead.trans (List.prefix_append _ _), ?_⟩
    intro b w'' h
    cases h
  | (rs, .ok a w') =>
    obtain ⟨hrest, hall'⟩ := hk a w'
    rw [hrun] at hall
    have hrs : rs = ps := hall a w' rfl
    rw [bind_of_ok hrun k, hrs]
    refine ⟨(List.prefix_append_right_inj ps).2 hrest, ?_⟩
    intro b w'' h
    show ps ++ (k a w').1 = ps ++ qs
    rw [hall' b w'' h]

/-- What evaluates no payload may stand behind a computation. -/
theorem map (hx : Within ps x) (hk : ∀ a, Within [] (k a)) : Within ps (x >>= k) := by
  rw [← List.append_nil ps]
  exact hx.bind hk

/-- It may stand in front of one as well. -/
theorem after {y : Eval α} (hk : ∀ a, Within qs (k a)) :
    Within qs (Recorded.silent y >>= k) :=
  (silent y).bind hk

end Within

end Recorded

/-- Fills a template as `Value.fillParts` does, with a record of the payloads. -/
def Value.fillRecorded (hole : Value → Eval Value) :
    Nat → Value → Recorded (List Value × Value)
  | 0, .pair _ (.unquoteSplicing payload) r => do
    let here ← Recorded.silent (← Recorded.ask hole payload).spliced
    let (others, tail) ← r.fillRecorded hole 0
    pure (here ++ others, tail)
  | d, .pair _ a r => do
    let (elements, end_) ← a.fillRecorded hole d
    let here ← Recorded.silent (Eval.newChain end_ elements)
    let (others, tail) ← r.fillRecorded hole d
    pure (here :: others, tail)
  | 0, .unquote payload => do
    pure ([], ← Recorded.ask hole payload)
  | d + 1, .unquote v => do
    let (elements, tail) ← v.fillRecorded hole d
    pure ([], .unquote (← Recorded.silent (Eval.newChain tail elements)))
  | 0, .unquoteSplicing _ => Recorded.silent (Eval.typeError .spliceOutsideList)
  | d + 1, .unquoteSplicing v => do
    let (elements, tail) ← v.fillRecorded hole d
    pure ([], .unquoteSplicing (← Recorded.silent (Eval.newChain tail elements)))
  | d, .quasiquote v => do
    let (elements, tail) ← v.fillRecorded hole (d + 1)
    pure ([], .quasiquote (← Recorded.silent (Eval.newChain tail elements)))
  | d, .quote v => do
    let (elements, tail) ← v.fillRecorded hole d
    pure ([], .quote (← Recorded.silent (Eval.newChain tail elements)))
  | _, v => pure ([], v)

/-- Fills a template at depth zero, with a record of the payloads. -/
def Engine.fillRecorded (en : Engine) (scope : Scope) (t : Value) : Recorded Value := do
  let (elements, tail) ← t.fillRecorded (en.evalForm scope) 0
  Recorded.silent (Eval.newChain tail elements)

namespace Value

variable (hole : Value → Eval Value)

/-- A record does not change what is filled. -/
theorem fillRecorded_result (d : Nat) (t : Value) :
    (t.fillRecorded hole d).result = t.fillParts hole d := by
  induction d, t using Value.fillParts.induct with
  | case1 cell payload r ihr =>
    rw [fillParts.eq_1, fillRecorded.eq_1]
    simp only [Recorded.result_bind, ihr]
    rfl
  | case2 d cell a r hne iha ihr =>
    rw [fillParts.eq_2 hole d cell a r hne, fillRecorded.eq_2 hole d cell a r hne]
    simp only [Recorded.result_bind, iha, ihr]
    rfl
  | case3 payload =>
    simp only [fillParts, fillRecorded, Recorded.result_bind]
    rfl
  | case4 d v ih =>
    simp only [fillParts, fillRecorded, Recorded.result_bind, ih]
    rfl
  | case5 v => rfl
  | case6 d v ih =>
    simp only [fillParts, fillRecorded, Recorded.result_bind, ih]
    rfl
  | case7 d v ih =>
    simp only [fillParts, fillRecorded, Recorded.result_bind, ih]
    rfl
  | case8 d v ih =>
    simp only [fillParts, fillRecorded, Recorded.result_bind, ih]
    rfl
  | case9 d v =>
    rw [fillParts.eq_9 hole d v, fillRecorded.eq_9 hole d v] <;> first | rfl | assumption

variable {hole}

/-- What is put around a filled template needs no payload. -/
theorem wrapped_within {ps : List Value} {x : Recorded (List Value × Value)}
    {wrap : Value → Value} (hx : x.Within ps) :
    Recorded.Within ps (x >>= fun p => Recorded.silent (Eval.newChain p.2 p.1) >>= fun v =>
      (pure ([], wrap v) : Recorded (List Value × Value))) := by
  exact hx.map fun p => .after fun v => .pure _

/-- The record is a prefix of the payloads of the template, from left to right, and all of them if
the template is filled. -/
theorem fillRecorded_within (d : Nat) (t : Value) :
    (t.fillRecorded hole d).Within (t.holes d) := by
  induction d, t using Value.fillParts.induct with
  | case1 cell payload r ihr =>
    rw [fillRecorded.eq_1]
    show Recorded.Within ([payload] ++ r.holes 0) _
    exact (Recorded.Within.ask hole payload).bind fun v => .after fun here =>
      ihr.map fun p => .pure _
  | case2 d cell a r hne iha ihr =>
    rw [fillRecorded.eq_2 hole d cell a r hne, holes.eq_7]
    exact iha.bind fun p => .after fun v => ihr.map fun q => .pure _
  | case3 payload => exact (Recorded.Within.ask hole payload).map fun v => .pure _
  | case4 d v ih => exact wrapped_within ih
  | case5 v => exact .fail _ _
  | case6 d v ih => exact wrapped_within ih
  | case7 d v ih =>
    simp only [fillRecorded, holes]
    exact wrapped_within ih
  | case8 d v ih =>
    simp only [fillRecorded, holes]
    exact wrapped_within ih
  | case9 d v =>
    rw [fillRecorded.eq_9 hole d v, holes.eq_8 d v] <;> first | exact .pure _ | assumption

end Value

/-! ## §2. Visits -/

/-- What the search for references visits: an expression, a template at some depth, or a form that
is still to be built. -/
inductive Visit
  | expr (e : Expr)
  | template (depth : Nat) (t : Value)
  | form (v : Value)

namespace Visit

/-- One visit asks for another. -/
inductive Asks : Visit → Visit → Prop
  | template {t : Value} : Asks (.expr (.literal (.quasiquote t))) (.template 0 t)
  | part {e e' : Expr} (h : e'.PartOf e) (hne : ∀ t, e ≠ .literal (.quasiquote t)) :
    Asks (.expr e) (.expr e')
  | payload {v : Value} : Asks (.template 0 (.unquote v)) (.form v)
  | unquote {d : Nat} {v : Value} : Asks (.template (d + 1) (.unquote v)) (.template d v)
  | splice {v : Value} : Asks (.template 0 (.unquoteSplicing v)) (.form v)
  | unquoteSplicing {d : Nat} {v : Value} :
    Asks (.template (d + 1) (.unquoteSplicing v)) (.template d v)
  | quasiquote {d : Nat} {v : Value} : Asks (.template d (.quasiquote v)) (.template (d + 1) v)
  | quote {d : Nat} {v : Value} : Asks (.template d (.quote v)) (.template d v)
  | first {d : Nat} {cell : Option Nat} {a r : Value} :
    Asks (.template d (.pair cell a r)) (.template d a)
  | second {d : Nat} {cell : Option Nat} {a r : Value} :
    Asks (.template d (.pair cell a r)) (.template d r)
  | build {v : Value} {e : Expr} (h : Expr.build v = .ok e) : Asks (.form v) (.expr e)

/-- What decreases: how deeply forms nest, then the kind of visit, then the size. -/
noncomputable def rank : Visit → Nat × Nat × Nat
  | expr e => (e.templateHeight, 0, sizeOf e)
  | template _ t => (t.height, 2, sizeOf t)
  | form v => (v.height + 1, 1, 0)

end Visit

/-- A part outside the holes of templates is smaller, and nests forms no more deeply. -/
theorem Expr.PartOf.smaller {e e' : Expr} (h : e'.PartOf e)
    (hne : ∀ t, e ≠ .literal (.quasiquote t)) :
    e'.templateHeight ≤ e.templateHeight ∧ sizeOf e' < sizeOf e := by
  -- a list of parts is smaller than the expression, and holds its members
  cases h with
  | condition | consequence | alternative =>
    simp only [Expr.templateHeight, Expr.ite.sizeOf_spec]
    omega
  | and he | or he | sequence he | module he =>
    have hsize := List.sizeOf_lt_of_mem he
    refine ⟨templateHeightEach_le_iff.1 (Nat.le_refl _) _ he, ?_⟩
    simp
    omega
  | argument he =>
    have hsize := List.sizeOf_lt_of_mem he
    have hheight := templateHeightEach_le_iff.1 (Nat.le_refl _) _ he
    simp only [Expr.templateHeight, Expr.call.sizeOf_spec]
    omega
  | callee | deferred | inside | lambda | define | definition =>
    simp [Expr.templateHeight]
    try omega
  | @initial kind b bs body hb =>
    have hsize := List.sizeOf_lt_of_mem hb
    have hheight := templateHeightInits_le_iff.1 (Nat.le_refl _) b hb
    obtain ⟨name, e⟩ := b
    simp only [Expr.templateHeight, Expr.letIn.sizeOf_spec]
    simp only [Prod.mk.sizeOf_spec] at hsize hheight
    omega
  | hole => exact absurd rfl (hne _)

namespace Visit

/-- What a visit asks for has a lower rank. -/
theorem Asks.rank_lt {a b : Visit} (h : Asks a b) :
    Prod.Lex (· < ·) (Prod.Lex (· < ·) (· < ·)) b.rank a.rank := by
  simp only [Prod.lex_def]
  cases h with
  | part h hne =>
    have hsmaller := h.smaller hne
    simp only [rank, true_and]
    omega
  | build h =>
    have hheight := Expr.templateHeight_le_of_build h
    simp only [rank]
    omega
  | second =>
    simp only [rank, Value.height, Value.pair.sizeOf_spec, true_and]
    omega
  | _ =>
    simp only [rank, Value.height, Expr.templateHeight, true_and]
    omega

/-- Visits come to an end. -/
theorem asks_wellFounded : WellFounded fun b a => Asks a b := by
  have hlex := (Prod.lex Nat.lt_wfRel (Prod.lex Nat.lt_wfRel Nat.lt_wfRel)).wf
  exact Subrelation.wf Asks.rank_lt (InvImage.wf rank hlex)

/-- What a visit leads to has a lower rank. -/
theorem rank_lt_of_leads {a b : Visit} (h : Relation.TransGen Asks a b) :
    Prod.Lex (· < ·) (Prod.Lex (· < ·) (· < ·)) b.rank a.rank := by
  induction h with
  | single h => exact h.rank_lt
  | tail _ h ih =>
    have hlt := h.rank_lt
    simp only [Prod.lex_def] at hlt ih ⊢
    omega

/-- A form that an expression leads to nests less deeply. -/
theorem height_lt_of_leads {e : Expr} {form : Value}
    (h : Relation.TransGen Asks (.expr e) (.form form)) : form.height + 1 < e.templateHeight := by
  have hlt := rank_lt_of_leads h
  simp only [Prod.lex_def, rank] at hlt
  omega

/-- A template leads to the payloads of its holes. -/
theorem leads_of_mem_holes {d : Nat} {t p : Value} (h : p ∈ t.holes d) :
    Relation.TransGen Asks (.template d t) (.form p) := by
  induction t generalizing d with
  | pair cell a r iha ihr =>
    rw [Value.holes.eq_7, List.mem_append] at h
    cases h with
    | inl h => exact .head .first (iha h)
    | inr h => exact .head .second (ihr h)
  | quote v ih => exact .head .quote (ih (by simpa only [Value.holes] using h))
  | quasiquote v ih => exact .head .quasiquote (ih (by simpa only [Value.holes] using h))
  | unquote v ih =>
    cases d with
    | zero =>
      rw [List.mem_singleton.1 h]
      exact .single .payload
    | succ d => exact .head .unquote (ih h)
  | unquoteSplicing v ih =>
    cases d with
    | zero =>
      rw [List.mem_singleton.1 h]
      exact .single .splice
    | succ d => exact .head .unquoteSplicing (ih h)
  | _ => cases d <;> cases h

end Visit

/-! ## §3. The search of a form -/

namespace Expr

/-- A search of forms ties the knot: a form that builds is searched as the expression that it spells,
and the forms in its templates are searched in the same way; any other form counts with every symbol
in it. -/
def Ties (search : HoleSearch) : Prop :=
  ∀ bound form, search bound form =
    match build form with
    | .ok e => references search bound e
    | .error _ => symbolReferences bound form

/-- The search of a form that may nest as deeply as it does. -/
def searchForm : HoleSearch := fun bound form =>
  match build form with
  | .ok e => references (formReferences e.templateHeight) bound e
  | .error _ => symbolReferences bound form

theorem referencesNested_congr {s s' : HoleSearch} {bs : List (String × Expr)}
    (h : ∀ b ∈ bs, ∀ bound, references s bound b.2 = references s' bound b.2)
    {bound : List String} : referencesNested s bound bs = referencesNested s' bound bs := by
  induction bs generalizing bound with
  | nil => rfl
  | cons b bs ih =>
    unfold referencesNested
    rw [h b (by simp) bound, ih fun c hc => h c (by simp [hc])]

/-- What an expression refers to depends on the search of those forms only that it leads to. -/
theorem references_congr {s s' : HoleSearch} {e : Expr}
    (h : ∀ form, Relation.TransGen Visit.Asks (.expr e) (.form form) →
      ∀ bound, s bound form = s' bound form)
    (bound : List String) : references s bound e = references s' bound e := by
  -- on the size; the parts outside templates are smaller
  induction hn : sizeOf e using Nat.strongRecOn generalizing e bound with
  | ind n ih =>
    subst hn
    have hpart : ∀ {x : Expr}, x.PartOf e → (∀ t, e ≠ .literal (.quasiquote t)) →
        ∀ bound, references s bound x = references s' bound x := by
      intro x hx hne bound
      refine ih _ (hx.smaller hne).2 ?_ bound rfl
      exact fun form hform => h form (.head (.part hx hne) hform)
    have heach : ∀ {es : List Expr}, (∀ x ∈ es, x.PartOf e) →
        (∀ t, e ≠ .literal (.quasiquote t)) →
        ∀ bound, referencesEach s bound es = referencesEach s' bound es := by
      intro es hes hne bound
      rw [referencesEach_eq, referencesEach_eq]
      exact List.flatMap_congr fun x hx => hpart (hes x hx) hne bound
    cases e with
    | literal v =>
      cases v with
      | quasiquote t =>
        simp only [references]
        refine List.flatMap_congr fun p hp => h p ?_ bound
        exact .head .template (Visit.leads_of_mem_holes hp)
      | _ => simp only [references]
    | var name => rfl
    | ite c t e =>
      simp only [references]
      rw [hpart .condition (by simp), hpart .consequence (by simp), hpart .alternative (by simp)]
    | and es => exact heach (fun _ hx => .and hx) (by simp) bound
    | or es => exact heach (fun _ hx => .or hx) (by simp) bound
    | sequence es => exact heach (fun _ hx => .sequence hx) (by simp) bound
    | call f args forms =>
      simp only [references]
      rw [hpart .callee (by simp), heach (fun _ hx => .argument hx) (by simp)]
    | deferred f fault forms =>
      simp only [references]
      rw [hpart .deferred (by simp)]
    | letIn kind bs body =>
      have hinits : ∀ bound, referencesInits s bound bs = referencesInits s' bound bs := by
        intro bound
        rw [referencesInits_eq, referencesInits_eq]
        exact List.flatMap_congr fun b hb => hpart (.initial hb) (by simp) bound
      have hbody := hpart (@PartOf.inside kind bs body) (by simp)
      cases kind with
      | parallel =>
        simp only [references]
        rw [hinits, hbody]
      | recursive =>
        simp only [references]
        rw [hinits, hbody]
      | sequential =>
        simp only [references]
        rw [hbody, referencesNested_congr fun b hb => hpart (.initial hb) (by simp)]
    | lambda name params body =>
      simp only [references]
      rw [hpart .lambda (by simp)]
    | define name e => exact hpart .define (by simp) bound
    | definition kind name params body =>
      simp only [references]
      rw [hpart .definition (by simp)]
    | module name exports body => exact heach (fun _ hx => .module hx) (by simp) bound
    | importFrom target spec => rfl
    | macroexpand form => rfl

/-- Once a search may go as deeply as a form nests, it may as well go deeper. -/
theorem formReferences_congr {n m : Nat} {form : Value} (hn : form.height + 1 < n)
    (hm : form.height + 1 < m) (bound : List String) :
    formReferences n bound form = formReferences m bound form := by
  induction n generalizing m form bound with
  | zero => exact absurd hn (by omega)
  | succ n ih =>
    obtain ⟨m, rfl⟩ : ∃ k, m = k + 1 := ⟨m - 1, by omega⟩
    unfold formReferences
    cases hbuild : build form with
    | error fault => rfl
    | ok e =>
      refine references_congr ?_ bound
      intro p hp
      have hheight := templateHeight_le_of_build hbuild
      have hlow := Visit.height_lt_of_leads hp
      exact ih (by omega) (by omega)

/-- A search that may go as deeply as a form nests searches it as it is. -/
theorem formReferences_eq {n : Nat} {form : Value} (hn : form.height + 1 < n)
    (bound : List String) : formReferences n bound form = searchForm bound form := by
  obtain ⟨n, rfl⟩ : ∃ k, n = k + 1 := ⟨n - 1, by omega⟩
  unfold formReferences searchForm
  cases hbuild : build form with
  | error fault => rfl
  | ok e =>
    refine references_congr ?_ bound
    intro p hp
    have hheight := templateHeight_le_of_build hbuild
    have hlow := Visit.height_lt_of_leads hp
    exact formReferences_congr (by omega) hlow

theorem searchForm_ties : Ties searchForm := by
  intro bound form
  unfold searchForm
  cases hbuild : build form with
  | error fault => rfl
  | ok e =>
    exact references_congr (fun _ hp => formReferences_eq (Visit.height_lt_of_leads hp)) bound

/-- There is no other search that ties the knot. -/
theorem Ties.eq {s : HoleSearch} (h : Ties s) : s = searchForm := by
  suffices hvisit : ∀ (visit : Visit) (form : Value), visit = .form form →
      ∀ bound, s bound form = searchForm bound form by
    funext bound form
    exact hvisit _ form rfl bound
  intro visit
  -- along the visits that this one leads to
  induction visit using Visit.asks_wellFounded.transGen.induction with
  | _ visit ih =>
    rintro form rfl bound
    rw [h bound form, searchForm_ties bound form]
    cases hbuild : build form with
    | error fault => rfl
    | ok e =>
      refine references_congr ?_ bound
      intro p hp
      exact ih _ (Relation.transGen_swap.2 (.head (.build hbuild) hp)) p rfl

/-- The free variables of a function, without a limit on the depth of the search. -/
theorem freeVariables_eq (params : Params) (own : Option String) (body : Expr) :
    freeVariables params own body =
      Names.ofList (references searchForm (params.names ++ own.toList) body) := by
  unfold freeVariables
  rw [references_congr fun _ hp => formReferences_eq (Visit.height_lt_of_leads hp)]

end Expr

namespace Engine

theorem fillRecorded_result (en : Engine) (scope : Scope) (t : Value) :
    (en.fillRecorded scope t).result = en.fillTemplate scope t := by
  unfold fillRecorded fillTemplate
  rw [Recorded.result_bind, Value.fillRecorded_result]
  rfl

theorem fillRecorded_within (en : Engine) (scope : Scope) (t : Value) :
    (en.fillRecorded scope t).Within (t.holes 0) :=
  (Value.fillRecorded_within 0 t).map fun _ => .silent _

/-- Filling and searching agree on templates. For every template, scope and world, the payloads that
quasiquote evaluates, in order, are a prefix of the payloads that the search for references visits in
the template, in order, and all of them if quasiquote succeeds. The search itself comes to an end on
every expression: its visits are well-founded, and it is the only one that satisfies its equation,
in which no limit on its depth is left. -/
theorem payloads_searched :
    (∀ (ctx : Context) (n : Nat) (scope : Scope) (t : Value) (w : World),
      let run := (ofDepth ctx n).fillRecorded scope t w
      run.2 = (ofDepth ctx (n + 1)).eval (.literal (.quasiquote t)) scope w ∧
      run.1 <+: t.holes 0 ∧ ∀ v w', run.2 = .ok v w' → run.1 = t.holes 0) ∧
    (∀ search bound t, Expr.references search bound (.literal (.quasiquote t)) =
      (t.holes 0).flatMap (search bound)) ∧
    WellFounded (fun b a => Visit.Asks a b) ∧
    (∃! search, Expr.Ties search ∧ ∀ params own body, Expr.freeVariables params own body =
      Names.ofList (Expr.references search (params.names ++ own.toList) body)) := by
  refine ⟨?_, fun _ _ _ => rfl, Visit.asks_wellFounded, ?_⟩
  · intro ctx n scope t w
    have hresult := congrFun (fillRecorded_result (ofDepth ctx n) scope t) w
    exact ⟨hresult, fillRecorded_within (ofDepth ctx n) scope t w⟩
  · refine ⟨Expr.searchForm, ⟨Expr.searchForm_ties, Expr.freeVariables_eq⟩, ?_⟩
    intro search h
    exact h.1.eq

/-- Of `(a ,b `(c ,(d ,e)))` the payloads at depth zero are `b` and `e`. -/
example : (Value.ofList [.symbol "a", .unquote (.symbol "b"), .quasiquote (Value.ofList
    [.symbol "c", .unquote (Value.ofList [.symbol "d", .unquote (.symbol "e")])])]).holes 0 =
      [.symbol "b", .symbol "e"] := rfl

end Engine

end TinyLisp
