import TinyLisp.Proofs.Bindings

/-!
# What expansions come to

Most of what code does is to read: it looks names up and applies operations that leave no trace.
`Engine.Reads` says that an expression gives a value and does nothing else, whatever silent work comes
before. Where such expressions stand in the holes of a template, the template is filled silently, and
`Engine.Spells` says with which elements.

A call of an expander comes to what its body gives, evaluated in place of the call, if that is no call
of an expander again (`Engine.expansionEnd_of_run`).
-/

namespace TinyLisp

/-- A list without elements. -/
theorem Value.nil_of_elements? {v : Value} (h : v.elements? = some []) : v = .nil := by
  cases v with
  | nil => rfl
  | pair cell a d => exact absurd (Option.map_eq_some_iff.1 h) (by simp)
  | _ => exact absurd h (by simp [elements?])

/-- A list with a first element. -/
theorem Value.pair_of_elements? {v a : Value} {vs : List Value}
    (h : v.elements? = some (a :: vs)) : ∃ cell d, v = .pair cell a d ∧ d.elements? = some vs := by
  cases v with
  | pair cell b d =>
    obtain ⟨rest, hrest, hcons⟩ := Option.map_eq_some_iff.1 h
    cases hcons
    exact ⟨cell, d, rfl, hrest⟩
  | _ => exact absurd h (by simp [elements?])

/-- An outcome that is not true is `#f`. -/
theorem eq_false_of_outcome {o : Outcome} (h : o.toOption.map Value.isTrue = some false) :
    o = .ok (.bool false) := by
  cases o with
  | error e => cases h
  | ok v =>
    have hv : v.isTrue = false := Option.some.inj h
    unfold Value.isTrue at hv
    split at hv
    · rfl
    · cases hv

namespace Engine

variable {ctx : Context} {w w' : World} {scope : Scope} {name : String} {v : Value}

/-! ## §1. Reading -/

/-- In a scope an expression gives a value and does nothing else, now and after any silent work. -/
def Reads (ctx : Context) (w : World) (scope : Scope) (e : Expr) (v : Value) : Prop :=
  ∀ w', w.Silent w' → evalEnd ctx e scope w' = some (.ok v w')

theorem Reads.now {e : Expr} (h : Reads ctx w scope e v) :
    evalEnd ctx e scope w = some (.ok v w) :=
  h w (.refl w)

theorem Reads.later {e : Expr} (h : Reads ctx w scope e v) (hw : w.Silent w') :
    Reads ctx w' scope e v :=
  fun w'' hw' => h w'' (hw.trans hw')

theorem reads_quote (v : Value) : Reads ctx w scope (.literal (.quote v)) v :=
  fun _ _ => evalEnd_quote v

theorem reads_var (hs : w.Inside scope) (h : w.Has scope name v) (hv : v ≠ .unspecified) :
    Reads ctx w scope (.var name) v :=
  fun _ hw => evalEnd_var (h.later hs hw.store).lookup hv

/-- Several expressions that read give their values in order. -/
theorem eachEnd_of_reads {es : List Expr} {vs : List Value}
    (h : List.Forall₂ (Reads ctx w scope) es vs) : eachEnd ctx es scope w = some (.ok vs w) := by
  induction h with
  | nil => exact eachEnd_nil
  | cons he _ ih => rw [eachEnd_cons, he.now, End.ok_andThen, ih, End.ok_andThen]

/-- A function or an operation is not an expander and is not the placeholder. -/
theorem ne_of_isProcedure {f : Value} (h : f.isProcedure = true) :
    (∀ m, f ≠ .expander m) ∧ f ≠ .unspecified := by
  cases f with
  | primitive p => simp
  | closure c => simp
  | _ => cases h

theorem expanderAt?_of_has {f : Value} (h : w.Has scope name f) (hf : f.isProcedure = true) :
    w.store.expanderAt? scope (.var name) = none := by
  show (w.store.expander? scope name).map _ = none
  rw [h.expander? (ne_of_isProcedure hf).1]
  rfl

/-- A call of a function or an operation by a name that has it as its value. -/
theorem evalEnd_call_of_has {f : Value} (h : w.Has scope name f) (hf : f.isProcedure = true)
    (es : List Expr) (forms : List Value) :
    evalEnd ctx (.call (.var name) es forms) scope w =
      (eachEnd ctx es scope w).andThen fun vs w₁ => applyEnd ctx f vs w₁ := by
  rw [evalEnd_call (expanderAt?_of_has h hf), evalEnd_var h.lookup (ne_of_isProcedure hf).2,
    End.ok_andThen]

/-- An operation that leaves no trace, on what can be read, can be read. -/
theorem reads_operation {p : Primitive} {args : List Expr} {vs : List Value} (hs : w.Inside scope)
    (h : w.Has scope name (.primitive p)) (hargs : List.Forall₂ (Reads ctx w scope) args vs)
    (hcall : ∀ en w, p.call en vs w = .ok v w) (forms : List Value) :
    Reads ctx w scope (.call (.var name) args forms) v := by
  intro w' hw
  have hlater : List.Forall₂ (Reads ctx w' scope) args vs := hargs.imp fun _ _ he => he.later hw
  rw [evalEnd_call_of_has (h.later hs hw.store) rfl, eachEnd_of_reads hlater, End.ok_andThen]
  exact applyEnd_primitive fun en => hcall en w'

/-- A conditional whose test can be read. -/
theorem evalEnd_ite_of_reads {c : Expr} (h : Reads ctx w scope c v) (t e : Expr) :
    evalEnd ctx (.ite c t e) scope w =
      if v.isTrue then evalEnd ctx t scope w else evalEnd ctx e scope w := by
  rw [evalEnd_ite, h.now, End.ok_andThen]

/-- A `let` form whose initial values can be read comes to its body in a scope with its names. -/
theorem evalEnd_let_of_reads (bs : List (String × Expr)) {vs : List Value} (hs : w.Inside scope)
    (hnodup : (bs.map Prod.fst).Nodup)
    (hbs : List.Forall₂ (Reads ctx w scope) (bs.map Prod.snd) vs) (body : Expr) :
    ∃ inner w', w.Entered scope ((bs.map Prod.fst).zip vs) w' inner ∧
      evalEnd ctx (.letIn .parallel bs body) scope w = evalEnd ctx body inner w' := by
  let bound := (bs.map Prod.fst).zip vs
  have hlength : (bs.map Prod.fst).length ≤ vs.length := by
    simp only [← hbs.length_eq, List.length_map, Nat.le_refl]
  have hentered : w.Entered scope bound (w.opened bound) (w.store.frames.size :: scope) := by
    refine World.entered_opened hs ?_
    rwa [List.map_fst_zip hlength]
  have hlet : atLast ctx (fun en => en.letScope scope .parallel bs) w =
      some (.ok (w.store.frames.size :: scope) (w.opened bound)) := by
    have hbind (vs : List Value) : Deepens ctx fun _ => Eval.extend scope >>= fun inner =>
        Eval.bindAll inner ((bs.map Prod.fst).zip vs) >>= fun _ => (pure inner : Eval Scope) :=
      deepens_const _
    calc
      _ = (eachEnd ctx (bs.map Prod.snd) scope w).andThen fun vs w₁ =>
          atLast ctx (fun _ => Eval.extend scope >>= fun inner =>
            Eval.bindAll inner ((bs.map Prod.fst).zip vs) >>= fun _ => pure inner) w₁ :=
        atLast_bind (deepens_evalEach scope (bs.map Prod.snd)) hbind
      _ = _ := by
        rw [eachEnd_of_reads hbs, End.ok_andThen]
        exact atLast_of_const (fun _ => rfl) (by simp)
  refine ⟨_, _, hentered, ?_⟩
  rw [evalEnd_let, hlet, End.ok_andThen]

/-! ## §2. Templates -/

/-- How the filling of a template ends, with its elements and its tail. -/
noncomputable abbrev partsEnd (ctx : Context) (t : Value) (scope : Scope) (w : World) :
    End (List Value × Value) :=
  atLast ctx (fun en => t.fillParts (en.evalForm scope) 0) w

theorem deepens_fillParts (t : Value) (scope : Scope) :
    Deepens ctx fun en => t.fillParts (en.evalForm scope) 0 :=
  deepens_of_runs fun _ _ hen => ⟨_, Invariant.Engines.fillParts hen.kept
    (fun _ _ _ hp => hen.evalForm hp (Invariant.active_anything scope)) 0
    (Invariant.good_anything t)⟩

theorem partsEnd_splice {cell : Option Nat} {payload r : Value} {here : List Value}
    (hp : formEnd ctx payload scope w = some (.ok v w')) (hv : v.elements? = some here) :
    partsEnd ctx (.pair cell (.unquoteSplicing payload) r) scope w =
      (partsEnd ctx r scope w').andThen fun p w₂ => some (.ok (here ++ p.1, p.2) w₂) := by
  have hrest (here : List Value) : Deepens ctx fun en => r.fillParts (en.evalForm scope) 0 >>= fun p =>
      (pure (here ++ p.1, p.2) : Eval (List Value × Value)) :=
    (deepens_fillParts r scope).bind fun _ => deepens_const _
  have hspliced : ∀ w, v.spliced w = .ok here w := by
    intro w
    unfold Value.spliced
    rw [hv]
    rfl
  calc
    _ = (formEnd ctx payload scope w).andThen fun v w₁ => atLast ctx (fun en => v.spliced >>=
        fun here => r.fillParts (en.evalForm scope) 0 >>= fun p => pure (here ++ p.1, p.2)) w₁ :=
      atLast_bind (deepens_evalForm scope payload) fun v => (deepens_const _).bind hrest
    _ = atLast ctx (fun en => r.fillParts (en.evalForm scope) 0 >>= fun p =>
        pure (here ++ p.1, p.2)) w' := by
      rw [hp, End.ok_andThen]
      exact atLast_bind_of_ok fun _ => hspliced w'
    _ = _ := atLast_map (deepens_fillParts r scope) fun p => (here ++ p.1, p.2)

theorem partsEnd_element {cell : Option Nat} {a r : Value} {elements : List Value} {tail : Value}
    {w₁ : World} (hne : ∀ payload, a ≠ .unquoteSplicing payload)
    (ha : partsEnd ctx a scope w = some (.ok (elements, tail) w₁))
    (hv : Eval.newChain tail elements w₁ = .ok v w') :
    partsEnd ctx (.pair cell a r) scope w =
      (partsEnd ctx r scope w').andThen fun p w₂ => some (.ok (v :: p.1, p.2) w₂) := by
  have hrest (v : Value) : Deepens ctx fun en => r.fillParts (en.evalForm scope) 0 >>= fun p =>
      (pure (v :: p.1, p.2) : Eval (List Value × Value)) :=
    (deepens_fillParts r scope).bind fun _ => deepens_const _
  have hfill (en : Engine) : (Value.pair cell a r).fillParts (en.evalForm scope) 0 =
      a.fillParts (en.evalForm scope) 0 >>= fun p => Eval.newChain p.2 p.1 >>= fun v =>
        r.fillParts (en.evalForm scope) 0 >>= fun q => pure (v :: q.1, q.2) :=
    Value.fillParts.eq_2 _ 0 cell a r fun payload _ h => hne payload h
  calc
    _ = (partsEnd ctx a scope w).andThen fun p w₁ => atLast ctx (fun en => Eval.newChain p.2 p.1 >>=
        fun v => r.fillParts (en.evalForm scope) 0 >>= fun q => pure (v :: q.1, q.2)) w₁ := by
      rw [partsEnd, atLast_of_run fun en => congrFun (hfill en) w]
      exact atLast_bind (deepens_fillParts a scope) fun _ => (deepens_const _).bind hrest
    _ = atLast ctx (fun en => r.fillParts (en.evalForm scope) 0 >>= fun q =>
        pure (v :: q.1, q.2)) w' := by
      rw [ha, End.ok_andThen]
      exact atLast_bind_of_ok fun _ => hv
    _ = _ := atLast_map (deepens_fillParts r scope) fun q => (v :: q.1, q.2)

/-- A template that is a list of some items is filled silently, and something is known of the elements
that it is filled with. -/
def Spells (ctx : Context) (w : World) (scope : Scope) (items : List Value)
    (P : List Value → Prop) : Prop :=
  ∀ t, t.elements? = some items → ∀ w₁, w.Silent w₁ →
    ∃ us w₂, partsEnd ctx t scope w₁ = some (.ok (us, .nil) w₂) ∧ w₁.Silent w₂ ∧ P us

namespace Spells

variable {P Q : List Value → Prop} {items : List Value}

theorem nil (h : P []) : Spells ctx w scope [] P := by
  intro t ht w₁ _
  obtain rfl := Value.nil_of_elements? ht
  exact ⟨[], w₁, atLast_of_const (fun _ => rfl) (by simp), .refl w₁, h⟩

/-- An element that is kept as it is. -/
theorem symbol {s : String} (h : Spells ctx w scope items fun us => P (.symbol s :: us)) :
    Spells ctx w scope (.symbol s :: items) P := by
  intro t ht w₁ hw₁
  obtain ⟨cell, r, rfl, hr⟩ := Value.pair_of_elements? ht
  have hatom : partsEnd ctx (.symbol s) scope w₁ = some (.ok ([], .symbol s) w₁) :=
    atLast_of_const (fun _ => rfl) (by simp)
  obtain ⟨us, w₂, hrest, hw₂, hP⟩ := h r hr w₁ hw₁
  refine ⟨_, w₂, ?_, hw₂, hP⟩
  rw [partsEnd_element (by simp) hatom rfl, hrest, End.ok_andThen]

/-- A hole whose payload can be read. -/
theorem hole {payload : Value} {e : Expr} (hbuild : Expr.build payload = .ok e)
    (he : Reads ctx w scope e v) (h : Spells ctx w scope items fun us => P (v :: us)) :
    Spells ctx w scope (.unquote payload :: items) P := by
  intro t ht w₁ hw₁
  obtain ⟨cell, r, rfl, hr⟩ := Value.pair_of_elements? ht
  have hpayload : formEnd ctx payload scope w₁ = some (.ok v w₁) :=
    (formEnd_of_build hbuild scope w₁).trans (he w₁ hw₁)
  have hhole : partsEnd ctx (.unquote payload) scope w₁ = some (.ok ([], v) w₁) := by
    calc
      _ = (formEnd ctx payload scope w₁).andThen fun v w₂ => some (.ok ([], v) w₂) :=
        atLast_map (deepens_evalForm scope payload) fun v => ([], v)
      _ = _ := by rw [hpayload, End.ok_andThen]
  obtain ⟨us, w₂, hrest, hw₂, hP⟩ := h r hr w₁ hw₁
  refine ⟨_, w₂, ?_, hw₂, hP⟩
  rw [partsEnd_element (by simp) hhole rfl, hrest, End.ok_andThen]

/-- A splice whose payload can be read and is a list. -/
theorem splice {payload : Value} {e : Expr} {here : List Value}
    (hbuild : Expr.build payload = .ok e) (he : Reads ctx w scope e v)
    (hv : v.elements? = some here) (h : Spells ctx w scope items fun us => P (here ++ us)) :
    Spells ctx w scope (.unquoteSplicing payload :: items) P := by
  intro t ht w₁ hw₁
  obtain ⟨cell, r, rfl, hr⟩ := Value.pair_of_elements? ht
  have hpayload : formEnd ctx payload scope w₁ = some (.ok v w₁) :=
    (formEnd_of_build hbuild scope w₁).trans (he w₁ hw₁)
  obtain ⟨us, w₂, hrest, hw₂, hP⟩ := h r hr w₁ hw₁
  refine ⟨_, w₂, ?_, hw₂, hP⟩
  rw [partsEnd_splice hpayload hv, hrest, End.ok_andThen]

/-- An element that is a template of a list. -/
theorem list {a : Value} {as : List Value} (ha : a.elements? = some as)
    (h : Spells ctx w scope as Q)
    (hrest : ∀ v us, v.elements? = some us → Q us →
      Spells ctx w scope items fun vs => P (v :: vs)) :
    Spells ctx w scope (a :: items) P := by
  intro t ht w₁ hw₁
  obtain ⟨cell, r, rfl, hr⟩ := Value.pair_of_elements? ht
  have hne : ∀ payload, a ≠ .unquoteSplicing payload := by
    rintro payload rfl
    exact absurd ha (by simp [Value.elements?])
  obtain ⟨us, w₂, hfirst, hw₂, hQ⟩ := h a ha w₁ hw₁
  obtain ⟨v, n, hchain, hv⟩ := Eval.newChain_ok .nil us w₂
  have hw₃ := hw₂.trans (w₂.silent_tags n)
  have helements : v.elements? = some us := by simpa [Value.elements?] using hv
  obtain ⟨vs, w₄, hlast, hw₄, hP⟩ := hrest v us helements hQ r hr _ (hw₁.trans hw₃)
  refine ⟨_, w₄, ?_, hw₃.trans hw₄, hP⟩
  rw [partsEnd_element hne hfirst hchain, hlast, End.ok_andThen]

/-- The value of the template. -/
theorem quasiquote {t : Value} (ht : t.elements? = some items) (h : Spells ctx w scope items P) :
    ∃ v us w', evalEnd ctx (.literal (.quasiquote t)) scope w = some (.ok v w') ∧ w.Silent w' ∧
      v.elements? = some us ∧ P us := by
  obtain ⟨us, w₁, hparts, hw₁, hP⟩ := h t ht w (.refl w)
  obtain ⟨v, n, hchain, hv⟩ := Eval.newChain_ok .nil us w₁
  refine ⟨v, us, _, ?_, hw₁.trans (w₁.silent_tags n), by simpa [Value.elements?] using hv, hP⟩
  calc
    _ = atLast ctx (fun en => en.fillTemplate scope t) w := evalEnd_eq _ scope w
    _ = (partsEnd ctx t scope w).andThen fun p w₁ =>
        atLast ctx (fun _ => Eval.newChain p.2 p.1) w₁ :=
      atLast_bind (deepens_fillParts t scope) fun _ => deepens_const _
    _ = _ := by
      rw [hparts, End.ok_andThen]
      exact atLast_of_const (fun _ => hchain) (by simp)

end Spells

/-! ## §3. Expansions -/

variable {m : Expander} {args : List Value}

/-- How a call of an expander ends. -/
noncomputable abbrev expansionEnd (ctx : Context) (name : String) (m : Expander)
    (args : List Value) (scope : Scope) (w : World) : End Value :=
  atLast ctx (fun en => en.expand ctx.settings.expansionLimit name m args scope >>=
    en.evalForm scope) w

theorem evalEnd_of_expander (hm : w.store.expander? scope name = some m) (es : List Expr) :
    evalEnd ctx (.call (.var name) es args) scope w = expansionEnd ctx name m args scope w := by
  rw [evalEnd_eq]
  exact atLast_of_run fun _ => evalCall_of_expander hm (.ok es)

/-- It does not matter whether the arguments are expressions. -/
theorem formEnd_of_expander {form : Value} (h : form.elements? = some (.symbol name :: args))
    (hk : Keyword.ofName? name = none) (hm : w.store.expander? scope name = some m) :
    formEnd ctx form scope w = expansionEnd ctx name m args scope w := by
  rcases build_call h hk with ⟨es, he⟩ | ⟨fault, he⟩
  · exact (formEnd_of_build he scope w).trans (evalEnd_of_expander hm es)
  · refine (formEnd_of_build he scope w).trans ?_
    rw [evalEnd_eq]
    exact atLast_of_run fun _ => evalCall_of_expander hm (.error fault)

/-- Where the body of an expander gives something that calls no expander, this is evaluated in place
of the call, whatever the limit. -/
theorem expansionEnd_of_run {x : Value}
    (hrun : atLast ctx (fun en => en.runExpander name m args) w = some (.ok x w'))
    (hrest : w'.store.expanderCall? scope x = none) :
    expansionEnd ctx name m args scope w = formEnd ctx x scope w' := by
  have hassoc (en : Engine) : (en.expand ctx.settings.expansionLimit name m args scope >>=
      en.evalForm scope) = en.runExpander name m args >>= fun x =>
        settleAndEval ctx.settings.expansionLimit name scope (ctx.settings.expansionLimit - 1) x en := by
    unfold expand settleAndEval
    rw [bind_assoc]
  rw [expansionEnd, atLast_of_run fun en => congrFun (hassoc en) w,
    atLast_bind (deepens_runExpander name m args) fun x => deepens_settleAndEval _ _ _ _ x, hrun,
    End.ok_andThen]
  exact atLast_of_run fun en => settleAndEval_of_none _ _ _ hrest en

/-- The body of an expander runs in a scope with its parameters. -/
theorem runEnd_of_entered {inner : Scope}
    (h : (Eval.extend m.scope >>= fun inner => Eval.bindParams m.params args inner name >>= fun _ =>
      pure inner) w = .ok inner w') :
    atLast ctx (fun en => en.runExpander name m args) w =
      (evalEnd ctx (w'.bodies.getD m.id (.literal .nil)) inner w').andThen fun v w₂ =>
        some (.ok v.unquoted w₂) := by
  have heq (en : Engine) : en.runExpander name m args =
      (Eval.extend m.scope >>= fun inner => Eval.bindParams m.params args inner name >>= fun _ =>
        pure inner) >>= fun inner => Eval.body m.id >>= fun e => en.eval e inner >>= fun v =>
          pure v.unquoted := by
    unfold runExpander
    simp only [bind_assoc, pure_bind]
  have hbody (en : Engine) : en.runExpander name m args w =
      (en.eval (w'.bodies.getD m.id (.literal .nil)) inner >>= fun v => pure v.unquoted) w' := by
    rw [heq, Eval.bind_of_ok h]
    rfl
  rw [atLast_of_run hbody]
  exact atLast_map (deepens_eval _ inner) Value.unquoted

end Engine

end TinyLisp
