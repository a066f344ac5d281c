import TinyLisp.Proofs.Expansion

/-!
# What computations come to

With enough depth a computation ends in one way, or it has no end at any depth. Which of the two it
is, and how it ends, is a function of the world that it is run in (`Engine.atLast`). So evaluation can
be described by equations without any depth: how an expression ends is said by how its parts end.
-/

namespace TinyLisp

open Invariant (kept_anything fits_anything good_anything lists_anything active_anything)

namespace Engine

variable {α β : Type} {ctx : Context} {w w' : World} {scope : Scope}
  {x y : Engine → Eval α} {k : Engine → α → Eval β}

/-! ## §1. More that ends the same with more depth -/

/-- A computation that does not ask the engine for anything. -/
theorem deepens_const (x : Eval α) : Deepens ctx fun _ => x :=
  fun _ _ _ _ _ => rfl

theorem deepens_apply (f : Value) (args : List Value) : Deepens ctx fun en => en.apply f args :=
  deepens_of_runs fun _ _ hen => ⟨_, hen.apply (good_anything f) (lists_anything args)⟩

theorem deepens_evalEach (scope : Scope) (es : List Expr) :
    Deepens ctx fun en => en.evalEach scope es :=
  deepens_of_runs fun _ _ hen =>
    ⟨_, hen.evalEach (fun e _ => fits_anything e) (active_anything scope)⟩

theorem deepens_evalSequence (scope : Scope) (last : Value) (es : List Expr) :
    Deepens ctx fun en => en.evalSequence scope last es :=
  deepens_of_runs fun _ _ hen =>
    ⟨_, hen.evalSequence (good_anything last) (fun e _ => fits_anything e) (active_anything scope)⟩

theorem deepens_applyClosure (c : Closure) (args : List Value) :
    Deepens ctx fun en => en.applyClosure c args := by
  refine deepens_of_runs fun _ _ hen => ⟨_, hen.applyClosure kept_anything ?_ (lists_anything args)⟩
  trivial

/-- With one level of depth more, an application ends as one step of it does. -/
theorem finishes_apply {f : Value} {args : List Value} {r : EStateM.Result Halt World Value} :
    Finishes ctx (fun en => en.apply f args) w r ↔
      Finishes ctx (fun en => applyStep en f args) w r :=
  finishes_succ rfl fun _ => rfl

/-- How two computations one after the other end. -/
theorem finishes_bind_iff (hx : Deepens ctx x) (hk : ∀ a, Deepens ctx fun en => k en a)
    {r : EStateM.Result Halt World β} :
    Finishes ctx (fun en => x en >>= k en) w r ↔
      (∃ a w', Finishes ctx x w (.ok a w') ∧ Finishes ctx (fun en => k en a) w' r) ∨
        ∃ e w', Finishes ctx x w (.error e w') ∧ r = .error e w' := by
  constructor
  · rintro ⟨⟨n, rfl⟩, hne⟩
    cases hrun : x (ofDepth ctx n) w with
    | ok a w₁ =>
      have hfirst : Finishes ctx x w (.ok a w₁) := ⟨⟨n, hrun⟩, by simp⟩
      exact .inl ⟨a, w₁, hfirst, (finishes_bind hx hk hfirst).1 ⟨⟨n, rfl⟩, hne⟩⟩
    | error e w₁ =>
      have hwhole : (x (ofDepth ctx n) >>= k (ofDepth ctx n)) w = .error e w₁ :=
        Eval.bind_of_error hrun
      refine .inr ⟨e, w₁, ⟨⟨n, hrun⟩, fun w₂ heq => ?_⟩, hwhole⟩
      cases heq
      exact hne w₁ hwhole
  · rintro (⟨a, w₁, hfirst, hrest⟩ | ⟨e, w₁, ⟨⟨n, hrun⟩, hne⟩, rfl⟩)
    · exact (finishes_bind hx hk hfirst).2 hrest
    · refine ⟨⟨n, Eval.bind_of_error hrun⟩, fun w₂ heq => ?_⟩
      cases heq
      exact hne w₁ rfl

/-! ## §2. Ends -/

/-- The end of a computation, if it has one. -/
abbrev End (α : Type) := Option (EStateM.Result Halt World α)

/-- What follows an end with a value decides on the whole; a failure remains, and so does the want of
an end. -/
def End.andThen (o : End α) (k : α → World → End β) : End β :=
  match o with
  | some (.ok a w) => k a w
  | some (.error e w) => some (.error e w)
  | none => none

@[simp] theorem End.ok_andThen (a : α) (w : World) (k : α → World → End β) :
    End.andThen (some (.ok a w)) k = k a w := rfl

@[simp] theorem End.error_andThen (e : Halt) (w : World) (k : α → World → End β) :
    End.andThen (some (.error e w)) k = some (.error e w) := rfl

@[simp] theorem End.none_andThen (k : α → World → End β) : End.andThen none k = none := rfl

theorem End.andThen_congr {o : End α} {k l : α → World → End β}
    (h : ∀ a w, o = some (.ok a w) → k a w = l a w) : o.andThen k = o.andThen l := by
  cases o with
  | none => rfl
  | some r =>
    cases r with
    | ok a w => exact h a w rfl
    | error e w => rfl

open Classical in
/-- What a computation over engines comes to when it is run in a world with enough depth. -/
noncomputable def atLast (ctx : Context) (x : Engine → Eval α) (w : World) : End α :=
  if h : ∃ r, Finishes ctx x w r then some h.choose else none

theorem atLast_eq_some (hx : Deepens ctx x) {r : EStateM.Result Halt World α} :
    atLast ctx x w = some r ↔ Finishes ctx x w r := by
  unfold atLast
  split
  · next h =>
    constructor
    · rintro ⟨rfl⟩
      exact h.choose_spec
    · exact fun hr => congrArg some (h.choose_spec.unique hx hr)
  · next h => exact iff_of_false (by simp) fun hr => h ⟨r, hr⟩

theorem atLast_eq_none : atLast ctx x w = none ↔ ∀ r, ¬ Finishes ctx x w r := by
  unfold atLast
  split
  · next h => exact iff_of_false (by simp) fun hnone => hnone _ h.choose_spec
  · next h => exact iff_of_true rfl fun r hr => h ⟨r, hr⟩

theorem atLast_congr (h : ∀ r, Finishes ctx x w r ↔ Finishes ctx y w' r) :
    atLast ctx x w = atLast ctx y w' := by
  have hsame : Finishes ctx x w = Finishes ctx y w' := funext fun r => propext (h r)
  unfold atLast
  rw [hsame]

/-- Computations that are the same over every engine come to the same. -/
theorem atLast_of_run (h : ∀ en, x en w = y en w') : atLast ctx x w = atLast ctx y w' :=
  atLast_congr fun r => by
    unfold Finishes
    simp only [h]

/-- A computation that ends the same over every engine, other than for want of depth, comes to this. -/
theorem atLast_of_const {r : EStateM.Result Halt World α} (h : ∀ en, x en w = r)
    (hr : ∀ w', r ≠ .error .exhausted w') : atLast ctx x w = some r := by
  have hconst : atLast ctx x w = atLast ctx (fun _ _ => r) w := atLast_of_run h
  rw [hconst]
  exact (atLast_eq_some fun _ _ _ _ _ => rfl).2 ⟨⟨0, rfl⟩, hr⟩

theorem atLast_bind (hx : Deepens ctx x) (hk : ∀ a, Deepens ctx fun en => k en a) :
    atLast ctx (fun en => x en >>= k en) w =
      (atLast ctx x w).andThen fun a w' => atLast ctx (fun en => k en a) w' := by
  cases hfirst : atLast ctx x w with
  | none =>
    refine atLast_eq_none.2 fun r hr => ?_
    rw [atLast_eq_none] at hfirst
    rcases (finishes_bind_iff hx hk).1 hr with ⟨a, w', h, -⟩ | ⟨e, w', h, -⟩
    · exact hfirst _ h
    · exact hfirst _ h
  | some r =>
    rw [atLast_eq_some hx] at hfirst
    cases r with
    | ok a w' => exact atLast_congr fun r => finishes_bind hx hk hfirst
    | error e w' =>
      exact (atLast_eq_some (hx.bind hk)).2 ((finishes_bind_iff hx hk).2 (.inr ⟨e, w', hfirst, rfl⟩))

/-- A first part that ends at once, whatever the engine. -/
theorem atLast_bind_of_ok {a : α} (h : ∀ en, x en w = .ok a w') :
    atLast ctx (fun en => x en >>= k en) w = atLast ctx (fun en => k en a) w' :=
  atLast_of_run fun en => Eval.bind_of_ok (h en)

/-- What a computation comes to, with a function applied to its value. -/
theorem atLast_map (hx : Deepens ctx x) (f : α → β) :
    atLast ctx (fun en => x en >>= fun a => pure (f a)) w =
      (atLast ctx x w).andThen fun a w' => some (.ok (f a) w') := by
  have hpure (a : α) : Deepens ctx fun _ => (pure (f a) : Eval β) := deepens_const _
  refine (atLast_bind hx hpure).trans (End.andThen_congr fun a w' _ => ?_)
  exact atLast_of_const (fun _ => rfl) (by simp)

/-! ## §3. Evaluation -/

/-- How the evaluation of an expression ends. -/
noncomputable abbrev evalEnd (ctx : Context) (e : Expr) (scope : Scope) (w : World) : End Value :=
  atLast ctx (fun en => en.eval e scope) w

/-- How an application ends. -/
noncomputable abbrev applyEnd (ctx : Context) (f : Value) (args : List Value) (w : World) :
    End Value :=
  atLast ctx (fun en => en.apply f args) w

/-- How the evaluation of a form ends. -/
noncomputable abbrev formEnd (ctx : Context) (form : Value) (scope : Scope) (w : World) :
    End Value :=
  atLast ctx (fun en => en.evalForm scope form) w

/-- How the evaluation of several expressions ends. -/
noncomputable abbrev eachEnd (ctx : Context) (es : List Expr) (scope : Scope) (w : World) :
    End (List Value) :=
  atLast ctx (fun en => en.evalEach scope es) w

/-- How the evaluation of a sequence ends. -/
noncomputable abbrev sequenceEnd (ctx : Context) (last : Value) (es : List Expr) (scope : Scope)
    (w : World) : End Value :=
  atLast ctx (fun en => en.evalSequence scope last es) w

theorem evalEnd_eq (e : Expr) (scope : Scope) (w : World) :
    evalEnd ctx e scope w = atLast ctx (fun en => evalStep ctx en e scope) w :=
  atLast_congr fun _ => finishes_eval

theorem applyEnd_eq (f : Value) (args : List Value) (w : World) :
    applyEnd ctx f args w = atLast ctx (fun en => applyStep en f args) w :=
  atLast_congr fun _ => finishes_apply

theorem formEnd_of_build {form : Value} {e : Expr} (h : Expr.build form = .ok e) (scope : Scope)
    (w : World) : formEnd ctx form scope w = evalEnd ctx e scope w :=
  atLast_of_run fun en => by
    unfold evalForm
    rw [h]

theorem eachEnd_nil : eachEnd ctx [] scope w = some (.ok [] w) :=
  atLast_of_const (fun _ => rfl) (by simp)

theorem eachEnd_cons (e : Expr) (es : List Expr) :
    eachEnd ctx (e :: es) scope w = (evalEnd ctx e scope w).andThen fun v w₁ =>
      (eachEnd ctx es scope w₁).andThen fun vs w₂ => some (.ok (v :: vs) w₂) := by
  have hrest (v : Value) : Deepens ctx fun en => en.evalEach scope es >>= fun vs =>
      (pure (v :: vs) : Eval (List Value)) :=
    (deepens_evalEach scope es).bind fun vs => deepens_const _
  refine (atLast_bind (deepens_eval e scope) hrest).trans (End.andThen_congr fun v w₁ _ => ?_)
  exact atLast_map (deepens_evalEach scope es) (v :: ·)

theorem sequenceEnd_nil (last : Value) : sequenceEnd ctx last [] scope w = some (.ok last w) :=
  atLast_of_const (fun _ => rfl) (by simp)

theorem sequenceEnd_cons (last : Value) (e : Expr) (es : List Expr) :
    sequenceEnd ctx last (e :: es) scope w = (evalEnd ctx e scope w).andThen fun v w₁ =>
      sequenceEnd ctx v es scope w₁ :=
  atLast_bind (deepens_eval e scope) fun v => deepens_evalSequence scope v es

/-! ### Expressions -/

theorem evalEnd_nil : evalEnd ctx (.literal .nil) scope w = some (.ok .nil w) := by
  rw [evalEnd_eq]
  exact atLast_of_const (fun _ => rfl) (by simp)

theorem evalEnd_quote (v : Value) :
    evalEnd ctx (.literal (.quote v)) scope w = some (.ok v w) := by
  rw [evalEnd_eq]
  exact atLast_of_const (fun _ => rfl) (by simp)

theorem evalVar_of_lookup {name : String} {v : Value} (h : w.store.lookup scope name = .ok v)
    (hv : v ≠ .unspecified) : evalVar scope name w = .ok v w := by
  have hlookup : Eval.lookup scope name w = .ok v w := by
    unfold Eval.lookup
    rw [Eval.get_bind, h]
    rfl
  unfold evalVar
  rw [Eval.bind_of_ok hlookup]
  split
  · exact absurd rfl hv
  · rfl

theorem evalEnd_var {name : String} {v : Value} (h : w.store.lookup scope name = .ok v)
    (hv : v ≠ .unspecified) : evalEnd ctx (.var name) scope w = some (.ok v w) := by
  rw [evalEnd_eq]
  exact atLast_of_const (fun _ => evalVar_of_lookup h hv) (by simp)

theorem evalEnd_ite (c t e : Expr) :
    evalEnd ctx (.ite c t e) scope w = (evalEnd ctx c scope w).andThen fun v w₁ =>
      if v.isTrue then evalEnd ctx t scope w₁ else evalEnd ctx e scope w₁ := by
  have hbranches (v : Value) : Deepens ctx fun en : Engine =>
      if v.isTrue then en.eval t scope else en.eval e scope := by
    split
    · exact deepens_eval t scope
    · exact deepens_eval e scope
  rw [evalEnd_eq]
  refine (atLast_bind (deepens_eval c scope) hbranches).trans (End.andThen_congr fun v w₁ _ => ?_)
  split
  · rfl
  · rfl

theorem evalEnd_sequence (es : List Expr) :
    evalEnd ctx (.sequence es) scope w = sequenceEnd ctx .nil es scope w :=
  evalEnd_eq _ _ _

theorem evalEnd_let (kind : LetKind) (bs : List (String × Expr)) (body : Expr) :
    evalEnd ctx (.letIn kind bs body) scope w =
      (atLast ctx (fun en => en.letScope scope kind bs) w).andThen fun inner w₁ =>
        evalEnd ctx body inner w₁ := by
  rw [evalEnd_eq]
  exact atLast_bind (deepens_letScope scope kind bs) fun inner => deepens_eval body inner

/-- An application of what a callee evaluates to, where the callee names no expander. -/
theorem evalEnd_call {callee : Expr} (h : w.store.expanderAt? scope callee = none)
    (args : List Expr) (forms : List Value) :
    evalEnd ctx (.call callee args forms) scope w =
      (evalEnd ctx callee scope w).andThen fun f w₁ =>
        (eachEnd ctx args scope w₁).andThen fun vs w₂ => applyEnd ctx f vs w₂ := by
  have hcall : ∀ en, evalStep ctx en (.call callee args forms) scope w =
      (en.eval callee scope >>= fun f => en.evalEach scope args >>= fun vs => en.apply f vs) w := by
    intro en
    show en.evalCall ctx scope callee (.ok args) forms w = _
    unfold evalCall
    rw [Eval.bind_of_ok (expanderAt_eq w scope callee), h]
  have happly (f : Value) : Deepens ctx fun en =>
      en.evalEach scope args >>= fun vs => en.apply f vs :=
    (deepens_evalEach scope args).bind fun vs => deepens_apply f vs
  rw [evalEnd_eq, atLast_of_run hcall]
  refine (atLast_bind (deepens_eval callee scope) happly).trans (End.andThen_congr fun f w₁ _ => ?_)
  exact atLast_bind (deepens_evalEach scope args) fun vs => deepens_apply f vs


/-! ### Applications -/

/-- A primitive operation that ends at once, whatever the engine. -/
theorem applyEnd_primitive {p : Primitive} {args : List Value} {v : Value}
    (h : ∀ en, p.call en args w = .ok v w') :
    applyEnd ctx (.primitive p) args w = some (.ok v w') := by
  rw [applyEnd_eq]
  exact atLast_of_const h (by simp)

theorem applyEnd_closure {c : Closure} {args : List Value} {inner : Scope}
    (h : (Eval.callScope c >>= fun scope =>
      Eval.bindParams c.params args scope c.label >>= fun _ => pure scope) w = .ok inner w') :
    applyEnd ctx (.closure c) args w =
      evalEnd ctx (w'.bodies.getD c.id (.literal .nil)) inner w' := by
  rw [applyEnd_eq]
  refine atLast_of_run fun en => ?_
  show en.applyClosure c args w = _
  have heq : en.applyClosure c args =
      (Eval.callScope c >>= fun scope =>
        Eval.bindParams c.params args scope c.label >>= fun _ => pure scope) >>= fun scope =>
          Eval.body c.id >>= fun e => en.eval e scope := by
    unfold applyClosure
    simp only [bind_assoc, pure_bind]
  rw [heq, Eval.bind_of_ok h]
  rfl

end Engine

end TinyLisp
