import TinyLisp.Proofs.Simulation.Step
import TinyLisp.Proofs.History

/-!
# Guarded engines

A guarded engine is stopped when it comes to certain evaluations, and fails there; apart from that it
is the engine of its depth. In a run that has no such evaluation among its parts the guard makes no
difference (`Engine.perform_guarded`).

Before a backdrop that excuses the failure, a guarded engine is in step with the engine of its depth
if the guard stops every form that asks for more than its scopes give (`Engine.guarded_inStep`). So
two runs that belong together before such a backdrop end together if none of these forms is part of
the run on the left.
-/

namespace TinyLisp

open Correspondence

/-- Evaluations to stop: of an expression, in a scope, in a world. -/
abbrev Guard := Expr → Scope → World → Prop

/-- A run has no part that a guard stops. -/
def Moment.Clear (ctx : Context) (stops : Guard) (m : Moment) : Prop :=
  ∀ n e scope w, Part ctx ⟨n, .eval e scope, w⟩ m → ¬ stops e scope w

/-- Expressions of a kind ask for nothing but evaluations of expressions of that kind. -/
def Expr.Closed (ctx : Context) (E : Expr → Prop) : Prop :=
  ∀ e, E e → ∀ en en' : Engine, (∀ x, E x → en.eval x = en'.eval x) →
    Engine.evalStep ctx en e = Engine.evalStep ctx en' e

namespace Engine

variable {ctx ctx' : Context} {stops : Guard} {halt : Halt}

/-! ## §1. Guards -/

open Classical in
/-- The engine with `n` levels of recursion that fails at the evaluations that a guard stops. -/
noncomputable def guarded (ctx : Context) (stops : Guard) (halt : Halt) : Nat → Engine
  | 0 => exhausted
  | n + 1 => {
      eval := fun e scope w =>
        if stops e scope w then .error halt w else evalStep ctx (guarded ctx stops halt n) e scope w
      apply := fun f args => applyStep (guarded ctx stops halt n) f args }

/-- An evaluation that is not stopped takes one step. -/
theorem eval_guarded {e : Expr} {scope : Scope} {w : World} (h : ¬ stops e scope w) (n : Nat) :
    (guarded ctx stops halt (n + 1)).eval e scope w =
      evalStep ctx (guarded ctx stops halt n) e scope w :=
  if_neg h

theorem eval_guarded_of_stops {e : Expr} {scope : Scope} {w : World} (h : stops e scope w)
    (n : Nat) : (guarded ctx stops halt (n + 1)).eval e scope w = .error halt w :=
  if_pos h

/-- In a run without a part that is stopped, the guard makes no difference. -/
theorem perform_guarded {n : Nat} {t : Task} {w : World} (h : Moment.Clear ctx stops ⟨n, t, w⟩) :
    (guarded ctx stops halt n).perform t w = (ofDepth ctx n).perform t w := by
  induction n generalizing t w with
  | zero =>
    cases t with
    | eval e scope => rfl
    | apply f args => rfl
  | succ n ih =>
    have hstep : (guarded ctx stops halt (n + 1)).perform t w =
        (guarded ctx stops halt n).step ctx t w := by
      cases t with
      | eval e scope => exact eval_guarded (h _ e scope w (.self _)) n
      | apply f args => rfl
    rw [hstep, perform_ofDepth_succ]
    -- the tasks that the step asks for have no parts that are stopped either
    obtain ⟨c, hc, hpaced⟩ := follows_step ctx t w
    have hsteady := Course.paced_still_iff.1 hpaced
    refine (hc _).trans (Eq.trans ?_ (hc _).symm)
    refine Course.under_congr fun p hp => ih fun k e scope v hpart => ?_
    exact h k e scope v (.task ((hsteady.consults_iff hc).2 hp) hpart)

/-- An engine is consulted only about tasks that a computation depends on. -/
theorem task_of_consults {en : Engine} {x : Engine → Eval Value} {w w' : World} {t : Task}
    {Q : Task → Prop}
    (hx : ∀ en en' : Engine, (∀ u, Q u → en.perform u = en'.perform u) → x en w = x en' w)
    (h : en.Consults x w t w') : Q t := by
  obtain ⟨en', hsame, hne⟩ := h
  by_contra hnot
  refine hne (hx en' en fun u hu => funext fun v => hsame u v fun heq => hnot ?_)
  cases heq
  exact hu

/-- The parts of an evaluation are of the kind that its expression is of. -/
theorem part_of_closed {E : Expr → Prop} (hE : Expr.Closed ctx E) {n : Nat} {e : Expr}
    {scope : Scope} {w : World} (he : E e) {a : Moment}
    (h : Moment.Part ctx a ⟨n, .eval e scope, w⟩) : ∃ x S, a.task = .eval x S ∧ E x := by
  induction n generalizing e scope w with
  | zero =>
    cases h with
    | self => exact ⟨e, scope, rfl, he⟩
  | succ n ih =>
    cases h with
    | self => exact ⟨e, scope, rfl, he⟩
    | task hconsults hpart =>
      obtain ⟨x, S, rfl, hx⟩ := task_of_consults (Q := fun t => ∃ x S, t = .eval x S ∧ E x)
        (fun en en' h => congrFun (congrFun
          (hE e he en en' fun x hx => funext fun S => h (.eval x S) ⟨x, S, rfl, hx⟩) scope) w)
        hconsults
      exact ih hx hpart

end Engine

/-! ## §2. Guarded engines in step -/

/-- A guard stops every form that asks for more than its scopes give. -/
def Backdrop.Heeds (O : Backdrop) (stops : Guard) : Prop :=
  ∀ (K : Correspondence O) {V : View} {e : Expr} {scope scope' : Scope} {w : World},
    K.Stands V scope scope' → e.Covered V → ¬ stops e scope w → K.Permits V scope scope' w.store e

namespace Engine

variable {O : Backdrop} {ctx ctx' : Context} {stops : Guard} {halt : Halt}

/-- A guarded engine is in step with the engine of its depth. -/
theorem guarded_inStep (hO : O.Heeds stops) (hhalt : O.excused halt) (hctx : ctx.Alike ctx')
    (n : Nat) : (guarded ctx stops halt n).InStep O (ofDepth ctx' n) := by
  induction n with
  | zero =>
    exact ⟨fun _ _ _ _ _ _ _ _ _ => .throw .exhausted, fun _ _ _ _ _ _ _ => .throw .exhausted⟩
  | succ n ih =>
    refine ⟨?_, fun _ _ _ _ _ hf h => ih.applyStep hf h⟩
    intro K V e e' scope scope' he hc hs w w' hw
    by_cases hstop : stops e scope w
    · rw [eval_guarded_of_stops hstop]
      exact .excused hhalt
    · rw [eval_guarded hstop]
      exact ih.evalStep hctx he hc hs hw (hO K hs hc hstop)

end Engine

/-- For every end there is a failure that it is not. -/
theorem exists_unlike {α : Type} (r : EStateM.Result Halt World α) :
    ∃ e : EvalError, ∀ w, r ≠ .error (.failed e) w := by
  by_cases h : ∃ w, r = .error (.failed (.unbound "")) w
  · obtain ⟨w, rfl⟩ := h
    refine ⟨.unbound " ", fun w' heq => ?_⟩
    simp at heq
  · exact ⟨.unbound "", fun w heq => h ⟨w, heq⟩⟩

/-- In a run without a part that is stopped, some guarded engine does what the engine of its depth
does, and the run does not end with the failure of the guard. -/
theorem Engine.exists_guarded {ctx : Context} {stops : Guard} {n : Nat} {t : Task} {w : World}
    (h : Moment.Clear ctx stops ⟨n, t, w⟩) :
    ∃ fault, (guarded ctx stops (.failed fault) n).perform t w = (ofDepth ctx n).perform t w ∧
      ∀ w', (ofDepth ctx n).perform t w ≠ .error (.failed fault) w' := by
  obtain ⟨fault, hfault⟩ := exists_unlike ((ofDepth ctx n).perform t w)
  exact ⟨fault, perform_guarded h, hfault⟩

end TinyLisp
