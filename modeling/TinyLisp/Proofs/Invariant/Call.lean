import TinyLisp.Proofs.Invariant.Effect

/-!
# Calls and expansions keep invariants

The body of a function or of an expander runs in a frame of its own, inside the scope that it
was made in. An expansion is tried in the scope of the call, and every form on its way is good.
-/

namespace TinyLisp

open Invariant

variable {I : Invariant} {K : I.Stage} {scope : Scope} {en en' : Engine}

/-- What an expansion is asked for: a good expander and good argument forms. -/
theorem Invariant.KeptOutside.expanderCall (hI : I.KeptOutside) {w : World} (hw : I.Holds K w)
    (hs : I.Knows K scope) {form : Value} (h : I.Good K form) {name : String} {m : Expander}
    {args : List Value} (hcall : w.store.expanderCall? scope form = some (name, m, args)) :
    I.Node K (.expander m) ∧ I.Lists K args := by
  unfold Store.expanderCall? at hcall
  split at hcall
  · next name' args' hitems =>
    obtain ⟨m', hm, heq⟩ := Option.map_eq_some_iff.1 hcall
    cases heq
    refine ⟨hI.expander?_node hw hs hm, ?_⟩
    intro v hv
    exact h.elements? hitems v (List.mem_cons_of_mem _ hv)
  · exact absurd hcall (by simp)

namespace Invariant.Engines

/-! ## §1. Functions -/

/-- Once the scope of a call is open, the arguments are bound in it and the body is evaluated. -/
theorem callBody (hen : I.Engines en en') {c : Closure} (hc : I.Node K (.closure c))
    {args : List Value} (h : I.Lists K args) (hs : I.Active K scope) :
    I.Runs K (fun K' v => I.Good K' v)
      (Eval.bindParams c.params args scope c.label >>= fun _ =>
        Eval.body c.id >>= fun e => en.eval e scope)
      (Eval.bindParams c.params args scope c.label >>= fun _ =>
        Eval.body c.id >>= fun e => en'.eval e scope) := by
  have hI := hen.kept
  refine (hI.bindParams c.params hs h c.label).bind hI fun K₁ _ hK₁ _ => ?_
  refine (hI.closureBody (hI.node_mono hK₁ hc)).bind hI fun K₂ e hK₂ he => ?_
  exact hen.eval he (hI.active_mono (hK₁.trans hK₂) hs)

theorem applyClosure (hen : I.Engines en en') (hI : I.Kept) {c : Closure}
    (hc : I.Node K (.closure c)) {args : List Value} (h : I.Lists K args) :
    I.Runs K (fun K' v => I.Good K' v) (en.applyClosure c args) (en'.applyClosure c args) := by
  unfold Engine.applyClosure
  exact (hI.call hc).bind hen.kept fun K₁ inner hK₁ hinner =>
    hen.callBody (hI.node_mono hK₁ hc) (hI.lists_mono hK₁ h) hinner

/-! ## §2. Expanders -/

theorem unquoted {v : Value} (h : I.Good K v) : I.Good K v.unquoted := by
  cases v with
  | quote v => exact (Value.every_quote.1 h).2
  | _ => exact h

theorem runExpander (hen : I.Engines en en') (name : String) {m : Expander}
    (hm : I.Node K (.expander m)) {args : List Value} (h : I.Lists K args) :
    I.Runs K (fun K' v => I.Good K' v) (en.runExpander name m args)
      (en'.runExpander name m args) := by
  have hI := hen.kept
  unfold Engine.runExpander
  refine (hI.openFrame (hI.expander_scope hm)).bind hI fun K₁ inner hK₁ hinner => ?_
  refine (hI.bindParams m.params hinner.1 (hI.lists_mono hK₁ h) name).bind hI
    fun K₂ _ hK₂ _ => ?_
  refine (hI.expanderBody (hI.node_mono (hK₁.trans hK₂) hm)).bind hI fun K₃ e hK₃ he => ?_
  refine (hen.eval he (hI.active_mono (hK₂.trans hK₃) hinner.1)).bind hI fun K₄ v _ hv => ?_
  exact .pure (unquoted hv)

theorem settle (hen : I.Engines en en') (limit : Nat) (first : String) (hs : I.Knows K scope)
    (n : Nat) {form : Value} (h : I.Good K form) :
    I.Runs K (fun K' v => I.Good K' v) (en.settle limit first scope n form)
      (en'.settle limit first scope n form) := by
  have hI := hen.kept
  -- on the expansions that are left; each of them may lead to a later stage
  induction n generalizing K form with
  | zero =>
    unfold Engine.settle
    refine .get fun w hw => ?_
    cases w.store.expanderCall? scope form with
    | none => exact Runs.pure h w hw
    | some call => exact Runs.fail hI _ w hw
  | succ n ih =>
    unfold Engine.settle
    refine .get fun w hw => ?_
    cases hcall : w.store.expanderCall? scope form with
    | none => exact Runs.pure h w hw
    | some call =>
      obtain ⟨name, m, args⟩ := call
      obtain ⟨hm, hargs⟩ := hI.expanderCall hw hs h hcall
      have hruns := (hen.runExpander name hm hargs).bind hI
        fun K' v hK' hv => ih (hI.knows_mono hK' hs) hv
      exact hruns w hw

theorem expand (hen : I.Engines en en') (limit : Nat) (name : String) {m : Expander}
    (hm : I.Node K (.expander m)) {args : List Value} (h : I.Lists K args)
    (hs : I.Knows K scope) :
    I.Runs K (fun K' v => I.Good K' v) (en.expand limit name m args scope)
      (en'.expand limit name m args scope) := by
  have hI := hen.kept
  unfold Engine.expand
  exact (hen.runExpander name hm h).bind hI fun K' v hK' hv =>
    hen.settle limit name (hI.knows_mono hK' hs) _ hv

theorem macroexpand (hen : I.Engines en en') (limit : Nat) {form : Value} (h : I.Good K form)
    (hs : I.Knows K scope) :
    I.Runs K (fun K' v => I.Good K' v) (en.macroexpand limit form scope)
      (en'.macroexpand limit form scope) := by
  have hI := hen.kept
  unfold Engine.macroexpand
  refine .get fun w hw => ?_
  cases hcall : w.store.expanderCall? scope form with
  | none => exact Runs.fail hI _ w hw
  | some call =>
    obtain ⟨name, m, args⟩ := call
    obtain ⟨hm, hargs⟩ := hI.expanderCall hw hs h hcall
    exact hen.expand limit name hm hargs hs w hw

end Invariant.Engines

end TinyLisp
