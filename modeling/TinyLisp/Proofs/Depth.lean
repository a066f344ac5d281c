import TinyLisp.Proofs.Invariant.Step

/-!
# Depth does not matter

A computation that ends, other than for want of depth, ends the same with every greater depth. So
what it ends with can be said without any depth (`Engine.Finishes`), and of two computations one
after the other it can be said part by part (`Engine.finishes_bind`).

That more depth changes nothing is a matter of running two engines side by side: it follows from
an invariant that claims nothing and is lax.
-/

namespace TinyLisp

/-! ## §1. Nothing claimed -/

/-- The invariant that claims nothing, and lets a computation stop for want of depth. -/
def Invariant.anything : Invariant where
  Stage := Unit
  order := PUnit.instLinearOrder.toPreorder
  Holds _ _ := True
  Left _ _ := True
  Node _ _ := True
  Frame _ _ := True
  Works _ _ := True
  Complete _ _ := True
  Top _ := True
  Filling _ _ _ _ := True
  hollow := True
  lax := True

namespace Invariant

theorem later_anything {w : World} {P : anything.Stage → Prop} (h : P ()) :
    anything.Later () w P :=
  ⟨(), le_refl _, trivial, h⟩

theorem good_anything (v : Value) : anything.Good () v :=
  fun _ _ => trivial

theorem fits_anything (e : Expr) : anything.Fits () e :=
  fun _ _ _ _ => trivial

theorem lists_anything (vs : List Value) : anything.Lists () vs :=
  fun v _ => good_anything v

theorem active_anything (scope : Scope) : anything.Active () scope :=
  ⟨fun _ _ => trivial, fun _ _ => trivial, fun _ => trivial⟩

theorem kept_anything : anything.Kept where
  node_mono _ _ := trivial
  frame_mono _ _ := trivial
  works_mono _ _ := trivial
  complete_mono _ _ := trivial
  top_mono _ _ := trivial
  left_of_later _ _ := trivial
  left_of_holds _ := trivial
  frame_of_works _ := trivial
  top_of_root _ _ := trivial
  plain _ := trivial
  pair _ _ _ := later_anything trivial
  record _ _ _ _ _ := later_anything trivial
  updated _ _ _ _ _ := later_anything trivial
  form _ _ := later_anything (good_anything _)
  gensym _ _ := later_anything trivial
  output _ _ := later_anything trivial
  closure _ _ _ _ _ _ _ _ := later_anything trivial
  expander _ _ _ _ _ _ _ := later_anything trivial
  closure_body _ _ := fits_anything _
  expander_body _ _ := fits_anything _
  expander_scope _ _ _ := trivial
  call := by
    intro K c _ w _
    refine .same ?_
    cases Eval.callScope c w with
    | ok inner w' => exact later_anything (active_anything inner)
    | error e w' => trivial
  extend _ := later_anything ⟨trivial, trivial⟩
  bind _ _ _ _ _ := later_anything trivial
  lookup _ _ _ _ := good_anything _
  filling _ _ _ := ⟨(), trivial, trivial⟩
  filling_later _ _ := trivial
  filling_node _ _ := trivial
  filling_frame _ _ := trivial
  filling_works _ := trivial
  fill _ _ _ := ⟨(), trivial, trivial, id⟩
  filled _ _ := later_anything ⟨trivial, id⟩
  unfilled _ _ := trivial
  module _ _ _ _ _ _ := later_anything trivial
  shown _ _ _ _ := good_anything _
  register _ _ _ := later_anything trivial
  registered _ _ := trivial
  kept _ _ := trivial
  file _ _ _ := ⟨(), trivial, trivial, fun _ _ _ _ _ _ _ => later_anything ⟨trivial, id⟩,
    fun _ _ => trivial⟩

end Invariant

open Invariant (kept_anything good_anything fits_anything lists_anything active_anything)

namespace Engine

variable {α β : Type} {ctx : Context} {scope : Scope} {w w' : World}

/-! ## §2. More depth -/

/-- What a computation over engines ends with, other than for want of depth, it ends with at every
greater depth. -/
def Deepens (ctx : Context) (x : Engine → Eval α) : Prop :=
  ∀ m n, m ≤ n → ∀ w, (∀ w', x (ofDepth ctx m) w ≠ .error .exhausted w') →
    x (ofDepth ctx n) w = x (ofDepth ctx m) w

/-- It is enough that the computation can be run over two engines side by side. -/
theorem deepens_of_runs {x : Engine → Eval α}
    (h : ∀ en en', Invariant.anything.Engines en en' →
      ∃ P, Invariant.anything.Runs () P (x en) (x en')) : Deepens ctx x := by
  intro m n hmn w hne
  obtain ⟨P, hruns⟩ := h _ _ (kept_anything.engines_of_le trivial ctx hmn)
  exact (((hruns w trivial).agrees fun _ => id).eq_of_ne hne).symm

theorem deepens_eval (e : Expr) (scope : Scope) : Deepens ctx fun en => en.eval e scope :=
  deepens_of_runs fun _ _ hen => ⟨_, hen.eval (fits_anything e) (active_anything scope)⟩

theorem deepens_bindNested (scope : Scope) (bs : List (String × Expr)) :
    Deepens ctx fun en => en.bindNested scope bs :=
  deepens_of_runs fun _ _ hen =>
    ⟨_, hen.bindNested (fun b _ => fits_anything b.2) (active_anything scope)⟩

theorem deepens_letScope (scope : Scope) (kind : LetKind) (bs : List (String × Expr)) :
    Deepens ctx fun en => en.letScope scope kind bs :=
  deepens_of_runs fun _ _ hen =>
    ⟨_, hen.letScope kind (fun b _ => fits_anything b.2) (active_anything scope)⟩

theorem deepens_evalForm (scope : Scope) (form : Value) :
    Deepens ctx fun en => en.evalForm scope form :=
  deepens_of_runs fun _ _ hen => ⟨_, hen.evalForm (good_anything form) (active_anything scope)⟩

theorem deepens_runExpander (name : String) (m : Expander) (args : List Value) :
    Deepens ctx fun en => en.runExpander name m args := by
  refine deepens_of_runs fun _ _ hen => ⟨_, hen.runExpander name ?_ (lists_anything args)⟩
  trivial

theorem deepens_settle (limit : Nat) (first : String) (scope : Scope) (n : Nat) (form : Value) :
    Deepens ctx fun en => en.settle limit first scope n form := by
  refine deepens_of_runs fun _ _ hen => ⟨_, hen.settle limit first ?_ n (good_anything form)⟩
  exact (active_anything scope).knows

theorem Deepens.bind {x : Engine → Eval α} {k : Engine → α → Eval β} (hx : Deepens ctx x)
    (hk : ∀ a, Deepens ctx fun en => k en a) : Deepens ctx fun en => x en >>= k en := by
  intro m n hmn w hne
  show (x (ofDepth ctx n) >>= k (ofDepth ctx n)) w = (x (ofDepth ctx m) >>= k (ofDepth ctx m)) w
  cases hm : x (ofDepth ctx m) w with
  | ok a w₁ =>
    have hbind : (x (ofDepth ctx m) >>= k (ofDepth ctx m)) w = k (ofDepth ctx m) a w₁ :=
      Eval.bind_of_ok hm
    have hn : x (ofDepth ctx n) w = .ok a w₁ := by
      rw [hx m n hmn w (by rw [hm]; simp), hm]
    -- the second part does not run out either, or the whole would have
    have hka : ∀ w', k (ofDepth ctx m) a w₁ ≠ .error .exhausted w' := by
      intro w' h
      exact hne w' (hbind.trans h)
    rw [hbind, Eval.bind_of_ok hn]
    exact hk a m n hmn w₁ hka
  | error e w₁ =>
    have hbind : (x (ofDepth ctx m) >>= k (ofDepth ctx m)) w = .error e w₁ :=
      Eval.bind_of_error hm
    have hne' : ∀ w', x (ofDepth ctx m) w ≠ .error .exhausted w' := by
      intro w' h
      rw [hm] at h
      cases h
      exact hne w₁ hbind
    have hn : x (ofDepth ctx n) w = .error e w₁ := by
      rw [hx m n hmn w hne', hm]
    rw [hbind, Eval.bind_of_error hn]

/-! ## §3. What computations end with -/

/-- With enough depth, a computation over engines ends like this when it is run in a world. -/
def Finishes (ctx : Context) (x : Engine → Eval α) (w : World)
    (r : EStateM.Result Halt World α) : Prop :=
  (∃ n, x (ofDepth ctx n) w = r) ∧ ∀ w', r ≠ .error .exhausted w'

variable {x : Engine → Eval α} {k : Engine → α → Eval β} {r r' : EStateM.Result Halt World α}

/-- Computations that are the same at every depth end alike. -/
theorem finishes_congr {y : Engine → Eval α}
    (h : ∀ n, x (ofDepth ctx n) w = y (ofDepth ctx n) w) :
    Finishes ctx x w r ↔ Finishes ctx y w r := by
  unfold Finishes
  simp only [h]

/-- A computation ends in one way only. -/
theorem Finishes.unique (hx : Deepens ctx x) (h : Finishes ctx x w r) (h' : Finishes ctx x w r') :
    r = r' := by
  obtain ⟨⟨m, rfl⟩, hm⟩ := h
  obtain ⟨⟨n, rfl⟩, hn⟩ := h'
  rcases Nat.le_total m n with hmn | hnm
  · exact (hx m n hmn w hm).symm
  · exact hx n m hnm w hn

/-- After a computation that ends with a value, what follows it decides how the whole ends. -/
theorem finishes_bind (hx : Deepens ctx x) (hk : ∀ a, Deepens ctx fun en => k en a) {a : α}
    (h : Finishes ctx x w (.ok a w')) {r : EStateM.Result Halt World β} :
    Finishes ctx (fun en => x en >>= k en) w r ↔ Finishes ctx (fun en => k en a) w' r := by
  obtain ⟨⟨m, hm⟩, -⟩ := h
  have hlarge : ∀ n, m ≤ n → x (ofDepth ctx n) w = .ok a w' := by
    intro n hmn
    rw [hx m n hmn w (by rw [hm]; simp), hm]
  constructor
  · rintro ⟨⟨n, rfl⟩, hne⟩
    refine ⟨⟨max m n, ?_⟩, hne⟩
    have hdeep := hx.bind hk n (max m n) (Nat.le_max_right m n) w hne
    exact (Eval.bind_of_ok (hlarge _ (Nat.le_max_left m n))).symm.trans hdeep
  · rintro ⟨⟨n, rfl⟩, hne⟩
    refine ⟨⟨max m n, ?_⟩, hne⟩
    have hdeep := hk a n (max m n) (Nat.le_max_right m n) w' hne
    exact (Eval.bind_of_ok (hlarge _ (Nat.le_max_left m n))).trans hdeep

/-- Two computations one after the other end with a value only if the first one does. -/
theorem finishes_bind_ok {b : β} (h : Finishes ctx (fun en => x en >>= k en) w (.ok b w')) :
    ∃ a w₁, Finishes ctx x w (.ok a w₁) ∧ Finishes ctx (fun en => k en a) w₁ (.ok b w') := by
  obtain ⟨⟨n, hn⟩, -⟩ := h
  cases hx : x (ofDepth ctx n) w with
  | error e w₁ => exact absurd ((Eval.bind_of_error hx).symm.trans hn) (by simp)
  | ok a w₁ =>
    have hk : k (ofDepth ctx n) a w₁ = .ok b w' := (Eval.bind_of_ok hx).symm.trans hn
    exact ⟨a, w₁, ⟨⟨n, hx⟩, by simp⟩, ⟨n, hk⟩, by simp⟩

/-- If the ends of what follows a computation are related to ends of something else that may follow
it, so are those of the two wholes. -/
theorem exists_finishes_bind {k' : Engine → α → Eval β} (hx : Deepens ctx x)
    (hk : ∀ a, Deepens ctx fun en => k en a) (hk' : ∀ a, Deepens ctx fun en => k' en a)
    {Q : EStateM.Result Halt World β → EStateM.Result Halt World β → Prop}
    (herror : ∀ e w', Finishes ctx x w (.error e w') → Q (.error e w') (.error e w'))
    (hok : ∀ a w', Finishes ctx x w (.ok a w') → ∀ r, Finishes ctx (fun en => k en a) w' r →
      ∃ r', Finishes ctx (fun en => k' en a) w' r' ∧ Q r r')
    {r : EStateM.Result Halt World β} (h : Finishes ctx (fun en => x en >>= k en) w r) :
    ∃ r', Finishes ctx (fun en => x en >>= k' en) w r' ∧ Q r r' := by
  obtain ⟨⟨n, hn⟩, hne⟩ := id h
  cases hrun : x (ofDepth ctx n) w with
  | error e w₁ =>
    -- the first part fails, whatever follows it
    have hfails : ∀ l : Engine → α → Eval β,
        (x (ofDepth ctx n) >>= l (ofDepth ctx n)) w = .error e w₁ :=
      fun _ => Eval.bind_of_error hrun
    obtain rfl : r = .error e w₁ := hn.symm.trans (hfails k)
    refine ⟨.error e w₁, ⟨⟨n, hfails k'⟩, hne⟩, herror e w₁ ⟨⟨n, hrun⟩, fun w' heq => ?_⟩⟩
    cases heq
    exact hne w₁ rfl
  | ok a w₁ =>
    have hfirst : Finishes ctx x w (.ok a w₁) := ⟨⟨n, hrun⟩, by simp⟩
    obtain ⟨r', hr', hQ⟩ := hok a w₁ hfirst _ ((finishes_bind hx hk hfirst).1 h)
    exact ⟨r', (finishes_bind hx hk' hfirst).2 hr', hQ⟩

/-- What follows a computation may be exchanged for something that always ends alike. -/
theorem finishes_bind_congr {k' : Engine → α → Eval β} (hx : Deepens ctx x)
    (hk : ∀ a, Deepens ctx fun en => k en a) (hk' : ∀ a, Deepens ctx fun en => k' en a)
    (h : ∀ a w' r, Finishes ctx (fun en => k en a) w' r ↔ Finishes ctx (fun en => k' en a) w' r)
    {r : EStateM.Result Halt World β} :
    Finishes ctx (fun en => x en >>= k en) w r ↔ Finishes ctx (fun en => x en >>= k' en) w r := by
  constructor
  · intro hr
    obtain ⟨r', hr', rfl⟩ := exists_finishes_bind (Q := Eq) hx hk hk' (fun _ _ _ => rfl)
      (fun a w' _ r hr => ⟨r, (h a w' r).1 hr, rfl⟩) hr
    exact hr'
  · intro hr
    obtain ⟨r', hr', rfl⟩ := exists_finishes_bind (Q := Eq) hx hk' hk (fun _ _ _ => rfl)
      (fun a w' _ r hr => ⟨r, (h a w' r).2 hr, rfl⟩) hr
    exact hr'

/-- What fails without depth, and with one level of depth more does what something else does, ends
as that does. -/
theorem finishes_succ {y : Engine → Eval α} (hzero : x (ofDepth ctx 0) w = .error .exhausted w)
    (hsucc : ∀ n, x (ofDepth ctx (n + 1)) w = y (ofDepth ctx n) w) :
    Finishes ctx x w r ↔ Finishes ctx y w r := by
  constructor
  · rintro ⟨⟨n, hn⟩, hne⟩
    refine ⟨?_, hne⟩
    cases n with
    | zero => exact absurd (hn.symm.trans hzero) (hne w)
    | succ n => exact ⟨n, (hsucc n).symm.trans hn⟩
  · rintro ⟨⟨n, hn⟩, hne⟩
    exact ⟨⟨n + 1, (hsucc n).trans hn⟩, hne⟩

/-- With one level of depth more, an expression ends as one step of its evaluation does. -/
theorem finishes_eval {e : Expr} {scope : Scope} {r : EStateM.Result Halt World Value} :
    Finishes ctx (fun en => en.eval e scope) w r ↔
      Finishes ctx (fun en => evalStep ctx en e scope) w r :=
  finishes_succ rfl fun _ => rfl

end Engine

end TinyLisp
