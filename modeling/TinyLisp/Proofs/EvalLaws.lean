import TinyLisp.Eval.Step

/-!
# Laws of evaluations

How an evaluation made of two ends, and the world that it leaves behind; and what it is for a
primitive operation to give a value at once.
-/

namespace TinyLisp.Eval

variable {α β : Type} {w w' : World}

/-- The world that a computation leaves behind, whatever its end. -/
def after (x : Eval α) (w : World) : World :=
  match x w with
  | .ok _ w => w
  | .error _ w => w

theorem after_of_ok {x : Eval α} {a : α} (h : x w = .ok a w') : x.after w = w' := by
  unfold after
  rw [h]

theorem after_of_error {x : Eval α} {e : Halt} (h : x w = .error e w') : x.after w = w' := by
  unfold after
  rw [h]

theorem get_bind (k : World → Eval β) : (get >>= k) w = k w w :=
  rfl

theorem bind_of_ok {x : Eval α} {k : α → Eval β} {a : α} (h : x w = .ok a w') :
    (x >>= k) w = k a w' := by
  show EStateM.bind x k w = k a w'
  unfold EStateM.bind
  rw [h]

theorem bind_of_error {x : Eval α} {k : α → Eval β} {e : Halt} (h : x w = .error e w') :
    (x >>= k) w = .error e w' := by
  show EStateM.bind x k w = .error e w'
  unfold EStateM.bind
  rw [h]

/-- A sequence that succeeds does so step by step. -/
theorem ok_of_bind {x : Eval α} {k : α → Eval β} {b : β} (h : (x >>= k) w = .ok b w') :
    ∃ a w₁, x w = .ok a w₁ ∧ k a w₁ = .ok b w' := by
  cases hx : x w with
  | ok a w₁ =>
    rw [bind_of_ok hx] at h
    exact ⟨a, w₁, rfl, h⟩
  | error e w₁ =>
    rw [bind_of_error hx] at h
    exact absurd h (by simp)

theorem after_bind_of_ok {x : Eval α} {k : α → Eval β} {a : α} (h : x w = .ok a w') :
    (x >>= k).after w = (k a).after w' := by
  unfold after
  rw [bind_of_ok h]

theorem after_bind_of_error {x : Eval α} {k : α → Eval β} {e : Halt} (h : x w = .error e w') :
    (x >>= k).after w = w' :=
  after_of_error (bind_of_error h)

/-- The world that a result is given in. -/
def worldOf : EStateM.Result Halt World α → World
  | .ok _ w => w
  | .error _ w => w

theorem after_eq (x : Eval α) (w : World) : x.after w = worldOf (x w) := by
  unfold after
  cases x w with
  | ok a w' => rfl
  | error h w' => rfl

/-- What follows a result, unless it is a failure. -/
def andThen (r : EStateM.Result Halt World α) (k : α → Eval β) : EStateM.Result Halt World β :=
  match r with
  | .ok a w => k a w
  | .error e w => .error e w

theorem bind_eq (x : Eval α) (k : α → Eval β) (w : World) : (x >>= k) w = andThen (x w) k := by
  cases hx : x w with
  | ok a w₁ => exact bind_of_ok hx
  | error e w₁ => exact bind_of_error hx

theorem observe_of_ok {x : Eval α} {a : α} (h : x w = .ok a w') :
    observe x w = .ok (.ok a) w' := by
  unfold observe
  rw [h]

theorem observe_of_error {x : Eval α} {e : Halt} (h : x w = .error e w') :
    observe x w = .ok (.error e) w' := by
  unfold observe
  rw [h]

theorem checkArity_of_contains {a : Arity} {n : Nat} (h : a.contains n = true) (name : String) :
    checkArity a n name = pure () := by
  unfold checkArity Arity.check
  rw [if_pos h]
  rfl

theorem checkArity_of_not_contains {a : Arity} {n : Nat} (h : ¬ a.contains n = true)
    (name : String) : checkArity a n name = fail (.arity ⟨name, a, n⟩) := by
  unfold checkArity Arity.check
  rw [if_neg h]
  rfl

/-- To look a name up that means a value gives the value. -/
theorem lookup_of_ok {scope : Scope} {name : String} {v : Value}
    (h : w.store.lookup scope name = .ok v) : lookup scope name w = .ok v w := by
  show ofExcept (w.store.lookup scope name) w = _
  rw [h]
  rfl

end TinyLisp.Eval

namespace TinyLisp.Primitive

variable {p : Primitive} {args : List Value} {u v : Value}

theorem call_eq (h : p.arity.contains args.length = true) (en : Engine) :
    p.call en args = p.run en args := by
  unfold call
  rw [Eval.checkArity_of_contains h]
  rfl

/-- An operation gives a value for some arguments, whatever the engine, and changes nothing. -/
def Gives (p : Primitive) (args : List Value) (v : Value) : Prop :=
  ∀ en w, p.call en args w = .ok v w

/-- An operation refuses some arguments, whatever the engine, and changes nothing. -/
def Refuses (p : Primitive) (args : List Value) (fault : PrimitiveFault) : Prop :=
  ∀ en w, p.call en args w = .error (.failed (.primitive p fault)) w

/-- What an operation gives is settled by the arguments. -/
theorem Gives.unique (hu : p.Gives args u) (hv : p.Gives args v) : u = v := by
  have h := (hu .exhausted .initial).symm.trans (hv .exhausted .initial)
  cases h
  rfl

end TinyLisp.Primitive
