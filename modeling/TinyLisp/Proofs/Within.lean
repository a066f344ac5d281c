import TinyLisp.Proofs.Confined
import TinyLisp.Proofs.EvalLaws

/-!
# Evaluation within a scope

`Eval.Within scope x` says that a computation `x` writes to the innermost frame of a scope, to
the slots that it binds and to what it makes itself, and to nothing else. It is kept by
sequencing. A computation may also *open* a scope of its own and hand it to one that is within
that scope (`Within.enter`); nothing is then said of the frame opened, for it is new.
-/

namespace TinyLisp.Eval

open Store (Confined Fresh)

variable {α β : Type} {scope inner : Scope} {w w' : World}

/-! ## §1. Working within a scope -/

/-- The innermost frame of a scope is there, if the scope has frames. -/
def Reaches (w : World) (scope : Scope) : Prop :=
  ∀ f, scope.head? = some f → f < w.store.frames.size

/-- A frame that is there stays there. -/
theorem Reaches.later {o : Option FrameId} (h : Reaches w scope)
    (hc : Confined o w.store w'.store) : Reaches w' scope :=
  fun f hf => Nat.lt_of_lt_of_le (h f hf) hc.frames_le

/-- A computation is within a scope if its changes are confined to the innermost frame of the
scope. Within a scope without frames, it changes nothing that is there. -/
def Within (scope : Scope) (x : Eval α) : Prop :=
  ∀ w, Reaches w scope → Confined scope.head? w.store (x.after w).store

/-- A computation that leaves the store alone is within every scope. -/
theorem Within.of_store_eq {x : Eval α} (h : ∀ w, (x.after w).store = w.store) :
    Within scope x := by
  intro w _
  rw [h]
  exact .refl scope.head? w.store

/-- What changes nothing that is there is within every scope. -/
theorem Within.of_nil {x : Eval α} (h : Within [] x) : Within scope x := by
  intro w hr
  exact (h w fun f hf => absurd hf (by simp)).of_none hr

theorem within_pure (a : α) : Within scope (pure a : Eval α) :=
  .of_store_eq fun _ => rfl

theorem within_throw (e : Halt) : Within scope (throw e : Eval α) :=
  .of_store_eq fun _ => rfl

theorem within_get : Within scope (get : Eval World) :=
  .of_store_eq fun _ => rfl

theorem Within.bind {x : Eval α} {k : α → Eval β} (hx : Within scope x)
    (hk : ∀ a, Within scope (k a)) : Within scope (x >>= k) := by
  intro w hr
  have h := hx w hr
  cases hw : x w with
  | ok a w1 =>
    rw [after_of_ok hw] at h
    rw [after_bind_of_ok hw]
    exact h.trans (hk a w1 (hr.later h))
  | error e w1 =>
    rw [after_of_error hw] at h
    rw [after_bind_of_error hw]
    exact h

/-- Inside a fresh scope a computation may do what it likes in that scope's innermost frame. -/
theorem Within.inside {y : Eval α} {s : Store} {o : Option FrameId} (hy : Within inner y)
    (ho : ∀ f, o = some f → f < s.frames.size) (hc : Confined o s w.store)
    (hi : Fresh s w.store inner) :
    Confined o s (y.after w).store ∧ Fresh s (y.after w).store inner := by
  have h := hy w fun g hg => (hi g hg).2.1
  exact ⟨hc.inside ho hi h, hi.later hc.slots_le h⟩

/-! ## §2. Opening scopes -/

/-- A computation is within a scope, and what it gives stands in a relation to the stores before
and after it. -/
def Gives (P : Store → Store → Scope → Prop) (scope : Scope) (x : Eval Scope) : Prop :=
  ∀ w, Reaches w scope → Confined scope.head? w.store (x.after w).store ∧
    ∀ inner w', x w = .ok inner w' → P w.store w'.store inner

/-- A computation opens a scope if it is within the scope around it and gives a fresh one. -/
def Opens : Scope → Eval Scope → Prop :=
  Gives Fresh

/-- A computation nests a scope if it is within it and gives it back or a fresh one. -/
def Nests (scope : Scope) : Eval Scope → Prop :=
  Gives (fun s t inner => inner = scope ∨ Fresh s t inner) scope

theorem Gives.within {P : Store → Store → Scope → Prop} {x : Eval Scope}
    (h : Gives P scope x) : Within scope x :=
  fun w hr => (h w hr).1

theorem Opens.nests {x : Eval Scope} (h : Opens scope x) : Nests scope x := by
  intro w hr
  obtain ⟨hc, hi⟩ := h w hr
  exact ⟨hc, fun inner w' hw => .inr (hi inner w' hw)⟩

theorem nests_pure (scope : Scope) : Nests scope (pure scope) := by
  intro w _
  refine ⟨.refl _ w.store, ?_⟩
  intro inner w' hw
  cases hw
  exact .inl rfl

/-- Opening a scope, working in it, and going on outside. -/
theorem Within.enter {x : Eval Scope} {y : Scope → Eval α} {k : Scope → α → Eval β}
    (hx : Opens scope x) (hy : ∀ inner, Within inner (y inner))
    (hk : ∀ inner a, Within scope (k inner a)) :
    Within scope (x >>= fun inner => y inner >>= k inner) := by
  intro w hr
  obtain ⟨hc, hi⟩ := hx w hr
  cases hw : x w with
  | error e w1 =>
    rw [after_of_error hw] at hc
    rw [after_bind_of_error hw]
    exact hc
  | ok inner w1 =>
    rw [after_of_ok hw] at hc
    obtain ⟨hc', -⟩ := (hy inner).inside hr hc (hi inner w1 hw)
    rw [after_bind_of_ok hw]
    cases hv : y inner w1 with
    | error e w2 =>
      rw [after_of_error hv] at hc'
      rw [after_bind_of_error hv]
      exact hc'
    | ok a w2 =>
      rw [after_of_ok hv] at hc'
      rw [after_bind_of_ok hv]
      exact hc'.trans (hk inner a w2 (hr.later hc'))

/-- Opening a scope and ending in it. -/
theorem Within.open {x : Eval Scope} {y : Scope → Eval α} (hx : Opens scope x)
    (hy : ∀ inner, Within inner (y inner)) : Within scope (x >>= y) := by
  have h : Within scope (x >>= fun inner => y inner >>= fun a => (pure a : Eval α)) :=
    Within.enter hx hy fun _ a => within_pure a
  simpa using h

/-- Work done before a scope is given, if the relation to the stores holds since earlier ones. -/
theorem Gives.after {P : Store → Store → Scope → Prop} {x : Eval α} {y : α → Eval Scope}
    (hP : ∀ {o s t u i}, Confined o s t → P t u i → P s u i) (hx : Within scope x)
    (hy : ∀ a, Gives P scope (y a)) : Gives P scope (x >>= y) := by
  intro w hr
  have hc := hx w hr
  cases hw : x w with
  | error e w1 =>
    rw [after_of_error hw] at hc
    rw [after_bind_of_error hw]
    refine ⟨hc, ?_⟩
    intro inner w' h
    rw [bind_of_error hw] at h
    exact absurd h (by simp)
  | ok a w1 =>
    rw [after_of_ok hw] at hc
    obtain ⟨hc', hi⟩ := hy a w1 (hr.later hc)
    rw [after_bind_of_ok hw]
    refine ⟨hc.trans hc', ?_⟩
    intro inner w' h
    rw [bind_of_ok hw] at h
    exact hP hc (hi inner w' h)

/-- Work done before a scope is opened. -/
theorem Opens.after {x : Eval α} {y : α → Eval Scope} (hx : Within scope x)
    (hy : ∀ a, Opens scope (y a)) : Opens scope (x >>= y) :=
  Gives.after (fun hc h => h.since hc) hx hy

/-- Work done before a scope is nested. -/
theorem Nests.after {x : Eval α} {y : α → Eval Scope} (hx : Within scope x)
    (hy : ∀ a, Nests scope (y a)) : Nests scope (x >>= y) := by
  refine Gives.after ?_ hx hy
  intro o s t u i hc h
  exact h.imp_right fun hfr => hfr.since hc

/-- A scope nested in one just opened is opened by the whole. -/
theorem Opens.nest {x : Eval Scope} {y : Scope → Eval Scope} (hx : Opens scope x)
    (hy : ∀ inner, Nests inner (y inner)) : Opens scope (x >>= y) := by
  intro w hr
  have hin : ∀ inner, Within inner (y inner) := fun inner => (hy inner).within
  refine ⟨Within.open hx hin w hr, ?_⟩
  intro inner' w2 h
  obtain ⟨hc, hi⟩ := hx w hr
  cases hw : x w with
  | error e w1 =>
    rw [bind_of_error hw] at h
    exact absurd h (by simp)
  | ok inner w1 =>
    rw [bind_of_ok hw] at h
    rw [after_of_ok hw] at hc
    have hfresh := hi inner w1 hw
    obtain ⟨-, hkept⟩ := (hin inner).inside hr hc hfresh
    rw [after_of_ok h] at hkept
    -- the scope nested last is the one just opened, or fresh with respect to it
    rcases (hy inner w1 fun g hg => (hfresh g hg).2.1).2 inner' w2 h with rfl | hnew
    · exact hkept
    · exact hnew.since hc

/-! ## §3. The effects of evaluation -/

theorem within_fail (e : EvalError) : Within scope (fail e : Eval α) :=
  within_throw _

theorem within_typeError (fault : TypeFault) : Within scope (typeError fault : Eval α) :=
  within_fail _

theorem within_ofExcept (r : Except EvalError α) : Within scope (ofExcept r) := by
  cases r with
  | ok a => exact within_pure a
  | error e => exact within_fail e

theorem within_checkArity (a : Arity) (n : Nat) (name : String) :
    Within scope (checkArity a n name) :=
  within_ofExcept _

/-- To look at the end of a computation changes nothing more. -/
theorem Within.observe {x : Eval α} (hx : Within scope x) : Within scope (observe x) := by
  intro w hr
  have h := hx w hr
  have ha : (Eval.observe x).after w = x.after w := by
    unfold Eval.observe after
    cases hw : x w with
    | ok a w1 => simp only [hw]
    | error e w1 => simp only [hw]
  rw [ha]
  exact h

/-- A new frame is fresh, whichever scope it is put inside. -/
theorem opens_extend (scope outer : Scope) : Opens scope (extend outer) := by
  intro w _
  refine ⟨Store.confined_newFrame _ w.store, ?_⟩
  intro inner w' hw
  cases hw
  exact Store.fresh_newFrame w.store outer

theorem within_bindAll (bs : List (String × Value)) : Within scope (bindAll scope bs) := by
  intro w _
  cases scope with
  | nil => exact .refl none w.store
  | cons f rest => exact Store.confined_bindAll w.store f bs

theorem within_bindName (name : String) (v : Value) : Within scope (bindName scope name v) := by
  cases scope with
  | nil => exact .of_store_eq fun _ => rfl
  | cons f rest => exact within_bindAll [(name, v)]

theorem within_lookup (scope other : Scope) (name : String) :
    Within scope (lookup other name) :=
  within_get.bind fun _ => within_ofExcept _

theorem within_expander? (scope other : Scope) (name : String) :
    Within scope (expander? other name) :=
  within_get.bind fun _ => within_pure _

theorem within_newBody (e : Expr) : Within scope (newBody e) :=
  .of_store_eq fun _ => rfl

theorem within_body (id : Nat) : Within scope (body id) :=
  within_get.bind fun _ => within_pure _

theorem within_newTag : Within scope newTag :=
  .of_store_eq fun _ => rfl

theorem within_newPair (a d : Value) : Within scope (newPair a d) :=
  within_newTag.bind fun _ => within_pure _

theorem within_newChain (tail : Value) (vs : List Value) : Within scope (newChain tail vs) := by
  induction vs with
  | nil => exact within_pure tail
  | cons v vs ih =>
    unfold newChain
    exact ih.bind fun _ => within_newPair v _

theorem within_newList (vs : List Value) : Within scope (newList vs) :=
  within_newChain .nil vs

theorem within_tagForm (form : Value) : Within scope (tagForm form) :=
  .of_store_eq fun _ => rfl

theorem within_write (s : String) : Within scope (write s) :=
  .of_store_eq fun _ => rfl

end TinyLisp.Eval
