import TinyLisp.Proofs.Expansion
import TinyLisp.Proofs.Course.Order
import TinyLisp.Proofs.Stable

/-!
# Expansion is bounded and comes to rest

To expand a call of an expander is to make its successive expansions, each from the one before as
long as that is itself a call (`Engine.Expands`), but no more of them than a limit allows. There are
three ways in which this ends (`Engine.Settled`): with the first expansion that is no call; with a
failure once the limit is reached and there is still a call; or with the failure of an expander's
body. Which way it is, and with what result, is decided by the successive expansions alone.

The bodies that are run on the way may be any code. They open frames of their own, so that they
cannot change which names stand for expanders where the call is.
-/

namespace TinyLisp

open Store (Confined)

/-! ## §1. Successive expansions -/

namespace Engine

/-- After some expansions, each of a call of an expander, another form has come of a form. -/
inductive Expands (en : Engine) (scope : Scope) : Nat → Value → World → Value → World → Prop
  | refl (form : Value) (w : World) : Expands en scope 0 form w form w
  | head {k : Nat} {form expansion form' : Value} {w w₁ w' : World} {name : String} {m : Expander}
    {args : List Value} (hcall : w.store.expanderCall? scope form = some (name, m, args))
    (hrun : en.runExpander name m args w = .ok expansion w₁)
    (h : Expands en scope k expansion w₁ form' w') : Expands en scope (k + 1) form w form' w'

/-- What a form comes to if it may be expanded at most `n` times: the first of its successive
expansions that is no call; a failure that names the limit, if the last one allowed is still a call;
or the failure of a body that is run before. -/
inductive Settled (en : Engine) (scope : Scope) (limit : Nat) (first : String) (n : Nat)
    (form : Value) (w : World) : EStateM.Result Halt World Value → Prop
  | rest {k : Nat} {form' : Value} {w' : World} (hk : k ≤ n)
    (h : en.Expands scope k form w form' w') (hcall : w'.store.expanderCall? scope form' = none) :
    Settled en scope limit first n form w (.ok form' w')
  | limit {form' : Value} {w' : World} {call : String × Expander × List Value}
    (h : en.Expands scope n form w form' w')
    (hcall : w'.store.expanderCall? scope form' = some call) :
    Settled en scope limit first n form w (.error (.failed (.expansionLimit first limit)) w')
  | failed {k : Nat} {form' : Value} {w' w'' : World} {name : String} {m : Expander}
    {args : List Value} {e : Halt} (hk : k < n) (h : en.Expands scope k form w form' w')
    (hcall : w'.store.expanderCall? scope form' = some (name, m, args))
    (hrun : en.runExpander name m args w' = .error e w'') :
    Settled en scope limit first n form w (.error e w'')

variable {en : Engine} {ctx : Context} {scope : Scope} {limit k n : Nat} {first name : String}
  {m : Expander} {args : List Value} {form form' : Value} {w w' : World}
  {r : EStateM.Result Halt World Value}

/-- What the expansion of a call comes to, the call itself comes to with one expansion more. -/
theorem Settled.head {expansion : Value} {w₁ : World}
    (hcall : w.store.expanderCall? scope form = some (name, m, args))
    (hrun : en.runExpander name m args w = .ok expansion w₁)
    (h : en.Settled scope limit first n expansion w₁ r) :
    en.Settled scope limit first (n + 1) form w r := by
  cases h with
  | rest hk h hcall' => exact .rest (Nat.succ_le_succ hk) (.head hcall hrun h) hcall'
  | limit h hcall' => exact .limit (.head hcall hrun h) hcall'
  | failed hk h hcall' hrun' => exact .failed (Nat.succ_lt_succ hk) (.head hcall hrun h) hcall' hrun'

/-- Expanding a form on comes to one of the three. -/
theorem settled_settle (n : Nat) (form : Value) (w : World) :
    en.Settled scope limit first n form w (en.settle limit first scope n form w) := by
  induction n generalizing form w with
  | zero =>
    cases hcall : w.store.expanderCall? scope form with
    | none =>
      rw [settle_of_none limit first 0 hcall]
      exact .rest (Nat.le_refl 0) (.refl form w) hcall
    | some call =>
      rw [settle_zero_of_some limit first hcall]
      exact .limit (.refl form w) hcall
  | succ n ih =>
    cases hcall : w.store.expanderCall? scope form with
    | none =>
      rw [settle_of_none limit first (n + 1) hcall]
      exact .rest (Nat.zero_le _) (.refl form w) hcall
    | some call =>
      obtain ⟨name, m, args⟩ := call
      rw [settle_succ_of_some limit first n hcall]
      cases hrun : en.runExpander name m args w with
      | error e w₁ =>
        rw [Eval.bind_of_error hrun]
        exact .failed (Nat.succ_pos n) (.refl form w) hcall hrun
      | ok expansion w₁ =>
        rw [Eval.bind_of_ok hrun]
        exact .head hcall hrun (ih expansion w₁)

/-- After some expansions there are so many fewer left. -/
theorem Expands.settle_eq (h : en.Expands scope k form w form' w') (n : Nat) :
    en.settle limit first scope (k + n) form w = en.settle limit first scope n form' w' := by
  induction h with
  | refl form w => rw [Nat.zero_add]
  | @head k form expansion form' w w₁ w' name m args hcall hrun h ih =>
    rw [Nat.add_right_comm, settle_succ_of_some limit first (k + n) hcall, Eval.bind_of_ok hrun, ih]

/-- And the three exclude each other: a form comes to one thing only. -/
theorem Settled.settle_eq (h : en.Settled scope limit first n form w r) :
    en.settle limit first scope n form w = r := by
  cases h with
  | rest hk h hcall =>
    obtain ⟨j, rfl⟩ := Nat.exists_eq_add_of_le hk
    rw [h.settle_eq j, settle_of_none limit first j hcall]
  | limit h hcall =>
    have hlast : en.settle limit first scope (n + 0) form w = _ := h.settle_eq 0
    rw [Nat.add_zero] at hlast
    rw [hlast, settle_zero_of_some limit first hcall]
  | failed hk h hcall hrun =>
    obtain ⟨j, rfl⟩ := Nat.exists_eq_add_of_lt hk
    rw [Nat.add_assoc, h.settle_eq (j + 1), settle_succ_of_some limit first j hcall,
      Eval.bind_of_error hrun]

/-- A call is expanded as a form that may be expanded as often as the limit says. -/
theorem macroexpand_eq_settle (en : Engine) (hlimit : 1 ≤ limit)
    (hcall : w.store.expanderCall? scope form = some (first, m, args)) :
    en.macroexpand limit form scope w = en.expand limit first m args scope w ∧
      en.expand limit first m args scope w = en.settle limit first scope limit form w := by
  obtain ⟨n, rfl⟩ : ∃ n, limit = n + 1 := ⟨limit - 1, by omega⟩
  refine ⟨?_, ?_⟩
  · unfold macroexpand
    rw [Eval.get_bind, hcall]
  · rw [settle_succ_of_some (n + 1) first n hcall]
    rfl

end Engine

/-! ## §2. How many bodies are run -/

namespace Course

variable {α β : Type} {c : Course α} {m n : Nat}

/-- On every path, a course asks for at most so many tasks. -/
def AtMost : Nat → Course α → Prop
  | _, ends _ => True
  | 0, asks _ _ _ => False
  | n + 1, asks _ _ go => ∀ r, (go r).AtMost n

theorem atMost_ends (n : Nat) (r : EStateM.Result Halt World α) : (ends r).AtMost n := by
  cases n <;> exact trivial

theorem AtMost.mono (h : c.AtMost m) (hmn : m ≤ n) : c.AtMost n := by
  induction c generalizing m n with
  | ends r => exact atMost_ends n r
  | asks t w go ih =>
    cases m with
    | zero => exact h.elim
    | succ m =>
      obtain ⟨n, rfl⟩ : ∃ k, n = k + 1 := ⟨n - 1, by omega⟩
      exact fun r => ih r (h r) (Nat.le_of_succ_le_succ hmn)

theorem AtMost.andThen {k : EStateM.Result Halt World α → Course β} (h : c.AtMost m)
    (hk : ∀ r, (k r).AtMost n) : (c.andThen k).AtMost (m + n) := by
  induction c generalizing m with
  | ends r => exact (hk r).mono (Nat.le_add_left n m)
  | asks t w go ih =>
    cases m with
    | zero => exact h.elim
    | succ m =>
      rw [Nat.succ_add]
      exact fun r => ih r (h r)

theorem AtMost.length_tasks (h : c.AtMost n) (en : Engine) : (c.tasks en).length ≤ n := by
  induction c generalizing n with
  | ends r => exact Nat.zero_le n
  | asks t w go ih =>
    cases n with
    | zero => exact h.elim
    | succ n => exact Nat.succ_le_succ (ih _ (h _))

end Course

/-- From every world, a computation over engines takes a calm course that asks for at most so many
tasks. -/
def Eval.Asks {α : Type} (n : Nat) (x : Engine → Eval α) : Prop :=
  ∀ w, ∃ c : Course α, (∀ en, x en w = c.under en) ∧ c.Paced World.Calm World.Calm w ∧ c.AtMost n

namespace Eval

variable {α β : Type} {m n : Nat}

theorem Quiet.asks {x : Eval α} (h : Quiet x) : Asks 0 fun _ => x := by
  intro w
  refine ⟨.ends (x w), fun _ => rfl, ?_, trivial⟩
  show World.Calm w (worldOf (x w))
  rw [← after_eq]
  exact h w

theorem asks_eval (e : Expr) (scope : Scope) : Asks 1 fun en => en.eval e scope := by
  intro w
  refine ⟨.asks (.eval e scope) w .ends, fun _ => rfl, ⟨.refl w, ?_, ?_⟩, fun _ => trivial⟩
  · exact fun e w' => ⟨w', rfl, rfl, rfl⟩
  · exact fun r => World.Calm.refl _

theorem Asks.bind {x : Engine → Eval α} {k : Engine → α → Eval β} (hx : Asks m x)
    (hk : ∀ a, Asks n fun en => k en a) : Asks (m + n) fun en => x en >>= k en := by
  intro w
  obtain ⟨c, hc, hpaced, hmost⟩ := hx w
  choose next hnext hpaced' hmost' using hk
  refine ⟨c.andThen (Course.next next), under_next hc hnext,
    paced_next hpaced World.allows_calm hpaced', hmost.andThen fun r => ?_⟩
  cases r with
  | ok a w₂ => exact hmost' a w₂
  | error e w₂ => exact Course.atMost_ends n _

theorem Asks.mono {x : Engine → Eval α} (h : Asks m x) (hmn : m ≤ n) : Asks n x := by
  intro w
  obtain ⟨c, hc, hpaced, hmost⟩ := h w
  exact ⟨c, hc, hpaced, hmost.mono hmn⟩

/-- A look at the world first. -/
theorem asks_get {k : Engine → World → Eval β} (hk : ∀ w, Asks n fun en => k en w) :
    Asks n fun en => get >>= k en :=
  fun w => hk w w

/-- Quiet work first. -/
theorem Quiet.thenAsks {x : Eval α} {k : Engine → α → Eval β} (hx : Quiet x)
    (hk : ∀ a, Asks n fun en => k en a) : Asks n fun en => x >>= k en := by
  have h := hx.asks.bind hk
  rwa [Nat.zero_add] at h

/-- To run the body of an expander asks for this body and for nothing else. -/
theorem asks_runExpander (name : String) (m : Expander) (args : List Value) :
    Asks 1 fun en => en.runExpander name m args := by
  unfold Engine.runExpander
  refine (quiet_extend m.scope).thenAsks fun inner => ?_
  refine (quiet_bindParams m.params args inner name).thenAsks fun _ => ?_
  refine (quiet_body m.id).thenAsks fun e => ?_
  exact (asks_eval e inner).bind fun v => (quiet_pure v.unquoted).asks

/-- A form that may be expanded `n` times asks for at most `n` bodies. -/
theorem asks_settle (limit : Nat) (first : String) (scope : Scope) (n : Nat) (form : Value) :
    Asks n fun en => en.settle limit first scope n form := by
  -- on the expansions that are left, each of another form in another world
  induction n generalizing form with
  | zero =>
    unfold Engine.settle
    refine asks_get fun w => ?_
    cases w.store.expanderCall? scope form with
    | none => exact (quiet_pure form).asks
    | some call => exact (quiet_fail _).asks
  | succ n ih =>
    unfold Engine.settle
    refine asks_get fun w => ?_
    cases w.store.expanderCall? scope form with
    | none => exact (quiet_pure form).asks.mono (Nat.zero_le _)
    | some call =>
      obtain ⟨name, m, args⟩ := call
      have h := (asks_runExpander name m args).bind fun expansion => ih expansion
      rwa [Nat.add_comm] at h

end Eval

namespace Engine

variable {en : Engine} {ctx : Context} {scope : Scope} {limit k n : Nat} {first : String}
  {m : Expander} {args : List Value} {form form' : Value} {w w' : World}

/-- A computation that asks for at most so many tasks leaves a trail that is no longer. -/
theorem exists_trail_of_asks {x : Engine → Eval Value} (h : Eval.Asks n x) (en : Engine)
    (w : World) : ∃ l, en.Trail x w l ∧ l.length ≤ n := by
  obtain ⟨c, hc, hpaced, hmost⟩ := h w
  have hsteady : c.Steady World.Grows w :=
    Course.paced_still_iff.1 (hpaced.mono (fun h => h.still) fun h => h.still.grows)
  exact ⟨c.tasks en, ⟨c, hc, hsteady, rfl⟩, hmost.length_tasks en⟩

/-! ## §3. Where the call is -/

/-- Expansions change nothing that is there. -/
theorem Expands.confined (hen : en.Isolates) (h : en.Expands scope k form w form' w') :
    Confined none w.store w'.store := by
  induction h with
  | refl form w => exact .refl none w.store
  | @head k form expansion form' w w₁ w' name m args hcall hrun h ih =>
    have hwithin : Eval.Within [] (en.runExpander name m args) := hen.runExpander name m args
    have hfirst := hwithin w fun f hf => absurd hf (by simp)
    rw [Eval.after_of_ok hrun] at hfirst
    exact hfirst.trans ih

/-- The expansion of a call of an expander is bounded and comes to rest. -/
structure ComesToRest (en : Engine) (scope : Scope) (limit : Nat) (first : String) (m : Expander)
    (args : List Value) (form : Value) (w : World) : Prop where
  /-- It ends in one of three ways, and the successive expansions decide which. -/
  ends : ∀ r, en.macroexpand limit form scope w = r ↔
    en.Settled scope limit first limit form w r
  /-- The same expansion is made when the call is evaluated. -/
  call : en.expand limit first m args scope w = en.macroexpand limit form scope w
  /-- What it gives cannot be expanded any more. -/
  last : ∀ form' w', en.macroexpand limit form scope w = .ok form' w' →
    en.macroexpand limit form' scope w' =
      .error (.failed (.notAnExpander ((form'.elements?.bind List.head?).getD form').text)) w'
  /-- No more bodies are run than the limit allows. -/
  bodies : ∃ l, en.Trail (fun en => en.macroexpand limit form scope) w l ∧ l.length ≤ limit
  /-- After every expansion, and however it all ends, the same names stand for the same expanders
  where the call is. -/
  stays : ∀ name,
    (∀ k form' w', en.Expands scope k form w form' w' →
      w'.store.expander? scope name = w.store.expander? scope name) ∧
    ((en.macroexpand limit form scope).after w).store.expander? scope name =
      w.store.expander? scope name

/-- Expansion is bounded and comes to rest: of every call of an expander in every scope of every
world of a session, at every depth and with every limit of at least one. -/
theorem expansion_comes_to_rest (h : w.Arises ctx) (hs : w.Inside scope) (hlimit : 1 ≤ limit)
    (hcall : w.store.expanderCall? scope form = some (first, m, args)) (n : Nat) :
    (ofDepth ctx n).ComesToRest scope limit first m args form w := by
  obtain ⟨hexpand, hsettle⟩ := macroexpand_eq_settle (ofDepth ctx n) hlimit hcall
  have hends : ∀ r, (ofDepth ctx n).macroexpand limit form scope w = r ↔
      (ofDepth ctx n).Settled scope limit first limit form w r := by
    intro r
    rw [hexpand, hsettle]
    constructor
    · rintro rfl
      exact settled_settle limit form w
    · exact Settled.settle_eq
  refine ⟨hends, hexpand.symm, ?_, ?_, ?_⟩
  · intro form' w' hrun
    cases (hends _).1 hrun with
    | rest hk hexpands hnone =>
      unfold macroexpand
      rw [Eval.get_bind, hnone]
      rfl
  · have hasks : Eval.Asks (1 + (limit - 1)) fun en => en.macroexpand limit form scope := by
      unfold macroexpand
      refine Eval.asks_get fun w => ?_
      cases w.store.expanderCall? scope form with
      | none => exact (Eval.quiet_fail _).asks.mono (Nat.zero_le _)
      | some call =>
        obtain ⟨name, m, args⟩ := call
        exact (Eval.asks_runExpander name m args).bind fun expansion =>
          Eval.asks_settle limit name scope (limit - 1) expansion
    rw [Nat.add_sub_cancel' hlimit] at hasks
    exact exists_trail_of_asks hasks (ofDepth ctx n) w
  · intro name
    have hstable : ∀ {w' : World}, Confined none w.store w'.store →
        w'.store.expander? scope name = w.store.expander? scope name :=
      fun hc => World.expander?_stable h.grounded h.tight hs hc name
    have hen := isolates_ofDepth ctx n
    have hwithin : Eval.Within [] ((ofDepth ctx n).macroexpand limit form scope) :=
      hen.macroexpand limit form scope
    exact ⟨fun k form' w' hexpands => hstable (hexpands.confined hen),
      hstable (hwithin w fun f hf => absurd hf (by simp))⟩

set_option maxRecDepth 100000 in
/-- An expander that expands to a call of itself, with three expansions allowed. -/
theorem expansion_comes_to_rest_endless :
    let ctx : Context := ⟨.default, ⟨[], []⟩⟩
    let s : Session :=
      (Session.evalText ⟨ctx, 3, Session.primitiveWorld⟩ "(defmacro m () '(m))").2
    let m : Expander := ⟨0, "m", ⟨[], none⟩, rootScope⟩
    let form := Value.ofList [.symbol "m"]
    s.Arises ctx ∧ s.world.Inside rootScope ∧ 1 ≤ 3 ∧
      s.world.store.expanderCall? rootScope form = some ("m", m, []) ∧
      (ofDepth ctx 2).ComesToRest rootScope 3 "m" m [] form s.world := by
  intro ctx s m form
  have harises : s.Arises ctx := (Session.Arises.bare 3).evalText _
  have hworld : s.world.Arises ctx := .top harises
  have hroot : s.world.Inside rootScope := inside_root hworld.grounded
  have hm : s.world.store.expander? rootScope "m" = some m := by decide +kernel
  have hcall : s.world.store.expanderCall? rootScope form = some ("m", m, []) :=
    expanderCall?_of_elements rfl hm
  exact ⟨harises, hroot, by decide, hcall,
    expansion_comes_to_rest hworld hroot (by decide) hcall 2⟩

end Engine

end TinyLisp
