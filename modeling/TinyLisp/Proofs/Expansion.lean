import TinyLisp.Proofs.Depth
import TinyLisp.Proofs.Invariant.Moment

/-!
# A call of an expander means its expansion

The form of a call whose callee names an expander is evaluated as if what the expander's body
gives had been written in its place, as long as the expansion comes to an end
(`Engine.call_means_expansion`).

Two tests decide how often a form is expanded. Building gives the keywords of special forms their
meaning before anything is looked up, and so does the evaluation of a form; expansion only asks
whether the first symbol names an expander. So the two agree unless an expander that goes by the
name of a keyword comes into play. In that case they need not agree
(`Engine.call_differs_from_expansion`).
-/

namespace TinyLisp.Engine

variable {en : Engine} {ctx : Context} {scope : Scope} {w w' : World} {form : Value}
  {name : String} {m : Expander} {args : List Value}

/-! ## §1. The form of a call -/

/-- A list that begins with a symbol other than a keyword is built into a call of that name,
deferred or not. -/
theorem build_call (h : form.elements? = some (.symbol name :: args))
    (hk : Keyword.ofName? name = none) :
    (∃ es, Expr.build form = .ok (.call (.var name) es args)) ∨
      ∃ fault, Expr.build form = .ok (.deferred (.var name) fault args) := by
  have hcallee : Expr.build (.symbol name) = .ok (.var name) := Expr.build_eq _
  rw [Expr.build_of_elements h]
  unfold Expr.buildList
  simp only [hk]
  unfold Expr.buildCall
  rw [hcallee]
  cases Expr.buildEach Expr.build args with
  | ok es => exact .inl ⟨es, rfl⟩
  | error fault => exact .inr ⟨fault, rfl⟩

/-- A call of an expander is expanded and what it is expanded to is evaluated, whether or not its
argument forms are expressions. -/
theorem evalCall_of_expander (h : w.store.expander? scope name = some m)
    (es : Except FormError (List Expr)) :
    en.evalCall ctx scope (.var name) es args w =
      (en.expand ctx.settings.expansionLimit name m args scope >>= en.evalForm scope) w := by
  have hcallee : expanderAt scope (.var name) w = .ok (some (name, m)) w := by
    show EStateM.Result.ok ((w.store.expander? scope name).map fun m => (name, m)) w = _
    rw [h]
    rfl
  unfold evalCall
  rw [Eval.bind_of_ok hcallee]

/-- With one level of depth more, the form of a call of an expander is expanded, and what it is
expanded to is evaluated. -/
theorem evalForm_of_expander (h : form.elements? = some (.symbol name :: args))
    (hk : Keyword.ofName? name = none) (hm : w.store.expander? scope name = some m) (n : Nat) :
    (ofDepth ctx (n + 1)).evalForm scope form w =
      ((ofDepth ctx n).expand ctx.settings.expansionLimit name m args scope >>=
        (ofDepth ctx n).evalForm scope) w := by
  unfold evalForm
  rcases build_call h hk with ⟨es, he⟩ | ⟨fault, he⟩
  · rw [he]
    exact evalCall_of_expander hm (.ok es)
  · rw [he]
    exact evalCall_of_expander hm (.error fault)

/-! ## §2. Expanding on -/

/-- What a form that has been expanded once is still expanded to, evaluated. -/
def settleAndEval (limit : Nat) (first : String) (scope : Scope) (n : Nat) (form : Value)
    (en : Engine) : Eval Value :=
  en.settle limit first scope n form >>= en.evalForm scope

theorem deepens_settleAndEval (limit : Nat) (first : String) (scope : Scope) (n : Nat)
    (form : Value) : Deepens ctx (settleAndEval limit first scope n form) :=
  (deepens_settle limit first scope n form).bind fun v => deepens_evalForm scope v

/-- How the form of a call of an expander ends: as what follows the first expansion. -/
theorem finishes_call (h : form.elements? = some (.symbol name :: args))
    (hk : Keyword.ofName? name = none) (hm : w.store.expander? scope name = some m)
    {r : EStateM.Result Halt World Value} :
    Finishes ctx (fun en => en.evalForm scope form) w r ↔
      Finishes ctx (fun en => en.runExpander name m args >>= fun v =>
        settleAndEval ctx.settings.expansionLimit name scope
          (ctx.settings.expansionLimit - 1) v en) w r := by
  have hstep : ∀ n, (ofDepth ctx (n + 1)).evalForm scope form w =
      ((ofDepth ctx n).runExpander name m args >>= fun v =>
        settleAndEval ctx.settings.expansionLimit name scope
          (ctx.settings.expansionLimit - 1) v (ofDepth ctx n)) w := by
    intro n
    rw [evalForm_of_expander h hk hm]
    unfold expand settleAndEval
    rw [bind_assoc]
  constructor
  · rintro ⟨⟨n, hn⟩, hne⟩
    refine ⟨?_, hne⟩
    cases n with
    | zero =>
      -- without depth nothing is evaluated
      have hzero : (ofDepth ctx 0).evalForm scope form w = .error .exhausted w := by
        unfold evalForm
        rcases build_call h hk with ⟨es, he⟩ | ⟨fault, he⟩ <;> rw [he] <;> rfl
      exact absurd (hn.symm.trans hzero) (hne w)
    | succ n => exact ⟨n, (hstep n).symm.trans hn⟩
  · rintro ⟨⟨n, hn⟩, hne⟩
    exact ⟨⟨n + 1, (hstep n).trans hn⟩, hne⟩

theorem settle_of_none (limit : Nat) (first : String) (n : Nat)
    (h : w.store.expanderCall? scope form = none) :
    en.settle limit first scope n form w = .ok form w := by
  cases n with
  | zero =>
    rw [settle, Eval.get_bind, h]
    rfl
  | succ n =>
    rw [settle, Eval.get_bind, h]
    rfl

theorem settle_zero_of_some (limit : Nat) (first : String) {call : String × Expander × List Value}
    (h : w.store.expanderCall? scope form = some call) :
    en.settle limit first scope 0 form w = .error (.failed (.expansionLimit first limit)) w := by
  rw [settle, Eval.get_bind, h]
  rfl

theorem settle_succ_of_some (limit : Nat) (first : String) (n : Nat)
    (h : w.store.expanderCall? scope form = some (name, m, args)) :
    en.settle limit first scope (n + 1) form w =
      (en.runExpander name m args >>= fun v => en.settle limit first scope n v) w := by
  rw [settle, Eval.get_bind, h]

/-- One more expansion allowed, and another name to blame, make a difference only where the
limit is reached. -/
theorem settle_succ (limit limit' : Nat) (first first' : String) (n : Nat) (form : Value)
    (w : World) :
    (∃ w', en.settle limit first scope n form w =
      .error (.failed (.expansionLimit first limit)) w') ∨
    en.settle limit first scope n form w = en.settle limit' first' scope (n + 1) form w := by
  induction n generalizing form w with
  | zero =>
    cases hcall : w.store.expanderCall? scope form with
    | none =>
      right
      rw [settle_of_none limit first 0 hcall, settle_of_none limit' first' 1 hcall]
    | some call => exact .inl ⟨w, settle_zero_of_some limit first hcall⟩
  | succ n ih =>
    cases hcall : w.store.expanderCall? scope form with
    | none =>
      right
      rw [settle_of_none limit first (n + 1) hcall, settle_of_none limit' first' (n + 2) hcall]
    | some call =>
      obtain ⟨name, m, args⟩ := call
      rw [settle_succ_of_some limit first n hcall, settle_succ_of_some limit' first' (n + 1) hcall]
      cases hrun : en.runExpander name m args w with
      | error e w₁ =>
        right
        rw [Eval.bind_of_error hrun, Eval.bind_of_error hrun]
      | ok v w₁ =>
        rw [Eval.bind_of_ok hrun, Eval.bind_of_ok hrun]
        exact ih v w₁

/-! ## §3. The call and its expansion -/

/-- An evaluation ends in the failure that an expansion has gone on for too long. -/
def RunsAway (ctx : Context) (x : Engine → Eval Value) (w : World) : Prop :=
  ∃ first limit w', Finishes ctx x w (.error (.failed (.expansionLimit first limit)) w')

/-- What a form that is not itself to be expanded on settles to is the form. -/
theorem settleAndEval_of_none (limit : Nat) (first : String) (n : Nat)
    (h : w.store.expanderCall? scope form = none) (en : Engine) :
    settleAndEval limit first scope n form en w = en.evalForm scope form w := by
  unfold settleAndEval
  rw [Eval.bind_of_ok (settle_of_none limit first n h)]

/-- A form that is to be expanded on settles as the form of a call of its own would, unless the
limit is reached. -/
theorem settleAndEval_of_some (limit : Nat) (first : String) (n : Nat)
    (h : w.store.expanderCall? scope form = some (name, m, args)) (en : Engine) :
    (∃ w', settleAndEval limit first scope n form en w =
      .error (.failed (.expansionLimit first limit)) w') ∨
    settleAndEval limit first scope n form en w =
      (en.runExpander name m args >>= fun v => settleAndEval limit name scope n v en) w := by
  unfold settleAndEval
  rcases settle_succ limit limit first name n form w with ⟨w', hstop⟩ | hsame
  · exact .inl ⟨w', Eval.bind_of_error hstop⟩
  · right
    rw [← bind_assoc]
    show EStateM.bind _ _ w = EStateM.bind _ _ w
    unfold EStateM.bind
    rw [hsame, settle_succ_of_some limit name n h]

theorem expanderCall?_eq_some {s : Store}
    (h : s.expanderCall? scope form = some (name, m, args)) :
    form.elements? = some (.symbol name :: args) ∧ s.expander? scope name = some m := by
  unfold Store.expanderCall? at h
  split at h
  · next name' args' hform =>
    obtain ⟨m', hm, heq⟩ := Option.map_eq_some_iff.1 h
    cases heq
    exact ⟨hform, hm⟩
  · exact absurd h (by simp)

theorem expanderCall?_of_elements {s : Store} (h : form.elements? = some (.symbol name :: args))
    (hm : s.expander? scope name = some m) :
    s.expanderCall? scope form = some (name, m, args) := by
  unfold Store.expanderCall?
  simp only [h, hm, Option.map_some]

/-- A call of an expander means its expansion. Let a form be a call of an expander, let the
expander's body, run once on the argument forms as they are, give `expansion`, and let evaluating
the form not end in the failure that the expansion has gone on for too long. If `expansion` is not
a form whose keyword also names an expander, then evaluating the form and evaluating the expansion
in the same scope end in the same way: with the same value or the same failure, and in the same
world. Running the body itself has left everything that was there as it was. -/
theorem call_means_expansion {expansion : Value}
    (hform : form.elements? = some (.symbol name :: args)) (hname : Keyword.ofName? name = none)
    (hm : w.store.expander? scope name = some m)
    (hrun : Finishes ctx (fun en => en.runExpander name m args) w (.ok expansion w'))
    (hkeyword : ∀ k rest, expansion.elements? = some (.symbol k :: rest) →
      Keyword.ofName? k ≠ none → w'.store.expander? scope k = none)
    (hlimit : ¬ RunsAway ctx (fun en => en.evalForm scope form) w) :
    w.AgreesOutside none w' ∧ ∀ r,
      Finishes ctx (fun en => en.evalForm scope form) w r ↔
        Finishes ctx (fun en => en.evalForm scope expansion) w' r := by
  refine ⟨?_, ?_⟩
  · obtain ⟨⟨n, hn⟩, -⟩ := hrun
    have hwithin : Eval.Within [] ((ofDepth ctx n).runExpander name m args) :=
      (isolates_ofDepth ctx n).runExpander name m args
    have hagrees := hwithin.agreesOutside (w := w) fun f hf => absurd hf (by simp)
    rw [Eval.after_of_ok hn] at hagrees
    exact hagrees
  · -- what is left to do after the first expansion
    have hrest : ∀ r, Finishes ctx (fun en => en.evalForm scope form) w r ↔
        Finishes ctx (settleAndEval ctx.settings.expansionLimit name scope
          (ctx.settings.expansionLimit - 1) expansion) w' r := by
      intro r
      rw [finishes_call hform hname hm]
      exact finishes_bind (deepens_runExpander name m args)
        (fun v => deepens_settleAndEval _ _ _ _ v) hrun
    intro r
    rw [hrest r]
    cases hcall : w'.store.expanderCall? scope expansion with
    | none => exact finishes_congr fun n => settleAndEval_of_none _ _ _ hcall _
    | some call =>
      obtain ⟨name', m', args'⟩ := call
      obtain ⟨hform', hm'⟩ := expanderCall?_eq_some hcall
      have hname' : Keyword.ofName? name' = none := by
        by_contra hne
        have hnone := hkeyword name' args' hform' hne
        rw [hm'] at hnone
        exact absurd hnone (by simp)
      rw [finishes_call hform' hname' hm']
      have hcases := settleAndEval_of_some ctx.settings.expansionLimit name
        (ctx.settings.expansionLimit - 1) hcall
      have hlimit' : ∀ n w'', settleAndEval ctx.settings.expansionLimit name scope
          (ctx.settings.expansionLimit - 1) expansion (ofDepth ctx n) w' ≠
            .error (.failed (.expansionLimit name ctx.settings.expansionLimit)) w'' := by
        intro n w'' hn
        refine hlimit ⟨name, ctx.settings.expansionLimit, w'', (hrest _).2 ⟨⟨n, hn⟩, ?_⟩⟩
        simp
      have hsame : ∀ n, settleAndEval ctx.settings.expansionLimit name scope
          (ctx.settings.expansionLimit - 1) expansion (ofDepth ctx n) w' =
            ((ofDepth ctx n).runExpander name' m' args' >>= fun v =>
              settleAndEval ctx.settings.expansionLimit name' scope
                (ctx.settings.expansionLimit - 1) v (ofDepth ctx n)) w' := by
        intro n
        rcases hcases (ofDepth ctx n) with ⟨w'', hstop⟩ | hsame
        · exact absurd hstop (hlimit' n w'')
        · exact hsame
      exact finishes_congr hsame

/-- An expander without parameters whose body is a quoted integer. -/
theorem call_means_expansion_integer :
    let ctx : Context := ⟨.default, ⟨[], []⟩⟩
    let m : Expander := ⟨0, "m", ⟨[], none⟩, rootScope⟩
    let w : World := { World.initial with
      store := World.initial.store.bind rootFrame "m" (.expander m)
      bodies := #[.literal (.quote (.int 1))] }
    let w' : World := { w with store := w.store.newFrame.2 }
    let form := Value.ofList [.symbol "m"]
    form.elements? = some [.symbol "m"] ∧ Keyword.ofName? "m" = none ∧
      w.store.expander? rootScope "m" = some m ∧
      Finishes ctx (fun en => en.runExpander "m" m []) w (.ok (.int 1) w') ∧
      ¬ RunsAway ctx (fun en => en.evalForm rootScope form) w ∧
      (w.AgreesOutside none w' ∧ ∀ r,
        Finishes ctx (fun en => en.evalForm rootScope form) w r ↔
          Finishes ctx (fun en => en.evalForm rootScope (.int 1)) w' r) := by
  intro ctx m w w' form
  have hrun : Finishes ctx (fun en => en.runExpander "m" m []) w (.ok (.int 1) w') :=
    ⟨⟨1, rfl⟩, by simp⟩
  have hform : Finishes ctx (fun en => en.evalForm rootScope form) w (.ok (.int 1) w') :=
    ⟨⟨2, rfl⟩, by simp⟩
  have hlimit : ¬ RunsAway ctx (fun en => en.evalForm rootScope form) w := by
    rintro ⟨first, limit, w₁, h⟩
    have heq := h.unique (deepens_evalForm rootScope form) hform
    exact absurd heq (by simp)
  have hatom : ∀ k rest, (Value.int 1).elements? = some (.symbol k :: rest) →
      Keyword.ofName? k ≠ none → w'.store.expander? rootScope k = none :=
    fun k rest h => absurd h (by simp [Value.elements?])
  exact ⟨rfl, rfl, rfl, hrun, hlimit, call_means_expansion rfl rfl rfl hrun hatom hlimit⟩

/-! ## §4. Where the two tests disagree -/

/-- The integer that a computation ends with, if it ends with one. -/
def intOf? : EStateM.Result Halt World Value → Option Int64
  | .ok (.int n) _ => some n
  | _ => none

theorem finishes_of_intOf? {x : Engine → Eval Value} {n : Nat} {i : Int64}
    (h : intOf? (x (ofDepth ctx n) w) = some i) :
    ∃ w', Finishes ctx x w (.ok (.int i) w') := by
  cases hx : x (ofDepth ctx n) w with
  | error e w₁ =>
    rw [hx] at h
    exact absurd h (by simp [intOf?])
  | ok v w₁ =>
    rw [hx] at h
    cases v with
    | int j =>
      obtain rfl : j = i := by simpa [intOf?] using h
      exact ⟨w₁, ⟨n, hx⟩, by simp⟩
    | _ => exact absurd h (by simp [intOf?])

set_option maxRecDepth 100000 in
/-- With an expander named `if` about, the call of an expander that gives `(if #t 1 2)` is
expanded on and ends with what the expander named `if` gives. Written in place of the call, the
same form is a conditional. -/
theorem call_differs_from_expansion :
    let ctx : Context := ⟨.default, ⟨[], []⟩⟩
    let s : Session := ((Session.evalText ⟨ctx, 3, Session.primitiveWorld⟩
      "(defmacro if (a b c) 42)").2.evalText "(defmacro m () '(if #t 1 2))").2
    let m : Expander := ⟨1, "m", ⟨[], none⟩, rootScope⟩
    let form := Value.ofList [.symbol "m"]
    s.Arises ctx ∧ form.elements? = some [.symbol "m"] ∧ Keyword.ofName? "m" = none ∧
      s.world.store.expander? rootScope "m" = some m ∧
      ¬ RunsAway ctx (fun en => en.evalForm rootScope form) s.world ∧
      ∃ expansion w',
        Finishes ctx (fun en => en.runExpander "m" m []) s.world (.ok expansion w') ∧
        ¬ ∀ r, Finishes ctx (fun en => en.evalForm rootScope form) s.world r ↔
          Finishes ctx (fun en => en.evalForm rootScope expansion) w' r := by
  intro ctx s m form
  have hform : ∃ w₁, Finishes ctx (fun en => en.evalForm rootScope form) s.world
      (.ok (.int 42) w₁) := by
    refine finishes_of_intOf? (n := 3) ?_
    decide +kernel
  -- the body is run, and what it gives is evaluated in the world that this leaves
  have hboth : ∃ w₁, Finishes ctx (fun en => en.runExpander "m" m [] >>= en.evalForm rootScope)
      s.world (.ok (.int 1) w₁) := by
    refine finishes_of_intOf? (n := 3) ?_
    decide +kernel
  obtain ⟨w₁, hform⟩ := hform
  obtain ⟨w₂, hboth⟩ := hboth
  have harises : s.Arises ctx := ((Session.Arises.bare 3).evalText _).evalText _
  refine ⟨harises, rfl, rfl, by decide +kernel, ?_, ?_⟩
  · rintro ⟨first, limit, w₃, h⟩
    have heq := h.unique (deepens_evalForm rootScope form) hform
    exact absurd heq (by simp)
  · obtain ⟨expansion, w', hrun, hexpansion⟩ := finishes_bind_ok hboth
    refine ⟨expansion, w', hrun, fun hall => ?_⟩
    have heq := ((hall _).1 hform).unique (deepens_evalForm rootScope expansion) hexpansion
    exact absurd heq (by simp)

end TinyLisp.Engine
