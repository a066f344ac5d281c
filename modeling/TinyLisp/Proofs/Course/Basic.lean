import TinyLisp.Proofs.Growing

/-!
# Courses of computations

A computation over an engine does something for itself, asks the engine to perform a task, goes on
with the answer, asks again, and ends. `Course` is all of this as a tree: at every task it branches
into what follows each answer that an engine could give. An engine picks one path through the tree,
and with it the tasks that it is asked for, in their order (`Course.tasks`), and the end
(`Course.under`).

A course is *paced* by a relation between worlds if the work up to every task stands in it, and a
failure of a task ends the whole. In a *steady* course this work lets the world grow and leaves the
registered modules alone. The tasks on the path are then exactly those that the engine is consulted
about (`Course.Steady.consults_iff`), so that a property of worlds can be followed from the beginning
of a computation through its tasks to its end (`Course.Steady.reaches`, `Course.Steady.finishes`). The
evaluator's courses are *calm* besides: between two tasks no fresh name is handed out.
-/

namespace TinyLisp

/-! ## §1. Worlds between two tasks -/

/-- A world has grown, and the same modules are registered. -/
structure World.Still (w w' : World) : Prop where
  grows : w.Grows w'
  registry : w'.library.registry = w.library.registry

namespace World

variable {w w' w'' : World}

theorem Still.refl (w : World) : w.Still w :=
  ⟨.refl w, rfl⟩

theorem Still.trans (h : w.Still w') (h' : w'.Still w'') : w.Still w'' :=
  ⟨h.grows.trans h'.grows, h'.registry.trans h.registry⟩

/-- A world has grown, and no fresh name has been handed out. -/
structure Nameless (w w' : World) : Prop where
  grows : w.Grows w'
  gensym : w'.gensym = w.gensym

theorem Nameless.trans (h : w.Nameless w') (h' : w'.Nameless w'') : w.Nameless w'' :=
  ⟨h.grows.trans h'.grows, h'.gensym.trans h.gensym⟩

/-- A world has grown, the same modules are registered, and no fresh name has been handed out. -/
structure Calm (w w' : World) : Prop where
  still : w.Still w'
  gensym : w'.gensym = w.gensym

theorem Calm.refl (w : World) : w.Calm w :=
  ⟨.refl w, rfl⟩

theorem Calm.trans (h : w.Calm w') (h' : w'.Calm w'') : w.Calm w'' :=
  ⟨h.still.trans h'.still, h'.gensym.trans h.gensym⟩

theorem Calm.nameless (h : w.Calm w') : w.Nameless w' :=
  ⟨h.still.grows, h.gensym⟩

/-- A relation between worlds that allows for work of some kind beforehand. -/
structure Allows (Q E : World → World → Prop) : Prop where
  of_quiet : ∀ {w w'}, Q w w' → E w w'
  since : ∀ {w w' w''}, Q w w' → E w' w'' → E w w''

theorem allows_calm : Allows World.Calm World.Calm where
  of_quiet h := h
  since h h' := h.trans h'

theorem allows_nameless : Allows World.Calm World.Nameless where
  of_quiet h := h.nameless
  since h h' := h.nameless.trans h'

end World

/-! ## §2. Courses -/

/-- The course of a computation: it ends, or it asks for a task in some world and goes on with the
answer. -/
inductive Course (α : Type)
  | ends (r : EStateM.Result Halt World α)
  | asks (t : Task) (w : World) (go : EStateM.Result Halt World Value → Course α)

namespace Course

variable {α β : Type} {en : Engine}

/-- How a course ends when an engine gives the answers. -/
def under (en : Engine) : Course α → EStateM.Result Halt World α
  | ends r => r
  | asks t w go => (go (en.perform t w)).under en

/-- The tasks that an engine is asked for, with the worlds in which they begin. -/
def tasks (en : Engine) : Course α → List (Task × World)
  | ends _ => []
  | asks t w go => (t, w) :: (go (en.perform t w)).tasks en

/-- A failure ends the course with the same failure, and nothing more is stored or written. -/
def Stops {γ : Type} (go : EStateM.Result Halt World γ → Course α) : Prop :=
  ∀ e w, ∃ w' : World, w'.store = w.store ∧ w'.output = w.output ∧
    go (.error e w) = .ends (.error e w')

/-- From a world, the work up to every task is quiet, failures of tasks end the course, and the work
after the last task stands in a relation. -/
def Steady (E : World → World → Prop) : World → Course α → Prop
  | w, ends r => E w (Eval.worldOf r)
  | w, asks _ w' go => w.Still w' ∧ Stops go ∧ ∀ r, (go r).Steady E (Eval.worldOf r)

/-- From a world, the work up to every task stands in one relation, failures of tasks end the
course, and the work after the last task stands in another. -/
def Paced (Q E : World → World → Prop) : World → Course α → Prop
  | w, ends r => E w (Eval.worldOf r)
  | w, asks _ w' go => Q w w' ∧ Stops go ∧ ∀ r, (go r).Paced Q E (Eval.worldOf r)

variable {Q Q' E E' : World → World → Prop} {c : Course α} {w w₁ : World}

theorem paced_still_iff : c.Paced World.Still E w ↔ c.Steady E w := by
  induction c generalizing w with
  | ends r => exact .rfl
  | asks t w' go ih =>
    exact and_congr_right fun _ => and_congr_right fun _ => forall_congr' fun r => ih r

theorem Paced.since (hQ : World.Allows Q Q) (hE : World.Allows Q E) (h : c.Paced Q E w₁)
    (hw : Q w w₁) : c.Paced Q E w := by
  cases c with
  | ends r => exact hE.since hw h
  | asks t w' go => exact ⟨hQ.since hw h.1, h.2⟩

theorem Paced.mono (h : c.Paced Q E w) (hQ : ∀ {w w'}, Q w w' → Q' w w')
    (hE : ∀ {w w'}, E w w' → E' w w') : c.Paced Q' E' w := by
  induction c generalizing w with
  | ends r => exact hE h
  | asks t w' go ih => exact ⟨hQ h.1, h.2.1, fun r => ih r (h.2.2 r)⟩

/-- A course goes on where another has ended. -/
def andThen (k : EStateM.Result Halt World α → Course β) : Course α → Course β
  | ends r => k r
  | asks t w go => asks t w fun r => (go r).andThen k

theorem under_andThen (k : EStateM.Result Halt World α → Course β) (en : Engine) (c : Course α) :
    (c.andThen k).under en = (k (c.under en)).under en := by
  induction c with
  | ends r => rfl
  | asks t w go ih => exact ih _

/-- A course begins where another has ended, unless that has failed. -/
def next (k : α → World → Course β) : EStateM.Result Halt World α → Course β
  | .ok a w => k a w
  | .error e w => ends (.error e w)

/-- A course that goes on after a paced one is paced, if failures of the first are its own. -/
theorem Paced.andThen {k : EStateM.Result Halt World α → Course β} (h : c.Paced Q E w)
    (hk : ∀ {w r}, E w (Eval.worldOf r) → (k r).Paced Q E' w) (hstops : Stops k) :
    (c.andThen k).Paced Q E' w := by
  -- on the first course; every answer goes on from a world of its own
  induction c generalizing w with
  | ends r => exact hk h
  | asks t w' go ih =>
    refine ⟨h.1, ?_, fun r => ih r (h.2.2 r)⟩
    intro e w₁
    obtain ⟨w₂, hstore, hout, hgo⟩ := h.2.1 e w₁
    obtain ⟨w₃, hstore', hout', hk'⟩ := hstops e w₂
    refine ⟨w₃, hstore'.trans hstore, hout'.trans hout, ?_⟩
    show (go (.error e w₁)).andThen k = .ends (.error e w₃)
    rw [hgo]
    exact hk'

/-! ## §3. What is asked -/

/-- The end depends on the answers to the tasks alone. -/
theorem under_congr {en' : Engine}
    (h : ∀ p ∈ c.tasks en, en'.perform p.1 p.2 = en.perform p.1 p.2) :
    c.under en' = c.under en := by
  induction c with
  | ends r => rfl
  | asks t w go ih =>
    have hfirst : en'.perform t w = en.perform t w := h (t, w) (by simp [tasks])
    show (go (en'.perform t w)).under en' = (go (en.perform t w)).under en
    rw [hfirst]
    exact ih _ fun p hp => h p (by simp [tasks, hp])

/-- So do the tasks that are asked for. -/
theorem tasks_congr {en' : Engine}
    (h : ∀ p ∈ c.tasks en, en'.perform p.1 p.2 = en.perform p.1 p.2) :
    c.tasks en' = c.tasks en := by
  induction c with
  | ends r => rfl
  | asks t w go ih =>
    have hfirst : en'.perform t w = en.perform t w := h (t, w) (by simp [tasks])
    show (t, w) :: (go (en'.perform t w)).tasks en' = (t, w) :: (go (en.perform t w)).tasks en
    rw [hfirst, ih _ fun p hp => h p (by simp [tasks, hp])]

/-- Up to a task that is asked for, only the answers before it matter. -/
theorem mem_tasks_of_prefix {en' : Engine} {l l' : List (Task × World)} {p : Task × World}
    (h : ∀ q ∈ l, en'.perform q.1 q.2 = en.perform q.1 q.2) (hl : c.tasks en = l ++ p :: l') :
    p ∈ c.tasks en' := by
  induction c generalizing l with
  | ends r => exact absurd hl (by simp [tasks])
  | asks t w go ih =>
    cases l with
    | nil =>
      obtain ⟨rfl, -⟩ := List.cons.inj hl
      exact List.mem_cons_self
    | cons q l =>
      obtain ⟨rfl, hrest⟩ := List.cons.inj hl
      have hfirst : en'.perform t w = en.perform t w := h (t, w) (by simp)
      refine List.mem_cons_of_mem _ ?_
      rw [hfirst]
      exact ih _ (fun q hq => h q (by simp [hq])) hrest

end Course

open Classical in
/-- An engine that fails in a given world when asked for one task in one world, and is the same
everywhere else. -/
noncomputable def Engine.failingAt (en : Engine) (t : Task) (w w₁ : World) : Engine where
  eval e scope v :=
    if (Task.eval e scope, v) = (t, w) then .error .exhausted w₁ else en.eval e scope v
  apply f args v :=
    if (Task.apply f args, v) = (t, w) then .error .exhausted w₁ else en.apply f args v

theorem Engine.perform_failingAt_self (en : Engine) (t : Task) (w w₁ : World) :
    (en.failingAt t w w₁).perform t w = .error .exhausted w₁ := by
  cases t <;> exact if_pos rfl

theorem Engine.perform_failingAt_of_ne (en : Engine) {t u : Task} {w v : World} (w₁ : World)
    (h : (u, v) ≠ (t, w)) : (en.failingAt t w w₁).perform u v = en.perform u v := by
  cases u <;> exact if_neg h

namespace Course

variable {α : Type} {en : Engine} {E : World → World → Prop} {c : Course α} {w : World}

/-- If an engine fails at a task that it is asked for, the whole fails, and what was stored and
written when it failed stays. -/
theorem Steady.under_failingAt (h : c.Steady E w) {t : Task} {w' : World}
    (ht : (t, w') ∈ c.tasks en) (w₁ : World) :
    ∃ w₂ : World, w₂.store = w₁.store ∧ w₂.output = w₁.output ∧
      c.under (en.failingAt t w' w₁) = .error .exhausted w₂ := by
  induction c generalizing w with
  | ends r => exact absurd ht (by simp [tasks])
  | asks t₀ w₀ go ih =>
    show ∃ w₂ : World, w₂.store = w₁.store ∧ w₂.output = w₁.output ∧
      (go ((en.failingAt t w' w₁).perform t₀ w₀)).under (en.failingAt t w' w₁) = _
    by_cases hfirst : (t₀, w₀) = (t, w')
    · cases hfirst
      obtain ⟨w₂, hstore, hout, hgo⟩ := h.2.1 .exhausted w₁
      rw [Engine.perform_failingAt_self, hgo]
      exact ⟨w₂, hstore, hout, rfl⟩
    · rw [Engine.perform_failingAt_of_ne en w₁ hfirst]
      -- the task is asked for later, on the path that the answer to this one opens
      rcases List.mem_cons.1 ht with heq | hlater
      · exact absurd heq.symm hfirst
      · exact ih _ (h.2.2 _) hlater

/-- It can fail so that the whole ends differently: with another text written. -/
theorem Steady.exists_failingAt_ne (h : c.Steady E w) {t : Task} {w' : World}
    (ht : (t, w') ∈ c.tasks en) :
    ∃ w₁, c.under (en.failingAt t w' w₁) ≠ c.under en := by
  let w₁ : World := { w' with output := (Eval.worldOf (c.under en)).output ++ " " }
  refine ⟨w₁, ?_⟩
  obtain ⟨w₂, -, hout, hfails⟩ := h.under_failingAt ht w₁
  intro heq
  rw [hfails] at heq
  have hlength : w₂.output.length = w₁.output.length := congrArg String.length hout
  have hend : Eval.worldOf (c.under en) = w₂ := by
    rw [← heq]
    rfl
  have hwritten : w₁.output = w₂.output ++ " " := by
    show (Eval.worldOf (c.under en)).output ++ " " = _
    rw [hend]
  rw [hwritten, String.length_append] at hlength
  have hspace : " ".length = 1 := rfl
  omega

/-- What is asked of an engine is what it is consulted about. -/
theorem Steady.consults_iff {x : Engine → Eval Value} {c : Course Value} {w₀ : World}
    (h : c.Steady E w) (hx : ∀ en, x en w₀ = c.under en) {t : Task} {w' : World} :
    en.Consults x w₀ t w' ↔ (t, w') ∈ c.tasks en := by
  constructor
  · rintro ⟨en', hsame, hne⟩
    -- if the task were never asked for, the two engines would agree on all that is
    by_contra hnot
    refine hne ?_
    rw [hx, hx]
    refine under_congr ?_
    intro p hp
    refine hsame p.1 p.2 ?_
    intro heq
    exact hnot (heq ▸ hp)
  · intro ht
    obtain ⟨w₁, hne⟩ := h.exists_failingAt_ne ht
    refine ⟨en.failingAt t w' w₁, fun u v hne => Engine.perform_failingAt_of_ne en w₁ hne, ?_⟩
    rw [hx, hx]
    exact hne

/-- Work that follows a computation and asks for nothing itself leaves what the engine is consulted
about as it was. -/
theorem Steady.consults_of_then (h : c.Steady E w) {y : Engine → Eval Value} {w₀ : World}
    {k : EStateM.Result Halt World α → EStateM.Result Halt World Value}
    (hy : ∀ en, y en w₀ = k (c.under en)) (hk : Stops fun r => ends (k r)) {t : Task} {w' : World}
    (ht : (t, w') ∈ c.tasks en) : en.Consults y w₀ t w' := by
  -- what follows adds no task to any course, so that only the failures are left to see to
  have htasks : ∀ c : Course α, (c.andThen fun r => ends (k r)).tasks en = c.tasks en := by
    intro c
    induction c with
    | ends r => rfl
    | asks t w go ih => exact congrArg _ (ih _)
  have hthen : (c.andThen fun r => ends (k r)).Steady (fun _ _ => True) w :=
    paced_still_iff.1 ((paced_still_iff.2 h).andThen (fun _ => trivial) hk)
  refine (hthen.consults_iff fun en => ?_).2 ?_
  · rw [under_andThen]
    exact hy en
  · rw [htasks c]
    exact ht

/-! ## §4. From the beginning to the end -/

variable {P : World → Prop} {l l' : List (Task × World)} {p : Task × World}

/-- A property that quiet work keeps, and that the tasks before a task keep, reaches that task. -/
theorem Steady.reaches (h : c.Steady E w) (hP : ∀ {w w'}, World.Still w w' → P w → P w')
    (hl : c.tasks en = l ++ p :: l') (hw : P w)
    (htasks : ∀ q ∈ l, P q.2 → P ((en.perform q.1).after q.2)) : P p.2 := by
  induction c generalizing w l with
  | ends r => exact absurd hl (by simp [tasks])
  | asks t w' go ih =>
    have hbegin := hP h.1 hw
    -- the task is the first one of the course, or what comes first is among those before it
    cases l with
    | nil =>
      obtain ⟨rfl, -⟩ := List.cons.inj hl
      exact hbegin
    | cons q l =>
      obtain ⟨rfl, hrest⟩ := List.cons.inj hl
      have hend : P ((en.perform t).after w') := htasks (t, w') (by simp) hbegin
      rw [Eval.after_eq] at hend
      exact ih _ (h.2.2 _) hrest hend fun q hq => htasks q (by simp [hq])

/-- A property that the work after the last task keeps as well reaches the end. -/
theorem Steady.finishes (h : c.Steady E w) (hP : ∀ {w w'}, World.Still w w' → P w → P w')
    (hE : ∀ {w w'}, E w w' → P w → P w') (hw : P w)
    (htasks : ∀ q ∈ c.tasks en, P q.2 → P ((en.perform q.1).after q.2)) :
    P (Eval.worldOf (c.under en)) := by
  induction c generalizing w with
  | ends r => exact hE h hw
  | asks t w' go ih =>
    have hend : P ((en.perform t).after w') := htasks (t, w') (by simp [tasks]) (hP h.1 hw)
    rw [Eval.after_eq] at hend
    exact ih _ (h.2.2 _) hend fun q hq => htasks q (by simp [tasks, hq])

end Course

/-! ## §5. Computations that take paced courses -/

/-- From every world, a computation over engines takes a paced course. -/
def Eval.Follows {α : Type} (Q E : World → World → Prop) (x : Engine → Eval α) : Prop :=
  ∀ w, ∃ c : Course α, (∀ en, x en w = c.under en) ∧ c.Paced Q E w

/-- From every world, a computation over engines takes a course that is calm up to its end. -/
abbrev Eval.Calmly {α : Type} (x : Engine → Eval α) : Prop :=
  Follows World.Calm World.Calm x

/-- A computation that asks for nothing leaves a world that stands in a relation to the one in which
it began. -/
def Eval.Leaves {α : Type} (E : World → World → Prop) (x : Eval α) : Prop :=
  ∀ w, E w (x.after w)

/-- Quiet work. -/
abbrev Eval.Quiet {α : Type} (x : Eval α) : Prop :=
  Leaves World.Calm x

/-- Work that may register modules. -/
abbrev Eval.Growing {α : Type} (x : Eval α) : Prop :=
  Leaves World.Nameless x

namespace Eval

variable {α β : Type} {Q Q' E E' : World → World → Prop}

theorem Follows.mono {x : Engine → Eval α} (h : Follows Q E x) (hQ : ∀ {w w'}, Q w w' → Q' w w')
    (hE : ∀ {w w'}, E w w' → E' w w') : Follows Q' E' x := by
  intro w
  obtain ⟨c, hx, hc⟩ := h w
  exact ⟨c, hx, hc.mono hQ hE⟩

/-- A calm course is steady. -/
theorem Calmly.steady {x : Engine → Eval α} (h : Calmly x) (w : World) :
    ∃ c : Course α, (∀ en, x en w = c.under en) ∧ c.Steady World.Still w := by
  obtain ⟨c, hx, hc⟩ := h w
  exact ⟨c, hx, Course.paced_still_iff.1 (hc.mono (fun h => h.still) fun h => h.still)⟩

/-- Up to the end of a calm course the world has grown. -/
theorem Calmly.grows {x : Engine → Eval α} (h : Calmly x) : Follows World.Still World.Grows x :=
  h.mono (fun h => h.still) fun h => h.still.grows

/-- What asks for nothing takes a course without tasks. -/
theorem Leaves.follows {x : Eval α} (h : Leaves E x) : Follows Q E fun _ => x := by
  intro w
  refine ⟨.ends (x w), fun _ => rfl, ?_⟩
  show E w (worldOf (x w))
  rw [← after_eq]
  exact h w

theorem Quiet.follows {x : Eval α} (h : Quiet x) (hE : World.Allows World.Calm E) :
    Follows World.Calm E fun _ => x :=
  Leaves.follows fun w => hE.of_quiet (h w)

/-- To ask for a task is a course with this task. -/
theorem follows_perform (t : Task) : Calmly fun en => en.perform t := by
  intro w
  refine ⟨.asks t w .ends, fun _ => rfl, .refl w, fun e w' => ⟨w', rfl, rfl, rfl⟩, ?_⟩
  exact fun r => World.Calm.refl _

theorem follows_eval (e : Expr) (scope : Scope) : Calmly fun en => en.eval e scope :=
  follows_perform (.eval e scope)

theorem follows_apply (f : Value) (args : List Value) : Calmly fun en => en.apply f args :=
  follows_perform (.apply f args)

/-- The course of one computation and then of what follows each of its values. -/
theorem under_next {x : Engine → Eval α} {k : Engine → α → Eval β} {c : Course α} {w : World}
    {next : α → World → Course β} (hc : ∀ en, x en w = c.under en)
    (hnext : ∀ a w' en, k en a w' = (next a w').under en) (en : Engine) :
    (x en >>= k en) w = (c.andThen (Course.next next)).under en := by
  rw [bind_eq, Course.under_andThen, ← hc en]
  cases x en w with
  | ok a w₁ => exact hnext a w₁ en
  | error e w₁ => rfl

theorem paced_next {c : Course α} {w : World} {next : α → World → Course β}
    (hc : c.Paced World.Calm World.Calm w) (hE : World.Allows World.Calm E)
    (hnext : ∀ a w', (next a w').Paced World.Calm E w') :
    (c.andThen (Course.next next)).Paced World.Calm E w := by
  refine hc.andThen (fun {w₁ r} hw => ?_) fun e w₁ => ⟨w₁, rfl, rfl, rfl⟩
  cases r with
  | ok a w₂ => exact (hnext a w₂).since World.allows_calm hE hw
  | error e w₂ => exact hE.of_quiet hw

/-- One course after another. -/
theorem Follows.bind {x : Engine → Eval α} {k : Engine → α → Eval β} (hx : Calmly x)
    (hE : World.Allows World.Calm E) (hk : ∀ a, Follows World.Calm E fun en => k en a) :
    Follows World.Calm E fun en => x en >>= k en := by
  intro w
  obtain ⟨c, hc, hpaced⟩ := hx w
  -- the second course depends on the value that the first computation gives and on its end
  choose next hnext hpaced' using hk
  exact ⟨c.andThen (Course.next next), under_next hc hnext, paced_next hpaced hE hpaced'⟩

/-- Quiet work first. -/
theorem Quiet.before {x : Eval α} {k : Engine → α → Eval β} (hx : Quiet x)
    (hE : World.Allows World.Calm E) (hk : ∀ a, Follows World.Calm E fun en => k en a) :
    Follows World.Calm E fun en => x >>= k en :=
  Follows.bind (hx.follows World.allows_calm) hE hk

/-- A look at the world first. -/
theorem follows_get {k : Engine → World → Eval β} (hk : ∀ w, Follows Q E fun en => k en w) :
    Follows Q E fun en => get >>= k en :=
  fun w => hk w w

end Eval

end TinyLisp
