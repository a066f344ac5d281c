import TinyLisp.Proofs.Invariant.Run

/-!
# What a run does not lose

That an invariant holds at every moment does not tell how the stages of one run follow each other. What
a run has come by at one moment is not lost later if the stages at which it is there are *apart*
(`Invariant.Apart`), and the run with an engine that goes on is compared with the run with one that
stops there. The two end differently, so the first one ends apart (`Invariant.KeptIn.ends_apart`).

For a later task the first engine is made to fail there, in a world that may only be left behind at
stages that are not apart (`Invariant.Spoils`). As it does not end so, the task began apart
(`Invariant.KeptIn.begins_apart`).
-/

namespace TinyLisp

open Store (Confined)

variable {ctx : Context} {B : Set Moment}

/-! ## §1. Engines that stop at a task -/

theorem Engine.Isolates.failingAt {en : Engine} (hen : en.Isolates) (t : Task) {w w₁ : World}
    (h : ∀ o, Confined o w.store w₁.store) : (en.failingAt t w w₁).Isolates := by
  refine Engine.isolates_iff.2 fun u v hr => ?_
  by_cases heq : (u, v) = (t, w)
  · cases heq
    rw [Eval.after_of_error (en.perform_failingAt_self t w w₁)]
    exact h _
  · unfold Eval.after
    rw [en.perform_failingAt_of_ne w₁ heq]
    exact Engine.isolates_iff.1 hen u v hr

namespace Invariant

variable {I : Invariant} {en : Engine} {t : Task} {w w' w₁ : World}

/-- An engine ends a task apart wherever the task may be performed. -/
def SetsApart (I : Invariant) (en : Engine) (t : Task) (w : World) : Prop :=
  ∀ {K : I.Stage}, I.Holds K w → I.Ready K t →
    I.EndsApart K (fun K' v => I.Good K' v) (en.perform t w)

/-- An engine beside one that stops at a task, if the task ends apart. -/
theorem Engines.stopping (hen : I.Engines en en) (h : I.SetsApart en t w') (w₁ : World) :
    I.Engines en (en.failingAt t w' w₁) := by
  refine .of_perform hen.kept hen.isolates fun {K u} hu v hv => ?_
  obtain ⟨-, hends⟩ := hen.perform hu v hv
  by_cases heq : (u, v) = (t, w')
  · cases heq
    exact ⟨.inr ⟨⟨w₁, en.perform_failingAt_self t w' w₁⟩, h hv hu⟩, hends⟩
  · exact .of_ends ⟨.inl (en.perform_failingAt_of_ne w₁ heq).symm, hends⟩

/-- An engine that fails at a task in a world that may be left behind. -/
theorem Engines.failing (hen : I.Engines en en) (hconfined : ∀ o, Confined o w'.store w₁.store)
    (h : ∀ {K : I.Stage}, I.Holds K w' → I.Ready K t → I.Left K w₁) :
    I.Engines (en.failingAt t w' w₁) (en.failingAt t w' w₁) := by
  refine .of_perform hen.kept (hen.isolates.failingAt t hconfined) fun {K u} hu v hv => .same ?_
  by_cases heq : (u, v) = (t, w')
  · cases heq
    rw [en.perform_failingAt_self]
    exact h hv hu
  · rw [en.perform_failingAt_of_ne w₁ heq]
    exact (hen.perform hu v hv).ends

/-! ## §2. Later tasks and ends -/

variable {n : Nat} {K : I.Stage} {P : I.Stage → Value → Prop} {x : Engine → Eval Value}

/-- A computation that asks for a task that ends apart ends apart. -/
theorem Engines.ends_apart (hen : I.Engines en en) (hstrict : ¬ I.lax)
    (hruns : ∀ en', I.Engines en en' → I.RunsAt K P (x en) (x en') w) {c : Course Value}
    {E : World → World → Prop} {w₀ : World} (hc : ∀ en, x en w = c.under en)
    (hsteady : c.Steady E w₀) (ht : (t, w') ∈ c.tasks en) (h : I.SetsApart en t w') :
    I.EndsApart K P (x en w) := by
  obtain ⟨w₁, hne⟩ := hsteady.exists_failingAt_ne ht
  rcases (hruns _ (hen.stopping h w₁)).agree with (heq | ⟨hlax, -⟩) | ⟨-, hapart⟩
  · rw [hc, hc] at heq
    exact absurd heq.symm hne
  · exact absurd hlax hstrict
  · exact hapart

/-- Any store may grow into one with which a world may be left behind at all stages that are not
apart, and at no others. -/
structure Spoils (I : Invariant) (S : Store → Prop) : Prop where
  exists_spoiled : ∀ s, ∃ s', (∀ o, Confined o s s') ∧ S s'
  left : ∀ {K : I.Stage} {w : World}, ¬ I.Apart K → S w.store → I.Left K w
  not_left : ∀ {K : I.Stage} {w : World}, I.Apart K → S w.store → ¬ I.Left K w

namespace KeptIn

variable {l l' : List (Task × World)} {p q : Task × World}

/-- In a run, a computation that asks for a task that ends apart ends apart. -/
theorem ends_apart (hI : I.KeptIn ctx B) (hstrict : ¬ I.lax) (hx : I.Keeps ctx B n K P x w)
    (hl : (Engine.ofDepth ctx n).Trail x w l) (hp : p ∈ l)
    (h : I.SetsApart (Engine.ofDepth ctx n) p.1 p.2) :
    I.EndsApart K P (x (Engine.ofDepth ctx n) w) := by
  have hmem := hx.answers (hl.mem_iff.1 hp)
  obtain ⟨c, hc, hsteady, rfl⟩ := hl
  have hsame := hx.answers.perform_eq hsteady hc
  rw [hc, ← Course.under_congr hsame, ← hc]
  rw [← Course.tasks_congr hsame] at hp
  refine (hI.engines n).ends_apart hstrict (hx.runs _) hc hsteady hp ?_
  unfold SetsApart
  rw [Engine.perform_inRun hmem]
  exact h

/-- And a task that it asks for later, but not before, begins apart. -/
theorem begins_apart (hI : I.KeptIn ctx B) (hstrict : ¬ I.lax) {S : Store → Prop}
    (hS : I.Spoils S) (hx : I.Keeps ctx B n K P x w)
    (hl : (Engine.ofDepth ctx n).Trail x w (l ++ p :: l')) (hq : q ∈ l') (hbefore : q ∉ p :: l)
    (h : I.SetsApart (Engine.ofDepth ctx n) p.1 p.2) :
    ∃ K', I.Holds K' q.2 ∧ I.Ready K' q.1 ∧ I.Apart K' := by
  have hmem := hx.answers (hl.mem_iff.1 (List.mem_append_right l List.mem_cons_self))
  obtain ⟨c, hc, hsteady, htasks⟩ := hl
  have hrun := (Course.tasks_congr (hx.answers.perform_eq hsteady hc)).trans htasks
  by_contra hnot
  -- the engine for the run, but failing at the later task in a spoiled world
  obtain ⟨s, hconfined, hs⟩ := hS.exists_spoiled q.2.store
  let en := Engine.inRun ctx B n
  let w₁ : World := { q.2 with store := s }
  have hen : I.Engines (en.failingAt q.1 q.2 w₁) (en.failingAt q.1 q.2 w₁) :=
    (hI.engines n).failing hconfined
      fun hw ht => hS.left (fun hapart => hnot ⟨_, hw, ht, hapart⟩) hs
  have hother : ∀ u ∈ p :: l, (en.failingAt q.1 q.2 w₁).perform u.1 u.2 = en.perform u.1 u.2 :=
    fun u hu => en.perform_failingAt_of_ne w₁ fun heq => hbefore ((show u = q from heq) ▸ hu)
  have hasked := Course.mem_tasks_of_prefix (fun u hu => hother u (by simp [hu])) hrun
  have hsets : I.SetsApart (en.failingAt q.1 q.2 w₁) p.1 p.2 := by
    unfold SetsApart
    rw [hother p (by simp), Engine.perform_inRun hmem]
    exact h
  have hapart := hen.ends_apart hstrict (hx.runs _) hc hsteady hasked hsets
  -- it fails there, although nothing is left spoiled at a stage that is apart
  have hlater : (q.1, q.2) ∈ c.tasks en := by
    rw [hrun]
    exact List.mem_append_right l (List.mem_cons_of_mem p hq)
  obtain ⟨w₂, hstore, -, hfails⟩ := hsteady.under_failingAt hlater w₁
  rw [hc, hfails] at hapart
  obtain ⟨K', hK', hleft⟩ := hapart
  exact hS.not_left hK' (hstore ▸ hs) hleft

end KeptIn

end Invariant

/-! ## §3. Growth along a trail -/

namespace Engine.Trail

variable {en : Engine} {x : Engine → Eval Value} {w : World} {l l' : List (Task × World)}
  {p q : Task × World}

/-- From the beginning of the whole to the beginning of a task the world grows. -/
theorem grows_from (h : en.Trail x w l)
    (hen : ∀ (t : Task) (v : World), v.Grows ((en.perform t).after v)) (hq : q ∈ l) :
    w.Grows q.2 := by
  refine Engine.Passes.grows hen ⟨_, h, .cons_cons w (List.singleton_sublist.2 ?_)⟩
  exact List.mem_append_left _ (List.mem_flatMap.2 ⟨q, hq, by simp⟩)

/-- From the beginning to the end of the whole it grows. -/
theorem grows (h : en.Trail x w l)
    (hen : ∀ (t : Task) (v : World), v.Grows ((en.perform t).after v)) :
    w.Grows ((x en).after w) :=
  Engine.Passes.grows hen ⟨_, h, .cons_cons w (List.sublist_append_right _ _)⟩

/-- From the end of a task to the beginning of a later one it grows. -/
theorem grows_to (h : en.Trail x w (l ++ p :: l'))
    (hen : ∀ (t : Task) (v : World), v.Grows ((en.perform t).after v)) (hq : q ∈ l) :
    ((en.perform q.1).after q.2).Grows p.2 := by
  obtain ⟨l₁, l₂, rfl⟩ := List.append_of_mem hq
  refine Engine.Passes.grows hen ⟨_, h, ?_⟩
  have hend : [(en.perform q.1).after q.2].Sublist (en.states (l₁ ++ q :: l₂)) :=
    List.singleton_sublist.2 (by simp [Engine.states])
  have hbegin : [p.2].Sublist (en.states (p :: l') ++ [(x en).after w]) :=
    List.singleton_sublist.2 (by simp [Engine.states])
  have hboth := (hend.append hbegin).cons w
  rw [← List.append_assoc, Engine.states, Engine.states, ← List.flatMap_append] at hboth
  exact hboth

/-- From the end of a task to the end of the whole it grows. -/
theorem grows_end (h : en.Trail x w l)
    (hen : ∀ (t : Task) (v : World), v.Grows ((en.perform t).after v)) (hq : q ∈ l) :
    ((en.perform q.1).after q.2).Grows ((x en).after w) := by
  refine Engine.Passes.grows hen ⟨_, h, ?_⟩
  have hend : [(en.perform q.1).after q.2].Sublist (en.states l) :=
    List.singleton_sublist.2 (List.mem_flatMap.2 ⟨q, hq, by simp⟩)
  exact (hend.append (.refl _)).cons w

end Engine.Trail

namespace Moment

/-- The state in which a moment ends. -/
def after (ctx : Context) (a : Moment) : World :=
  ((Engine.ofDepth ctx a.depth).perform a.task).after a.world

variable {a b : Moment}

/-- Worlds grow from the beginning of a moment to that of every part. -/
theorem Part.grows (h : Part ctx b a) : a.world.Grows b.world := by
  induction h with
  | self => exact .refl _
  | task ht _ ih => exact (Engine.consults_grows ht).trans ih

/-- And from the end of every part to that of the moment. -/
theorem Part.after_grows (h : Part ctx b a) : (b.after ctx).Grows (a.after ctx) := by
  induction h with
  | self => exact .refl _
  | @task n t t' w w' b ht _ ih =>
    obtain ⟨l, hl⟩ := Engine.exists_trail (Engine.follows_step ctx t) (Engine.ofDepth ctx n) w
    refine ih.trans ?_
    show World.Grows _ (((Engine.ofDepth ctx (n + 1)).perform t).after w)
    rw [Engine.perform_ofDepth_succ]
    exact hl.grows_end (Engine.perform_grows ctx n) (hl.mem_iff.2 ht)

theorem grows_after (a : Moment) : a.world.Grows (a.after ctx) :=
  Engine.perform_grows ctx _ _ _

end Moment

end TinyLisp
