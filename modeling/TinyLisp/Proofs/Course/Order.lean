import TinyLisp.Proofs.Course.Step
import Mathlib.Data.List.Chain

/-!
# The order of states

The tasks that a computation asks for come in an order (`Engine.Trail`), and with it the states that
it passes: the one it begins in, those in which each of its tasks begins and ends, and the one it
ends in. `World.Before` is the order of all states of sessions, from one text to the next and inside
every task down to every depth. Worlds grow along it (`World.Before.grows`).
-/

namespace TinyLisp

/-! ## §1. Trails -/

namespace Engine

variable {en : Engine} {x : Engine → Eval Value} {w : World} {l : List (Task × World)}

/-- The tasks that a computation asks an engine for, in their order. -/
def Trail (en : Engine) (x : Engine → Eval Value) (w : World) (l : List (Task × World)) : Prop :=
  ∃ c : Course Value, (∀ en', x en' w = c.under en') ∧ c.Steady World.Grows w ∧ c.tasks en = l

/-- Every computation that takes steady courses leaves a trail. -/
theorem exists_trail (h : Eval.Follows World.Still World.Grows x) (en : Engine) (w : World) :
    ∃ l, en.Trail x w l := by
  obtain ⟨c, hc, hpaced⟩ := h w
  exact ⟨c.tasks en, c, hc, Course.paced_still_iff.1 hpaced, rfl⟩

/-- The tasks on a trail are those that the engine is consulted about. -/
theorem Trail.mem_iff (h : en.Trail x w l) {t : Task} {w' : World} :
    (t, w') ∈ l ↔ en.Consults x w t w' := by
  obtain ⟨c, hc, hsteady, rfl⟩ := h
  exact (hsteady.consults_iff hc).symm

/-- The states in which tasks begin and end, one task after another. -/
def states (en : Engine) (l : List (Task × World)) : List World :=
  l.flatMap fun p => [p.2, (en.perform p.1).after p.2]

/-- A computation passes one state before another. -/
def Passes (en : Engine) (x : Engine → Eval Value) (w a b : World) : Prop :=
  ∃ l, en.Trail x w l ∧ [a, b].Sublist (w :: (en.states l ++ [(x en).after w]))

end Engine

/-- Along a steady course each state has grown from the one before. -/
theorem Course.Steady.isChain {α : Type} {c : Course α} {en : Engine} {w : World}
    (h : c.Steady World.Grows w)
    (hen : ∀ (t : Task) (v : World), v.Grows ((en.perform t).after v)) :
    (w :: (en.states (c.tasks en) ++ [Eval.worldOf (c.under en)])).IsChain World.Grows := by
  -- every task makes two links: quiet work up to where it begins, and the task itself
  induction c generalizing w with
  | ends r => exact .cons_cons h (.singleton _)
  | asks t w' go ih =>
    have hrest := ih _ (h.2.2 (en.perform t w'))
    rw [← Eval.after_eq] at hrest
    exact .cons_cons h.1.grows (.cons_cons (hen t w') hrest)

/-! ## §2. The order -/

/-- One state of a session comes before another: in the run of the forms of a text, or of some of
them; in the run of a task; or because text is taken away. -/
inductive World.Before (ctx : Context) : World → World → Prop
  | text {s : Session} {source : String} {forms : List Value} {a b : World} (k : Nat)
    (h : s.Arises ctx) (hread : readData source = .ok forms)
    (hab : (Engine.ofDepth ctx s.depth).Passes
      (fun en => en.evalForms rootScope .nil (forms.take k)) s.world a b) : Before ctx a b
  | task {n : Nat} {t : Task} {w a b : World} (h : Occurs ctx (n + 1) t w)
    (hab : (Engine.ofDepth ctx n).Passes (fun en => en.step ctx t) w a b) : Before ctx a b
  | output {s : Session} (h : s.Arises ctx) : Before ctx s.world s.takeOutput.2.world
  | trans {a b c : World} (hab : Before ctx a b) (hbc : Before ctx b c) : Before ctx a c

/-- What a computation passes has grown, if the tasks let the world grow. -/
theorem Engine.Passes.grows {en : Engine} {x : Engine → Eval Value} {w a b : World}
    (hen : ∀ (t : Task) (v : World), v.Grows ((en.perform t).after v)) (h : en.Passes x w a b) :
    a.Grows b := by
  obtain ⟨l, ⟨c, hc, hsteady, rfl⟩, hab⟩ := h
  have hchain := hsteady.isChain hen
  rw [← hc en, ← Eval.after_eq] at hchain
  have htrans : IsTrans World World.Grows := ⟨fun _ _ _ => World.Grows.trans⟩
  -- growth is transitive, so that it holds between any two states and not only neighbours
  have hpairs := (List.isChain_iff_pairwise.1 hchain).sublist hab
  exact List.rel_of_pairwise_cons hpairs (by simp)

/-- Worlds grow in the order of states. -/
theorem World.Before.grows {ctx : Context} {a b : World} (h : World.Before ctx a b) :
    a.Grows b := by
  induction h with
  | text k h hread hab => exact hab.grows (Engine.perform_grows ctx _)
  | task h hab => exact hab.grows (Engine.perform_grows ctx _)
  | output h => exact World.grows_of_store (.refl _) rfl
  | trans _ _ ih ih' => exact ih.trans ih'

/-! ## §3. What comes before what -/

namespace World.Before

variable {ctx : Context} {s : Session} {n : Nat} {t : Task} {w : World}

/-- The state in which a task begins comes before the one in which it ends. -/
theorem ends (h : Occurs ctx (n + 1) t w) :
    World.Before ctx w (((Engine.ofDepth ctx (n + 1)).perform t).after w) := by
  obtain ⟨l, hl⟩ := Engine.exists_trail (Engine.follows_step ctx t) (Engine.ofDepth ctx n) w
  refine .task h ⟨l, hl, ?_⟩
  rw [Engine.perform_ofDepth_succ]
  exact .cons_cons w (List.singleton_sublist.2 (by simp))

/-- The states in which the tasks inside it begin and end come between. -/
theorem inner {t' : Task} {w' : World} (h : Occurs ctx (n + 1) t w)
    (ht : (Engine.ofDepth ctx n).Consults (fun en => en.step ctx t) w t' w') :
    World.Before ctx w w' ∧ World.Before ctx (((Engine.ofDepth ctx n).perform t').after w')
      (((Engine.ofDepth ctx (n + 1)).perform t).after w) := by
  obtain ⟨l, hl⟩ := Engine.exists_trail (Engine.follows_step ctx t) (Engine.ofDepth ctx n) w
  -- the trail splits at the task, and the states that are passed split with it
  obtain ⟨l₁, l₂, rfl⟩ := List.append_of_mem (hl.mem_iff.2 ht)
  have hstates : (Engine.ofDepth ctx n).states (l₁ ++ (t', w') :: l₂) =
      (Engine.ofDepth ctx n).states l₁ ++
        (w' :: ((Engine.ofDepth ctx n).perform t').after w' ::
          (Engine.ofDepth ctx n).states l₂) := by
    simp [Engine.states]
  rw [Engine.perform_ofDepth_succ]
  refine ⟨.task h ⟨_, hl, ?_⟩, .task h ⟨_, hl, ?_⟩⟩
  · rw [hstates]
    exact .cons_cons w (List.singleton_sublist.2 (by simp))
  · rw [hstates]
    have hmiddle := List.singleton_sublist.2 (show ((Engine.ofDepth ctx n).perform t').after w' ∈
      (Engine.ofDepth ctx n).states l₁ ++ (w' :: ((Engine.ofDepth ctx n).perform t').after w' ::
        (Engine.ofDepth ctx n).states l₂) by simp)
    exact (hmiddle.append (.refl _)).cons w

/-- A step of a session leads to a later state, unless nothing is evaluated in it. -/
theorem take (h : s.Arises ctx) (step : SessionStep) :
    (s.take step).2.world = s.world ∨ World.Before ctx s.world (s.take step).2.world := by
  -- a file that is evaluated is evaluated as the text it holds
  have htext : ∀ source, (s.evalText source).2.world = s.world ∨
      World.Before ctx s.world (s.evalText source).2.world := by
    intro source
    unfold Session.evalText
    cases hread : readData source with
    | error e => exact .inl rfl
    | ok forms =>
      obtain ⟨l, hl⟩ := Engine.exists_trail
        (Eval.follows_evalForms rootScope .nil (forms.take forms.length)).grows (Engine.ofDepth ctx s.depth) s.world
      refine .inr (.text forms.length h hread ⟨l, hl, ?_⟩)
      show [s.world, (s.run _).2.world].Sublist _
      rw [Session.run_world, Session.engine, h.context_eq, List.take_length]
      exact .cons_cons s.world (List.singleton_sublist.2 (by simp))
  cases step with
  | text source => exact htext source
  | file path =>
    show (s.evalFile path).2.world = s.world ∨ World.Before ctx s.world (s.evalFile path).2.world
    unfold Session.evalFile
    cases s.context.disk.readText path with
    | error e => exact .inl rfl
    | ok source => exact htext source

end World.Before

end TinyLisp
