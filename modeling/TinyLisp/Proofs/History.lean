import TinyLisp.Proofs.Course.Order
import Mathlib.Data.Set.Basic

/-!
# Histories

A session has a history: the tasks that were performed in it up to now (`Session.Arose`). So has
every moment of a session, between the tasks that were performed before it and those that are not
yet done (`Moment.Comes`). Sessions and moments with their histories are the sessions and moments
that there can be (`Session.Arises.arose`, `Occurs.comes`).
-/

namespace TinyLisp

/-! ## §1. Moments -/

/-- A task with the depth that it has and the world in which it begins. -/
structure Moment where
  depth : Nat
  task : Task
  world : World

namespace Moment

variable {ctx : Context}

/-- What a moment ends in. -/
def result (ctx : Context) (a : Moment) : EStateM.Result Halt World Value :=
  (Engine.ofDepth ctx a.depth).perform a.task a.world

/-- A moment is part of another: the same, or part of a task that the other consults about. -/
inductive Part (ctx : Context) : Moment → Moment → Prop
  | self (a : Moment) : Part ctx a a
  | task {n : Nat} {t t' : Task} {w w' : World} {a : Moment}
    (h : (Engine.ofDepth ctx n).Consults (fun en => en.step ctx t) w t' w')
    (ha : Part ctx a ⟨n, t', w'⟩) : Part ctx a ⟨n + 1, t, w⟩

/-- The moments that are part of some tasks of one depth. -/
def among (ctx : Context) (n : Nat) (l : List (Task × World)) : Set Moment :=
  { a | ∃ p ∈ l, Part ctx a ⟨n, p.1, p.2⟩ }

end Moment

/-! ## §2. Histories of sessions -/

/-- The sessions that there can be, with the moments that were part of them. -/
inductive Session.Arose (ctx : Context) : Session → Set Moment → Prop
  | bare (depth : Nat) : Arose ctx ⟨ctx, depth, primitiveWorld⟩ ∅
  | forms {s : Session} {past : Set Moment} {source : String} {forms : List Value} (k : Nat)
    {l : List (Task × World)} (h : Arose ctx s past) (hread : readData source = .ok forms)
    (hl : (Engine.ofDepth ctx s.depth).Trail
      (fun en => en.evalForms rootScope .nil (forms.take k)) s.world l) :
    Arose ctx (s.evalData (forms.take k)).2 (past ∪ Moment.among ctx s.depth l)
  | output {s : Session} {past : Set Moment} (h : Arose ctx s past) :
    Arose ctx s.takeOutput.2 past

namespace Session

variable {ctx : Context} {s : Session} {past : Set Moment}

theorem exists_trail_forms (s : Session) (ctx : Context) (forms : List Value) :
    ∃ l, (Engine.ofDepth ctx s.depth).Trail (fun en => en.evalForms rootScope .nil forms)
      s.world l :=
  Engine.exists_trail (Eval.follows_evalForms rootScope .nil forms).grows _ _

theorem Arose.arises (h : s.Arose ctx past) : s.Arises ctx := by
  induction h with
  | bare depth => exact .bare depth
  | forms k _ hread _ ih => exact .forms k ih hread
  | output _ ih => exact .output ih

/-- A text adds to the history. -/
theorem Arose.evalText (h : s.Arose ctx past) (source : String) :
    ∃ past', past ⊆ past' ∧ (s.evalText source).2.Arose ctx past' := by
  unfold Session.evalText
  cases hread : readData source with
  | error e => exact ⟨past, subset_rfl, h⟩
  | ok forms =>
    obtain ⟨l, hl⟩ := s.exists_trail_forms ctx (forms.take forms.length)
    have hall := Arose.forms forms.length h hread hl
    rw [List.take_length] at hall
    exact ⟨_, Set.subset_union_left, hall⟩

/-- Every session has a history. -/
theorem Arises.arose (h : s.Arises ctx) : ∃ past, s.Arose ctx past := by
  induction h with
  | bare depth => exact ⟨∅, .bare depth⟩
  | @forms s source forms k _ hread ih =>
    obtain ⟨past, hpast⟩ := ih
    -- the trail of the forms is what the text adds
    obtain ⟨l, hl⟩ := s.exists_trail_forms ctx (forms.take k)
    exact ⟨_, .forms k hpast hread hl⟩
  | output _ ih =>
    obtain ⟨past, hpast⟩ := ih
    exact ⟨past, .output hpast⟩

end Session

/-! ## §3. Histories of moments -/

/-- A moment of a session comes when certain moments have been: those of the session before, and
those that are part of the tasks done before it, at every depth. -/
inductive Moment.Comes (ctx : Context) : Moment → Set Moment → Prop
  | text {s : Session} {past : Set Moment} {source : String} {forms : List Value}
    {l l' : List (Task × World)} {t : Task} {w : World} (h : s.Arose ctx past)
    (hread : readData source = .ok forms)
    (hl : (Engine.ofDepth ctx s.depth).Trail (fun en => en.evalForms rootScope .nil forms)
      s.world (l ++ (t, w) :: l')) :
    Comes ctx ⟨s.depth, t, w⟩ (past ∪ among ctx s.depth l)
  | inner {n : Nat} {past : Set Moment} {l l' : List (Task × World)} {t t' : Task} {w w' : World}
    (h : Comes ctx ⟨n + 1, t, w⟩ past)
    (hl : (Engine.ofDepth ctx n).Trail (fun en => en.step ctx t) w (l ++ (t', w') :: l')) :
    Comes ctx ⟨n, t', w'⟩ (past ∪ among ctx n l)

theorem Moment.Comes.occurs {ctx : Context} {a : Moment} {past : Set Moment}
    (h : a.Comes ctx past) : Occurs ctx a.depth a.task a.world := by
  induction h with
  | text h hread hl => exact .top h.arises hread (hl.mem_iff.1 (by simp))
  | inner _ hl ih => exact .inner ih (hl.mem_iff.1 (by simp))

/-- Every moment of a session has a history. -/
theorem Occurs.comes {ctx : Context} {n : Nat} {t : Task} {w : World} (h : Occurs ctx n t w) :
    ∃ past, Moment.Comes ctx ⟨n, t, w⟩ past := by
  induction h with
  | @top s source forms t w h hread ht =>
    obtain ⟨past, hpast⟩ := h.arose
    obtain ⟨l, hl⟩ := s.exists_trail_forms ctx forms
    obtain ⟨l₁, l₂, rfl⟩ := List.append_of_mem (hl.mem_iff.2 ht)
    exact ⟨_, .text hpast hread hl⟩
  | @inner n t t' w w' _ ht ih =>
    obtain ⟨past, hpast⟩ := ih
    obtain ⟨l, hl⟩ := Engine.exists_trail (Engine.follows_step ctx t) (Engine.ofDepth ctx n) w
    obtain ⟨l₁, l₂, rfl⟩ := List.append_of_mem (hl.mem_iff.2 ht)
    exact ⟨_, .inner hpast hl⟩

/-- The worlds that there can be, with their histories: of a session at top level, and those in
which tasks are performed. -/
inductive World.Arose (ctx : Context) : World → Set Moment → Prop
  | top {s : Session} {past : Set Moment} (h : s.Arose ctx past) : Arose ctx s.world past
  | moment {a : Moment} {past : Set Moment} (h : a.Comes ctx past) : Arose ctx a.world past

end TinyLisp
