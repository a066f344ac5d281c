import TinyLisp.Proofs.Invariant.Step
import TinyLisp.Proofs.Strategies

/-!
# The moments of a session

A session arises from one that has done nothing by evaluating forms, any number of those of any
text. On its way, evaluations and applications take place inside others, and each of them begins
in some world. `Occurs` says which: an engine is *consulted* about a task in a world by a
computation whose end depends on what the engine does there. Nothing in the evaluator hides a
failure, so that whatever is really evaluated or applied is consulted.

An invariant that every evaluation keeps holds when a session is back at top level, and at every
moment on the way (`Invariant.Kept.arises`, `Invariant.Kept.occurs`).
-/

namespace TinyLisp

/-! ## §1. Tasks -/

/-- What an engine can be asked to do. -/
inductive Task
  | eval (e : Expr) (scope : Scope)
  | apply (f : Value) (args : List Value)

namespace Engine

/-- What an engine does when asked. -/
def perform (en : Engine) : Task → Eval Value
  | .eval e scope => en.eval e scope
  | .apply f args => en.apply f args

/-- What one step over an engine does. -/
def step (ctx : Context) (en : Engine) : Task → Eval Value
  | .eval e scope => evalStep ctx en e scope
  | .apply f args => applyStep en f args

theorem perform_ofDepth_succ (ctx : Context) (n : Nat) (t : Task) :
    (ofDepth ctx (n + 1)).perform t = (ofDepth ctx n).step ctx t := by
  cases t with
  | eval e scope => rfl
  | apply f args => rfl

/-- A computation over engines, run in a world, consults an engine about a task in another world:
with an engine that does something else there and is the same everywhere else, it would end
differently. -/
def Consults (en : Engine) (x : Engine → Eval Value) (w : World) (t : Task) (w' : World) :
    Prop :=
  ∃ en' : Engine, (∀ u v, (u, v) ≠ (t, w') → en'.perform u v = en.perform u v) ∧
    x en' w ≠ x en w

/-- Two worlds that differ in the text written. -/
theorem exists_ne_world (w : World) : ∃ w' : World, w' ≠ w := by
  refine ⟨{ w with output := w.output ++ " " }, fun h => ?_⟩
  have hlen := congrArg (fun w : World => w.output.length) h
  simp at hlen

open Classical in
/-- A computation that comes to a task consults the engine about it: it would end differently with an
engine that fails there. Up to the task only engines matter that are the same everywhere else. -/
theorem consults_of_reaches {en : Engine} {x : Engine → Eval Value}
    {k : Engine → Value → Eval Value} {w w' : World} {t : Task}
    (h : ∀ en' : Engine, (∀ u v, (u, v) ≠ (t, w') → en'.perform u v = en.perform u v) →
      x en' w = (en'.perform t >>= k en') w') : en.Consults x w t w' := by
  -- an engine that fails in the given world when asked for the task there, and a second such
  -- world in case the first is what the computation ends in anyway
  let failing (w₁ : World) : Engine :=
    { eval := fun e scope v =>
        if (Task.eval e scope, v) = (t, w') then .error .exhausted w₁ else en.eval e scope v
      apply := fun f args v =>
        if (Task.apply f args, v) = (t, w') then .error .exhausted w₁ else en.apply f args v }
  have hperform : ∀ w₁ u v, (failing w₁).perform u v =
      if (u, v) = (t, w') then .error .exhausted w₁ else en.perform u v := by
    intro w₁ u v
    cases u <;> rfl
  have hsame : ∀ w₁ u v, (u, v) ≠ (t, w') → (failing w₁).perform u v = en.perform u v := by
    intro w₁ u v hne
    rw [hperform, if_neg hne]
  have hfails : ∀ w₁, x (failing w₁) w = .error .exhausted w₁ := by
    intro w₁
    rw [h (failing w₁) (hsame w₁)]
    refine Eval.bind_of_error ?_
    rw [hperform, if_pos rfl]
  obtain ⟨w₂, hw₂⟩ := exists_ne_world w'
  by_cases hx : x en w = .error .exhausted w'
  · refine ⟨failing w₂, hsame w₂, ?_⟩
    rw [hfails, hx]
    intro heq
    cases heq
    exact hw₂ rfl
  · refine ⟨failing w', hsame w', ?_⟩
    rw [hfails]
    exact fun heq => hx heq.symm

/-- A computation that begins with a task consults the engine about it. -/
theorem consults_of_bind {en : Engine} {x : Engine → Eval Value} {k : Engine → Value → Eval Value}
    {w w' : World} {t : Task} (h : ∀ en, x en w = (en.perform t >>= k en) w') :
    en.Consults x w t w' :=
  consults_of_reaches fun en' _ => h en'

end Engine

/-! ## §2. Sessions and moments -/

/-- The sessions that there can be: one that has done nothing, with any depth; one that has
evaluated the forms of some text up to some place among them, whether they failed or not; and one
whose text has been taken away. -/
inductive Session.Arises (ctx : Context) : Session → Prop
  | bare (depth : Nat) : Arises ctx ⟨ctx, depth, primitiveWorld⟩
  | forms {s : Session} {source : String} {forms : List Value} (k : Nat) (h : Arises ctx s)
    (hread : readData source = .ok forms) : Arises ctx (s.evalData (forms.take k)).2
  | output {s : Session} (h : Arises ctx s) : Arises ctx s.takeOutput.2

/-- The tasks that are performed in sessions, each with the levels of depth that it has and the
world in which it begins. -/
inductive Occurs (ctx : Context) : Nat → Task → World → Prop
  /-- A form of a text consults the engine of the session. -/
  | top {s : Session} {source : String} {forms : List Value} {t : Task} {w : World}
    (h : s.Arises ctx) (hread : readData source = .ok forms)
    (ht : (Engine.ofDepth ctx s.depth).Consults (fun en => en.evalForms rootScope .nil forms)
      s.world t w) : Occurs ctx s.depth t w
  /-- A step consults the engine of one level less. -/
  | inner {n : Nat} {t t' : Task} {w w' : World} (h : Occurs ctx (n + 1) t w)
    (ht : (Engine.ofDepth ctx n).Consults (fun en => en.step ctx t) w t' w') :
    Occurs ctx n t' w'

/-- The first form of a text is evaluated, once its pairs have their tags. -/
theorem Occurs.first {ctx : Context} {s : Session} (h : s.Arises ctx) {source : String}
    {form : Value} {forms : List Value} (hread : readData source = .ok (form :: forms))
    {e : Expr} (he : Expr.build (form.tag s.world.nextTag).1 = .ok e) :
    Occurs ctx s.depth (.eval e rootScope)
      { s.world with nextTag := (form.tag s.world.nextTag).2 } := by
  refine .top h hread (Engine.consults_of_bind (k := fun en v => en.evalForms rootScope v forms) ?_)
  intro en
  have hform : en.evalForm rootScope (form.tag s.world.nextTag).1 = en.eval e rootScope := by
    unfold Engine.evalForm
    rw [he]
  show (en.evalForm rootScope (form.tag s.world.nextTag).1 >>= fun v =>
    en.evalForms rootScope v forms) _ = _
  rw [hform]
  rfl

namespace Session

variable {ctx : Context} {s : Session}

theorem run_context (s : Session) (x : Eval Value) : (s.run x).2.context = s.context := by
  unfold run
  split <;> rfl

theorem run_world (s : Session) (x : Eval Value) : (s.run x).2.world = x.after s.world := by
  unfold run Eval.after
  split <;> rename_i h <;> rw [h]

theorem Arises.context_eq (h : s.Arises ctx) : s.context = ctx := by
  induction h with
  | bare depth => rfl
  | forms k _ _ ih => rw [← ih]; exact run_context _ _
  | output _ ih => exact ih

theorem Arises.evalText (h : s.Arises ctx) (source : String) :
    (s.evalText source).2.Arises ctx := by
  unfold Session.evalText
  cases hread : readData source with
  | error e => exact h
  | ok forms =>
    have hall := Arises.forms forms.length h hread
    rwa [List.take_length] at hall

/-- Every step of a session leads to one. -/
theorem Arises.take (h : s.Arises ctx) (step : SessionStep) : (s.take step).2.Arises ctx := by
  cases step with
  | text source => exact h.evalText source
  | file path =>
    show (s.evalFile path).2.Arises ctx
    unfold Session.evalFile
    cases s.context.disk.readText path with
    | error e => exact h
    | ok source => exact h.evalText source

theorem arises_of_begun {p : Outcome × Session} (hp : p.2.Arises ctx) (h : begun p = .ok s) :
    s.Arises ctx := by
  obtain ⟨r, s'⟩ := p
  cases r with
  | ok v =>
    cases h
    exact hp
  | error e => cases h

/-- A new session is one that there can be. -/
theorem arises_of_startWithin {depth : Nat} (h : startWithin depth ctx = .ok s) :
    s.Arises ctx := by
  have hbare : Arises ctx ⟨ctx, depth, primitiveWorld⟩ := .bare depth
  exact arises_of_begun (hbare.evalText prelude) h

end Session

/-! ## §3. Invariants at every moment -/

namespace Invariant

variable {I : Invariant} {K : I.Stage} {ctx : Context} {n : Nat} {t : Task} {w : World}

/-- At a stage a task may be performed. -/
def Ready (I : Invariant) (K : I.Stage) : Task → Prop
  | .eval e scope => I.Fits K e ∧ I.Active K scope
  | .apply f args => I.Good K f ∧ I.Lists K args

theorem Engines.perform {en en' : Engine} (hen : I.Engines en en') (ht : I.Ready K t) :
    I.Runs K (fun K' v => I.Good K' v) (en.perform t) (en'.perform t) := by
  cases t with
  | eval e scope => exact hen.eval ht.1 ht.2
  | apply f args => exact hen.apply ht.1 ht.2

/-- Engines that isolate frames and run ready tasks well keep an invariant. -/
theorem Engines.of_perform (hI : I.KeptOutside) {en en' : Engine} (hisolates : en.Isolates)
    (h : ∀ {K : I.Stage} {t : Task}, I.Ready K t →
      I.Runs K (fun K' v => I.Good K' v) (en.perform t) (en'.perform t)) : I.Engines en en' where
  kept := hI
  isolates := hisolates
  eval := fun {K e scope} he hs => @h K (.eval e scope) ⟨he, hs⟩
  apply := fun {K f vs} hf hvs => @h K (.apply f vs) ⟨hf, hvs⟩

theorem Engines.step {en en' : Engine} (hen : I.Engines en en') (hI : I.Kept) (ht : I.Ready K t) :
    I.Runs K (fun K' v => I.Good K' v) (en.step ctx t) (en'.step ctx t) := by
  cases t with
  | eval e scope => exact hen.evalStep hI ht.1 ht.2
  | apply f args => exact hen.applyStep hI ht.1 ht.2

/-- What is consulted by a computation that keeps an invariant is ready to be performed. For if
it were not, an engine that does something else there would keep the invariant just as well, and
the computation would not see the difference. -/
theorem Engines.consulted {en : Engine} (hen : I.Engines en en) (hstrict : ¬ I.lax)
    {P : I.Stage → Value → Prop} {x : Engine → Eval Value} {w' : World}
    (hx : ∀ en', I.Engines en en' → I.RunsAt K P (x en) (x en') w)
    (h : en.Consults x w t w') (hnone : ∀ K : I.Stage, ¬ I.Apart K := by exact fun _ h => h) :
    ∃ K', I.Holds K' w' ∧ I.Ready K' t := by
  obtain ⟨en', hsame, hne⟩ := h
  by_contra hnot
  have hen' : I.Engines en en' := .of_perform hen.kept hen.isolates fun {K' u} hu v hv => by
    have hother : (u, v) ≠ (t, w') := by
      intro heq
      cases heq
      exact hnot ⟨K', hv, hu⟩
    obtain ⟨-, hends⟩ := hen.perform hu v hv
    exact .of_ends ⟨.inl (hsame u v hother).symm, hends⟩
  rcases (hx en' hen').agrees hnone with heq | ⟨hlax, -⟩
  · exact hne heq.symm
  · exact hstrict hlax

namespace Kept

theorem consulted (hI : I.Kept) (hstrict : ¬ I.lax) {x : Engine → Eval Value} {w' : World}
    (hx : ∀ en', I.Engines (Engine.ofDepth ctx n) en' →
      I.Runs K (fun K' v => I.Good K' v) (x (Engine.ofDepth ctx n)) (x en'))
    (hw : I.Holds K w) (h : (Engine.ofDepth ctx n).Consults x w t w')
    (hnone : ∀ K : I.Stage, ¬ I.Apart K := by exact fun _ h => h) :
    ∃ K', I.Holds K' w' ∧ I.Ready K' t :=
  (hI.engines_ofDepth ctx n).consulted hstrict (fun en' hen' => hx en' hen' w hw) h hnone

/-- An invariant holds whenever a session is at top level. -/
theorem arises (hI : I.Kept) (hstart : I.Starts) {s : Session} (h : s.Arises ctx) :
    ∃ K, I.Holds K s.world ∧ I.Works K rootFrame := by
  induction h with
  | bare depth => exact hstart.start
  | @forms s source forms k h hread ih =>
    obtain ⟨K, hw, hroot⟩ := ih
    have hdata : ∀ form ∈ forms.take k, Datum form :=
      fun form hf => readData_datum hread form (List.mem_of_mem_take hf)
    have hnil : I.Good K .nil := hI.atom rfl trivial
    have hruns := (hI.engines_ofDepth s.context s.depth).evalForms hnil hdata
      (hI.active_root hroot)
    have hends := (hruns s.world hw).ends
    show ∃ K, I.Holds K (s.run _).2.world ∧ _
    rw [Session.run_world]
    exact hstart.recover hroot (hends.left hI.toKeptOutside)
  | output h ih =>
    obtain ⟨K, hw, hroot⟩ := ih
    obtain ⟨K', hK, hw', -⟩ := hI.output "" hw
    exact ⟨K', hw', hI.works_mono hK hroot⟩

/-- An invariant holds whenever a task is performed. -/
theorem occurs (hI : I.Kept) (hstart : I.Starts) (hstrict : ¬ I.lax) (h : Occurs ctx n t w)
    (hnone : ∀ K : I.Stage, ¬ I.Apart K := by exact fun _ h => h) :
    ∃ K, I.Holds K w ∧ I.Ready K t := by
  induction h with
  | @top s source forms t w h hread ht =>
    obtain ⟨K, hw, hroot⟩ := hI.arises hstart h
    have hnil : I.Good K .nil := hI.atom rfl trivial
    exact hI.consulted hstrict (fun en' hen' =>
      hen'.evalForms hnil (readData_datum hread) (hI.active_root hroot)) hw ht hnone
  | @inner n t t' w w' h ht ih =>
    obtain ⟨K, hw, hready⟩ := ih
    exact hI.consulted hstrict (fun en' hen' => hen'.step hI hready) hw ht hnone

/-- A task that is performed ends well. -/
theorem ends (hI : I.Kept) (hw : I.Holds K w) (ht : I.Ready K t) (ctx : Context) (n : Nat) :
    I.Ends K (fun K' v => I.Good K' v) ((Engine.ofDepth ctx n).perform t w) :=
  ((hI.engines_ofDepth ctx n).perform ht w hw).ends

end Kept

end Invariant

end TinyLisp
