import TinyLisp.Proofs.History

/-!
# Invariants of a run

Some invariants are not kept by every evaluation, but by those of one run: what functions there are
depends on the moments at which they were made, and what a frame is for on the call that opened it.
`Invariant.KeptIn` lists what has to be shown of such an invariant. Functions are made and called by
two kinds of tasks only, and of these the facts speak as of moments of the run; of all else they are
the facts of `Invariant.KeptOutside`.

A run is a set of moments that has with each moment its parts (`Moment.Closed`). An engine that
fails at everything else does in the run what the engine of its depth does
(`Engine.Answers.result`), and it keeps the invariant (`Invariant.KeptIn.engines`). So the invariant
holds at every moment of the run.
-/

namespace TinyLisp

variable {ctx : Context} {B : Set Moment}

/-! ## §1. Runs as sets of moments -/

namespace Moment

/-- A part of a part is a part of the whole. -/
theorem Part.trans {a b c : Moment} (hab : Part ctx a b) (hbc : Part ctx b c) : Part ctx a c := by
  induction hbc with
  | self => exact hab
  | task h _ ih => exact .task h (ih hab)

/-- A set of moments has with each moment those that are part of it. -/
def Closed (ctx : Context) (B : Set Moment) : Prop :=
  ∀ ⦃n : Nat⦄ ⦃t t' : Task⦄ ⦃w w' : World⦄, ⟨n + 1, t, w⟩ ∈ B →
    (Engine.ofDepth ctx n).Consults (fun en => en.step ctx t) w t' w' → ⟨n, t', w'⟩ ∈ B

theorem closed_among (ctx : Context) (n : Nat) (l : List (Task × World)) :
    Closed ctx (among ctx n l) := by
  intro m t t' w w' ⟨p, hp, hpart⟩ ht
  exact ⟨p, hp, Part.trans (.task ht (.self _)) hpart⟩

theorem Closed.union {B' : Set Moment} (h : Closed ctx B) (h' : Closed ctx B') :
    Closed ctx (B ∪ B') := by
  intro n t t' w w' hmem ht
  exact hmem.imp (fun hB => h hB ht) fun hB => h' hB ht

theorem Closed.part (h : Closed ctx B) {a b : Moment} (hab : Part ctx a b) (hb : b ∈ B) :
    a ∈ B := by
  induction hab with
  | self => exact hb
  | task ht _ ih => exact ih (h hb ht)

end Moment

/-- The past of a session is a run. -/
theorem Session.Arose.closed {s : Session} {past : Set Moment} (h : s.Arose ctx past) :
    Moment.Closed ctx past := by
  induction h with
  | bare depth =>
    intro n t t' w w' hmem
    exact absurd hmem (by simp)
  | forms k _ _ _ ih => exact ih.union (Moment.closed_among ctx _ _)
  | output _ ih => exact ih

/-- The state after some forms of a text have been evaluated. -/
theorem Session.Arose.evalData_world {s : Session} {past : Set Moment} (h : s.Arose ctx past)
    (forms : List Value) : (s.evalData forms).2.world =
      ((Engine.ofDepth ctx s.depth).evalForms rootScope .nil forms).after s.world := by
  show (s.run _).2.world = _
  rw [Session.run_world, Session.engine, h.arises.context_eq]

/-! ## §2. Engines for a run -/

/-- The scope that a task is given. -/
def Task.scope : Task → Scope
  | .eval _ scope => scope
  | .apply _ _ => []

/-- An engine isolates frames if every task is performed within its scope. -/
theorem Engine.isolates_iff {en : Engine} :
    en.Isolates ↔ ∀ t : Task, Eval.Within t.scope (en.perform t) := by
  constructor
  · intro h t
    cases t with
    | eval e scope => exact h.eval e scope
    | apply f args => exact h.apply f args
  · exact fun h => ⟨fun e scope => h (.eval e scope), fun f args => h (.apply f args)⟩

namespace Engine

open Classical in
/-- The engine with `n` levels of recursion that fails at what is no moment of a run. -/
noncomputable def inRun (ctx : Context) (B : Set Moment) (n : Nat) : Engine where
  eval e scope w :=
    if ⟨n, .eval e scope, w⟩ ∈ B then (ofDepth ctx n).eval e scope w else .error .exhausted w
  apply f args w :=
    if ⟨n, .apply f args, w⟩ ∈ B then (ofDepth ctx n).apply f args w else .error .exhausted w

variable {n : Nat} {t : Task} {w : World}

theorem perform_inRun (h : ⟨n, t, w⟩ ∈ B) :
    (inRun ctx B n).perform t w = (ofDepth ctx n).perform t w := by
  cases t with
  | eval e scope => exact if_pos h
  | apply f args => exact if_pos h

theorem perform_inRun_of_notMem (h : ⟨n, t, w⟩ ∉ B) :
    (inRun ctx B n).perform t w = .error .exhausted w := by
  cases t with
  | eval e scope => exact if_neg h
  | apply f args => exact if_neg h

theorem isolates_inRun (ctx : Context) (B : Set Moment) (n : Nat) :
    (inRun ctx B n).Isolates := by
  refine isolates_iff.2 fun t w hr => ?_
  by_cases h : ⟨n, t, w⟩ ∈ B
  · unfold Eval.after
    rw [perform_inRun h]
    exact isolates_iff.1 (isolates_ofDepth ctx n) t w hr
  · rw [Eval.after_of_error (perform_inRun_of_notMem h)]
    exact .refl _ _

/-- Everything that a computation consults about is a moment of a run. -/
def Answers (ctx : Context) (B : Set Moment) (n : Nat) (x : Engine → Eval Value) (w : World) :
    Prop :=
  ∀ ⦃t w'⦄, (ofDepth ctx n).Consults x w t w' → ⟨n, t, w'⟩ ∈ B

namespace Answers

variable {x : Engine → Eval Value}

/-- The engine for the run answers all that the computation asks for as the engine of its depth
does. -/
theorem perform_eq (h : Answers ctx B n x w) {c : Course Value} {E : World → World → Prop}
    {w₀ : World} (hc : c.Steady E w₀) (hx : ∀ en, x en w = c.under en) :
    ∀ p ∈ c.tasks (ofDepth ctx n),
      (inRun ctx B n).perform p.1 p.2 = (ofDepth ctx n).perform p.1 p.2 := by
  intro p hp
  exact perform_inRun (h ((hc.consults_iff hx).2 hp))

/-- So the computation ends the same with both. -/
theorem result (h : Answers ctx B n x w) (hx : Eval.Follows World.Still World.Grows x) :
    x (inRun ctx B n) w = x (ofDepth ctx n) w := by
  obtain ⟨c, hc, hpaced⟩ := hx w
  rw [hc, hc]
  exact Course.under_congr (h.perform_eq (Course.paced_still_iff.1 hpaced) hc)

/-- And it consults both about the same. -/
theorem consults (h : Answers ctx B n x w) (hx : Eval.Follows World.Still World.Grows x)
    {w' : World} (ht : (ofDepth ctx n).Consults x w t w') : (inRun ctx B n).Consults x w t w' := by
  obtain ⟨c, hc, hpaced⟩ := hx w
  have hsteady := Course.paced_still_iff.1 hpaced
  rw [hsteady.consults_iff hc] at ht ⊢
  rwa [Course.tasks_congr (h.perform_eq hsteady hc)]

end Answers

/-- A step of a run consults about moments of the run only. -/
theorem answers_step (hB : Moment.Closed ctx B) (h : ⟨n + 1, t, w⟩ ∈ B) :
    Answers ctx B n (fun en => en.step ctx t) w :=
  fun _ _ ht => hB h ht

end Engine

/-! ## §3. Invariants that a run keeps -/

namespace Invariant

variable {I : Invariant} {K : I.Stage} {n : Nat} {t : Task} {w : World}

/-- The facts from which it follows that every evaluation of a run keeps an invariant. -/
structure KeptIn (I : Invariant) (ctx : Context) (B : Set Moment) : Prop
    extends I.KeptOutside where
  closed : Moment.Closed ctx B
  /-- An expression that makes a function is evaluated at a moment of the run. -/
  lambda : ∀ {K : I.Stage} {n : Nat} {name : Option String} {params : Params} {body : Expr}
    {scope : Scope} {w : World}, ⟨n + 1, .eval (.lambda name params body) scope, w⟩ ∈ B →
    I.Holds K w → I.Active K scope → I.Fits K body →
    I.Ends K (fun K' c => I.Node K' (.closure c))
      (Eval.newClosure ctx.settings.strategy name params body scope w)
  /-- A function is called at a moment of the run. -/
  call : ∀ {K : I.Stage} {n : Nat} {c : Closure} {args : List Value} {w : World},
    ⟨n + 1, .apply (.closure c) args, w⟩ ∈ B → I.Holds K w → I.Node K (.closure c) →
    I.Ends K (fun K' inner => I.Active K' inner) (Eval.callScope c w)

/-- One step of a run over two engines that keep an invariant. -/
theorem KeptIn.step (hI : I.KeptIn ctx B) {en en' : Engine} (hen : I.Engines en en')
    (h : ⟨n + 1, t, w⟩ ∈ B) (hw : I.Holds K w) (ht : I.Ready K t) :
    I.RunsAt K (fun K' v => I.Good K' v) (en.step ctx t) (en'.step ctx t) w := by
  cases t with
  | eval e scope =>
    by_cases he : ∃ name params body, e = .lambda name params body
    · obtain ⟨name, params, body, rfl⟩ := he
      have hmade := hI.lambda h hw ht.2 (Expr.every_lambda.1 ht.1)
      exact (RunsAt.same hmade).bind hen.kept fun K' c _ hc => .pure (Value.every_closure.2 hc)
    · refine hen.evalOther ht.1 ht.2 ?_ w hw
      intro name params body heq
      exact he ⟨name, params, body, heq⟩
  | apply f args =>
    by_cases hc : ∃ c, f = .closure c
    · obtain ⟨c, rfl⟩ := hc
      have hnode := Value.every_closure.1 ht.1
      refine (RunsAt.same (hI.call h hw hnode)).bind hen.kept fun K' inner hK hinner => ?_
      exact hen.callBody (hI.node_mono hK hnode) (hI.lists_mono hK ht.2) hinner
    · refine hen.applyOther ht.2 ?_ w hw
      intro c heq
      exact hc ⟨c, heq⟩

/-- An engine that does at every moment of a run what the engine of its depth does, and fails
elsewhere, keeps the invariant if tasks of the run do. -/
theorem engines_inRun (hI : I.KeptOutside)
    (h : ∀ {K : I.Stage} {t : Task} {w : World}, ⟨n, t, w⟩ ∈ B → I.Holds K w → I.Ready K t →
      I.Ends K (fun K' v => I.Good K' v) ((Engine.ofDepth ctx n).perform t w)) :
    I.Engines (Engine.inRun ctx B n) (Engine.inRun ctx B n) := by
  refine .of_perform hI (Engine.isolates_inRun ctx B n) fun {K t} ht w hw => .same ?_
  by_cases hmem : ⟨n, t, w⟩ ∈ B
  · rw [Engine.perform_inRun hmem]
    exact h hmem hw ht
  · rw [Engine.perform_inRun_of_notMem hmem]
    exact hI.left_of_holds hw

/-- A computation of a run that keeps an invariant. -/
structure Keeps (I : Invariant) (ctx : Context) (B : Set Moment) (n : Nat) (K : I.Stage)
    (P : I.Stage → Value → Prop) (x : Engine → Eval Value) (w : World) : Prop where
  follows : Eval.Follows World.Still World.Grows x
  answers : Engine.Answers ctx B n x w
  runs : ∀ en en', I.Engines en en' → I.RunsAt K P (x en) (x en') w

variable {P : I.Stage → Value → Prop} {x : Engine → Eval Value}

/-- In the run the computation may as well use the engine that fails elsewhere, so it ends well. -/
theorem Keeps.ends (hx : I.Keeps ctx B n K P x w)
    (hen : I.Engines (Engine.inRun ctx B n) (Engine.inRun ctx B n)) :
    I.Ends K P (x (Engine.ofDepth ctx n) w) := by
  rw [← hx.answers.result hx.follows]
  exact (hx.runs _ _ hen).ends

namespace KeptIn

/-- A step of a run keeps the invariant. -/
theorem keeps_step (hI : I.KeptIn ctx B) (h : ⟨n + 1, t, w⟩ ∈ B) (hw : I.Holds K w)
    (ht : I.Ready K t) :
    I.Keeps ctx B n K (fun K' v => I.Good K' v) (fun en => en.step ctx t) w where
  follows := Engine.follows_step ctx t
  answers := Engine.answers_step hI.closed h
  runs _ _ hen := hI.step hen h hw ht

/-- Forms of a text keep it when they are evaluated in a run. -/
theorem keeps_forms (hI : I.KeptIn ctx B) (hw : I.Holds K w) (hroot : I.Works K rootFrame)
    {forms : List Value} (hdata : ∀ form ∈ forms, Datum form) {l : List (Task × World)}
    (hl : (Engine.ofDepth ctx n).Trail (fun en => en.evalForms rootScope .nil forms) w l)
    (hB : Moment.among ctx n l ⊆ B) :
    I.Keeps ctx B n K (fun K' v => I.Good K' v) (fun en => en.evalForms rootScope .nil forms)
      w := by
  have hnil : I.Good K .nil := hI.atom rfl trivial
  exact {
    follows := (Eval.follows_evalForms rootScope .nil forms).grows
    answers := fun t w' ht => hB ⟨(t, w'), hl.mem_iff.2 ht, .self _⟩
    runs := fun _ _ hen => hen.evalForms hnil hdata (hI.active_root hroot) w hw }

/-- Every task of a run ends well. -/
theorem ends (hI : I.KeptIn ctx B) (h : ⟨n, t, w⟩ ∈ B) (hw : I.Holds K w) (ht : I.Ready K t) :
    I.Ends K (fun K' v => I.Good K' v) ((Engine.ofDepth ctx n).perform t w) := by
  induction n generalizing K t w with
  | zero =>
    have hleft := hI.left_of_holds hw
    cases t with
    | eval e scope => exact hleft
    | apply f args => exact hleft
  | succ n ih =>
    rw [Engine.perform_ofDepth_succ]
    exact (hI.keeps_step h hw ht).ends (engines_inRun hI.toKeptOutside ih)

/-- The engines for a run keep the invariant. -/
theorem engines (hI : I.KeptIn ctx B) (n : Nat) :
    I.Engines (Engine.inRun ctx B n) (Engine.inRun ctx B n) :=
  engines_inRun hI.toKeptOutside hI.ends

/-- What a computation that keeps the invariant consults about is ready to be performed. -/
theorem consulted (hI : I.KeptIn ctx B) (hstrict : ¬ I.lax) (hx : I.Keeps ctx B n K P x w)
    {w' : World} (h : (Engine.ofDepth ctx n).Consults x w t w')
    (hnone : ∀ K : I.Stage, ¬ I.Apart K := by exact fun _ h => h) :
    ∃ K', I.Holds K' w' ∧ I.Ready K' t :=
  (hI.engines n).consulted hstrict (hx.runs _) (hx.answers.consults hx.follows h) hnone

/-- At every part of a moment at which the invariant holds it holds as well. -/
theorem part (hI : I.KeptIn ctx B) (hstrict : ¬ I.lax) {a b : Moment}
    (hab : Moment.Part ctx a b) (hb : b ∈ B) (hw : I.Holds K b.world) (ht : I.Ready K b.task)
    (hnone : ∀ K : I.Stage, ¬ I.Apart K := by exact fun _ h => h) :
    ∃ K', I.Holds K' a.world ∧ I.Ready K' a.task := by
  induction hab generalizing K with
  | self => exact ⟨K, hw, ht⟩
  | task hconsults _ ih =>
    obtain ⟨K', hw', ht'⟩ := hI.consulted hstrict (hI.keeps_step hb hw ht) hconsults hnone
    exact ih (hI.closed hb hconsults) hw' ht'

/-- The invariant holds when a session is at top level, and at every moment in its past. -/
theorem arose (hI : I.KeptIn ctx B) (hstart : I.Starts) (hstrict : ¬ I.lax) {s : Session}
    {past : Set Moment} (h : s.Arose ctx past) (hpast : past ⊆ B)
    (hnone : ∀ K : I.Stage, ¬ I.Apart K := by exact fun _ h => h) :
    (∃ K, I.Holds K s.world ∧ I.Works K rootFrame) ∧
      ∀ a ∈ past, ∃ K, I.Holds K a.world ∧ I.Ready K a.task := by
  induction h with
  | bare depth =>
    refine ⟨hstart.start, ?_⟩
    intro a ha
    exact absurd ha (by simp)
  | @forms s past source forms k l h hread hl ih =>
    obtain ⟨hold, hnew⟩ := Set.union_subset_iff.1 hpast
    obtain ⟨⟨K, hw, hroot⟩, hmoments⟩ := ih hold
    have hdata : ∀ form ∈ forms.take k, Datum form :=
      fun form hform => readData_datum hread form (List.mem_of_mem_take hform)
    have hx := hI.keeps_forms hw hroot hdata hl hnew
    constructor
    · have hends := hx.ends (hI.engines s.depth)
      rw [h.evalData_world]
      exact hstart.recover hroot (hends.left hI.toKeptOutside)
    · intro a ha
      rcases ha with ha | ⟨p, hp, hpart⟩
      · exact hmoments a ha
      · obtain ⟨K', hw', ht'⟩ := hI.consulted hstrict hx (hl.mem_iff.1 hp) hnone
        exact hI.part hstrict hpart (hnew ⟨p, hp, .self _⟩) hw' ht' hnone
  | output h ih =>
    obtain ⟨⟨K, hw, hroot⟩, hmoments⟩ := ih hpast
    obtain ⟨K', hK, hw', -⟩ := hI.output "" hw
    exact ⟨⟨K', hw', hI.works_mono hK hroot⟩, hmoments⟩

end KeptIn

end Invariant

end TinyLisp
