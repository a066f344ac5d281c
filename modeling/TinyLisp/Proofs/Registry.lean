import TinyLisp.Proofs.History
import TinyLisp.Proofs.Members
import TinyLisp.Proofs.Resolving

/-!
# Where registered modules come from

The registry tells what a name means that no scope binds. A module gets there in two ways: a module
form in the outermost scope registers what it makes, and at the end of a file the modules that the
file's own frame binds to their own names are registered, and one for the file as a whole unless
there is one of its name. `Origin` lists these ways, and `World.Arose.accounted` says that at every
moment of a session every registered module has come by one of them.

What a file binds to its own name need not have been made by a module form at the top of the file:
a function may have made it, or another module. If no file does this, then only modules made at top
level are ever registered (`World.registered_at_top_level`); else a module that was made in a call
can be found by its name (`World.registered_from_call`).
-/

namespace TinyLisp

variable {ctx : Context} {past past' : Set Moment} {m : Module}

/-! ## §1. Origins -/

/-- The module was made by a module form, evaluated in a scope. -/
def MadeIn (ctx : Context) (past : Set Moment) (scope : Scope) (m : Module) : Prop :=
  ∃ a ∈ past, ∃ exports body w, a.task = .eval (.module m.name exports body) scope ∧
    a.result ctx = .ok (.module m) w

/-- For an import, the file at a place was run, all of its forms, in a frame of its own; and the
world was one when they were done. -/
def FileRan (ctx : Context) (past : Set Moment) (p : Place) (f : FrameId) (w : World) : Prop :=
  ∃ n target spec scope w₀ path source forms v,
    ⟨n + 1, .eval (.importFrom target spec) scope, w₀⟩ ∈ past ∧
    (Engine.ofDepth ctx n).resolve ctx scope target w₀ = (Engine.ofDepth ctx n).load ctx path w₀ ∧
    ctx.disk.resolve path = .ok p ∧ ctx.disk.readPlace p = .ok source ∧
    readData source = .ok forms ∧ f = w₀.store.frames.size ∧
    (Engine.ofDepth ctx n).evalForms [f, rootFrame] .nil forms
      { w₀ with library := w₀.library.enter p, store := w₀.store.newFrame.2 } = .ok v w

/-- When the forms of a file were done, its frame bound a module to the module's own name. -/
def BoundByFile (ctx : Context) (past : Set Moment) (f : FrameId) (m : Module) : Prop :=
  ∃ p w slot, FileRan ctx past p f w ∧ w.store.slotIn? f m.name = some slot ∧
    w.store.content slot = some (.module m)

/-- The module stands for a file as a whole: it has the file's name, the file's frame, and shows all
that the file has bound there. -/
def StandsForFile (ctx : Context) (past : Set Moment) (m : Module) : Prop :=
  ∃ p f w, FileRan ctx past p f w ∧ m.name = Path.stem (p.getLast?.getD "") ∧
    m.scope = [f, rootFrame] ∧ m.exports = w.store.names f

/-- The ways into the registry. -/
inductive Origin (ctx : Context) (past : Set Moment) (m : Module) : Prop
  | form (h : MadeIn ctx past rootScope m)
  | bound {f : FrameId} (h : BoundByFile ctx past f m)
  | file (h : StandsForFile ctx past m)

/-- Every registered module has its own name and an origin in the past. -/
def Accounted (ctx : Context) (past : Set Moment) (w : World) : Prop :=
  ∀ name m, w.library.registry.get? name = some m → m.name = name ∧ Origin ctx past m

theorem FileRan.mono {p : Place} {f : FrameId} {w : World} (h : FileRan ctx past p f w)
    (hp : past ⊆ past') : FileRan ctx past' p f w := by
  obtain ⟨n, target, spec, scope, w₀, path, source, forms, v, hmem, hrest⟩ := h
  exact ⟨n, target, spec, scope, w₀, path, source, forms, v, hp hmem, hrest⟩

theorem Origin.mono (h : Origin ctx past m) (hp : past ⊆ past') : Origin ctx past' m := by
  cases h with
  | form h =>
    obtain ⟨a, ha, hmade⟩ := h
    exact .form ⟨a, hp ha, hmade⟩
  | bound h =>
    obtain ⟨p, w, slot, hran, hbound⟩ := h
    exact .bound ⟨p, w, slot, hran.mono hp, hbound⟩
  | file h =>
    obtain ⟨p, f, w, hran, hfile⟩ := h
    exact .file ⟨p, f, w, hran.mono hp, hfile⟩

namespace Accounted

variable {w w' : World}

theorem mono (h : Accounted ctx past w) (hp : past ⊆ past') : Accounted ctx past' w := by
  intro name m hm
  obtain ⟨hname, horigin⟩ := h name m hm
  exact ⟨hname, horigin.mono hp⟩

theorem of_registry (h : Accounted ctx past w)
    (hw : w'.library.registry = w.library.registry) : Accounted ctx past w' := by
  intro name m hm
  rw [hw] at hm
  exact h name m hm

theorem still (h : Accounted ctx past w) (hw : w.Still w') : Accounted ctx past w' :=
  h.of_registry hw.registry

/-- One more module is registered. -/
theorem register (h : Accounted ctx past w) (hm : Origin ctx past m)
    (hw : w'.library.registry = w.library.registry.set m.name m) : Accounted ctx past w' := by
  intro name m' hm'
  rw [hw] at hm'
  -- the name is that of the new module, or it means what it meant
  by_cases hname : name = m.name
  · subst hname
    rw [Table.get?_set_self] at hm'
    obtain rfl := Option.some.inj hm'
    exact ⟨rfl, hm⟩
  · rw [Table.get?_set_of_ne hname] at hm'
    exact h name m' hm'

/-- Several modules are registered, one after another. -/
theorem registerAll {ms : List Module} (h : Accounted ctx past w)
    (hms : ∀ m ∈ ms, Origin ctx past m)
    (hw : w'.library.registry = (ms.foldl Library.register w.library).registry) :
    Accounted ctx past w' := by
  -- on the modules: each registration begins with what the one before it has registered
  induction ms generalizing w with
  | nil => exact h.of_registry hw
  | cons m ms ih =>
    have hfirst : Accounted ctx past { w with library := w.library.register m } :=
      h.register (hms m (by simp)) rfl
    exact ih hfirst (fun m' hm' => hms m' (by simp [hm'])) hw

/-- What follows a result. -/
theorem andThen {α β : Type} {r : EStateM.Result Halt World α} {k : α → Eval β}
    (h : Accounted ctx past (Eval.worldOf r))
    (hk : ∀ a w, r = .ok a w → Accounted ctx past w → Accounted ctx past ((k a).after w)) :
    Accounted ctx past (Eval.worldOf (Eval.andThen r k)) := by
  cases r with
  | ok a w =>
    have hlast := hk a w rfl h
    rwa [Eval.after_eq] at hlast
  | error e w => exact h

/-- At the end of a quiet course, if its tasks keep every registered module accounted for. -/
theorem finishes {α : Type} {c : Course α} {en : Engine} (h : Accounted ctx past w)
    (hc : c.Steady World.Still w)
    (htasks : ∀ q ∈ c.tasks en, Accounted ctx past q.2 →
      Accounted ctx past ((en.perform q.1).after q.2)) :
    Accounted ctx past (Eval.worldOf (c.under en)) :=
  hc.finishes (fun hw hp => hp.still hw) (fun hw hp => hp.still hw) h htasks

end Accounted

/-! ## §2. The end of a module form and of a file -/

namespace Eval

variable {name : String} {exports : List String} {scope inner : Scope} {w : World}

/-- A module form fails when its body has run, and nothing happens; or it gives a module in the
frame of the body, and registers it in the outermost scope only. -/
theorem closeModule_cases (name : String) (exports : List String) (scope inner : Scope)
    (w : World) :
    (∃ e, closeModule name exports scope inner w = .error e w) ∨
      ∃ m w', closeModule name exports scope inner w = .ok m w' ∧ m.name = name ∧
        m.scope = inner ∧ w'.library.registry =
          if scope = rootScope then w.library.registry.set name m else w.library.registry := by
  unfold closeModule
  rw [get_bind]
  cases w.store.firstMissing? inner.innermost exports with
  | some missing => exact .inl ⟨_, rfl⟩
  | none =>
    let m : Module := ⟨w.nextTag, name, inner, exports⟩
    -- the outermost scope is the only one in which the module is registered
    by_cases hroot : scope = rootScope
    · subst hroot
      exact .inr ⟨m, _, rfl, rfl, rfl, rfl⟩
    · have hafter : ∃ w', (bindName scope name (.module m) >>= fun _ => pure m)
          { w with nextTag := w.nextTag + 1 } = .ok m w' ∧
            w'.library.registry = w.library.registry := by
        cases scope with
        | nil => exact ⟨_, rfl, rfl⟩
        | cons f rest => exact ⟨_, rfl, rfl⟩
      obtain ⟨w', hrun, hregistry⟩ := hafter
      refine .inr ⟨m, w', ?_, rfl, rfl, ?_⟩
      · have hmake : newModule name inner exports w =
            .ok m { w with nextTag := w.nextTag + 1 } := rfl
        dsimp only
        rw [bind_of_ok hmake, if_neg hroot]
        exact hrun
      · rw [if_neg hroot]
        exact hregistry

theorem accounted_closeModule (h : Accounted ctx past w)
    (horigin : ∀ m w', closeModule name exports scope inner w = .ok m w' → m.name = name →
      scope = rootScope → Origin ctx past m) :
    Accounted ctx past ((closeModule name exports scope inner).after w) := by
  rcases closeModule_cases name exports scope inner w with ⟨e, hrun⟩ | ⟨m, w', hrun, hname, -, hw'⟩
  · rw [after_of_error hrun]
    exact h
  · rw [after_of_ok hrun]
    by_cases hroot : scope = rootScope
    · rw [if_pos hroot, ← hname] at hw'
      exact h.register (horigin m w' hrun hname hroot) hw'
    · rw [if_neg hroot] at hw'
      exact h.of_registry hw'

/-- The end of a file registers what the file's frame binds to its own name, and one module for the
file. -/
theorem accounted_fileModule (h : Accounted ctx past w)
    (hown : ∀ m ∈ w.store.ownModules scope.innermost, Origin ctx past m)
    (hfile : ∀ m : Module, m.name = name → m.scope = scope →
      m.exports = w.store.names scope.innermost → Origin ctx past m) :
    Accounted ctx past ((Engine.fileModule name scope).after w) := by
  let own := w.store.ownModules scope.innermost
  let w₁ : World := { w with library := own.foldl Library.register w.library }
  have h₁ : Accounted ctx past w₁ := h.registerAll hown rfl
  cases hfind : own.find? fun m => m.name = name with
  | some m =>
    have hrun : Engine.fileModule name scope w = .ok m w₁ := by
      unfold Engine.fileModule
      rw [get_bind, modifyLibrary_bind, hfind]
      rfl
    rw [after_of_ok hrun]
    exact h₁
  | none =>
    let m : Module := ⟨w.nextTag, name, scope, w.store.names scope.innermost⟩
    have hrun : Engine.fileModule name scope w = .ok m
        { w₁ with nextTag := w.nextTag + 1, library := w₁.library.register m } := by
      unfold Engine.fileModule
      rw [get_bind, modifyLibrary_bind, hfind]
      rfl
    rw [after_of_ok hrun]
    exact h₁.register (hfile m rfl rfl rfl) rfl

end Eval

/-! ## §3. Steps -/

/-- The tasks that a step consults about keep every registered module accounted for. -/
def PartsAccount (ctx : Context) (past : Set Moment) (n : Nat) (t : Task) (w : World) : Prop :=
  ∀ t' w', (Engine.ofDepth ctx n).Consults (fun en => en.step ctx t) w t' w' →
    Accounted ctx past w' → Accounted ctx past (((Engine.ofDepth ctx n).perform t').after w')

namespace Engine

variable {n : Nat} {t : Task} {w : World}

/-- A step that registers nothing itself. -/
theorem accounted_still (ht : ¬ t.Registers) (hparts : PartsAccount ctx past n t w)
    (h : Accounted ctx past w) : Accounted ctx past (((ofDepth ctx n).step ctx t).after w) := by
  obtain ⟨c, hc, hpaced⟩ :=
    (follows_step_still ht : Eval.Follows _ _ fun en => en.step ctx t) w
  have hsteady := Course.paced_still_iff.1 hpaced
  have htasks : ∀ p ∈ c.tasks (ofDepth ctx n), Accounted ctx past p.2 →
      Accounted ctx past (((ofDepth ctx n).perform p.1).after p.2) :=
    fun p hp => hparts p.1 p.2 ((hsteady.consults_iff hc).2 hp)
  have hend : (ofDepth ctx n).step ctx t w = c.under (ofDepth ctx n) := hc _
  rw [Eval.after_eq, hend]
  exact h.finishes hsteady htasks

/-- A module form evaluates its body in a new frame and is then closed. -/
theorem step_module (en : Engine) (name : String) (exports : List String) (body : List Expr)
    (scope : Scope) (w : World) :
    en.step ctx (.eval (.module name exports body) scope) w =
      Eval.andThen (Eval.andThen
          (en.evalEach (w.store.frames.size :: scope) body { w with store := w.store.newFrame.2 })
          fun _ => Eval.closeModule name exports scope (w.store.frames.size :: scope))
        fun m => pure (Value.module m) := by
  show (en.defineModule name exports body scope >>= fun m => pure (Value.module m)) w = _
  have hbody := Eval.bind_eq (en.evalEach (w.store.frames.size :: scope) body)
    (fun _ => Eval.closeModule name exports scope (w.store.frames.size :: scope))
    { w with store := w.store.newFrame.2 }
  rw [Eval.bind_eq, Eval.defineModule_eq, ← hbody]
  rfl

/-- A module form: its body is evaluated, and then what it made may be registered. -/
theorem accounted_module {name : String} {exports : List String} {body : List Expr} {scope : Scope}
    (hself : ⟨n + 1, .eval (.module name exports body) scope, w⟩ ∈ past)
    (hparts : PartsAccount ctx past n (.eval (.module name exports body) scope) w)
    (h : Accounted ctx past w) :
    Accounted ctx past
      (((ofDepth ctx n).step ctx (.eval (.module name exports body) scope)).after w) := by
  let inner : Scope := w.store.frames.size :: scope
  let w₀ : World := { w with store := w.store.newFrame.2 }
  -- what follows the evaluation of the body
  let k : EStateM.Result Halt World (List Value) → EStateM.Result Halt World Value := fun r =>
    Eval.andThen (Eval.andThen r fun _ => Eval.closeModule name exports scope inner)
      fun m => pure (Value.module m)
  obtain ⟨c, hc, hsteady⟩ := (Eval.follows_evalEach inner body).steady w₀
  have hstops : Course.Stops fun r => Course.ends (k r) := fun e v => ⟨v, rfl, rfl, rfl⟩
  have hsteps : ∀ en : Engine, en.step ctx (.eval (.module name exports body) scope) w =
      k (c.under en) := fun en => (step_module en _ _ _ _ w).trans (congrArg k (hc en))
  have htasks : ∀ p ∈ c.tasks (ofDepth ctx n), Accounted ctx past p.2 →
      Accounted ctx past (((ofDepth ctx n).perform p.1).after p.2) :=
    fun p hp => hparts p.1 p.2 (hsteady.consults_of_then hsteps hstops hp)
  have h₀ : Accounted ctx past w₀ := h.of_registry rfl
  have hbody := h₀.finishes hsteady htasks
  rw [Eval.after_eq, hsteps]
  refine Accounted.andThen (hbody.andThen fun vs w₁ hr h₁ => ?_) fun m w₂ _ h₂ => h₂
  refine Eval.accounted_closeModule h₁ fun m w₂ hclose hname hroot => ?_
  -- the module comes from this very form
  subst hname hroot
  refine .form ⟨_, hself, exports, body, w₂, rfl, ?_⟩
  show (ofDepth ctx (n + 1)).perform _ w = _
  rw [perform_ofDepth_succ, hsteps]
  show Eval.andThen (Eval.andThen (c.under _) _) _ = _
  rw [hr]
  show Eval.andThen (Eval.closeModule m.name exports rootScope inner w₁) _ = _
  rw [hclose]
  rfl

/-- An import: if it runs a file, what the file made at its top may be registered. -/
theorem accounted_import {target : ImportTarget} {spec : ImportSpec} {scope : Scope}
    (hself : ⟨n + 1, .eval (.importFrom target spec) scope, w⟩ ∈ past)
    (hparts : PartsAccount ctx past n (.eval (.importFrom target spec) scope) w)
    (h : Accounted ctx past w) :
    Accounted ctx past
      (((ofDepth ctx n).step ctx (.eval (.importFrom target spec) scope)).after w) := by
  -- what follows once the module is found
  let bring : Module → Eval Value := fun m =>
    Eval.importModule m scope spec >>= fun _ => pure (Value.module m)
  have hquiet : ∀ m, Eval.Quiet (bring m) := fun m =>
    (Eval.quiet_importModule m scope spec).bind fun _ => Eval.quiet_pure _
  have hstep : ∀ en : Engine, en.step ctx (.eval (.importFrom target spec) scope) w =
      Eval.andThen (en.resolve ctx scope target w) bring := fun en => Eval.bind_eq _ _ _
  have hbring : ∀ {r : EStateM.Result Halt World Module}, Accounted ctx past (Eval.worldOf r) →
      Accounted ctx past (Eval.worldOf (Eval.andThen r bring)) :=
    fun hr => hr.andThen fun m w₁ _ h₁ => h₁.still (hquiet m w₁).still
  rw [Eval.after_eq, hstep]
  -- only a file that has to be run can get anything registered
  rcases resolve_or_load ctx scope target w with ⟨r, hresolve, hcalm⟩ | ⟨path, hresolve⟩
  · refine hbring ?_
    rw [hresolve]
    exact h.still hcalm.still
  · rcases load_or_run ctx path w with
      ⟨r, hload, hcalm⟩ | ⟨p, source, forms, hp, hsource, hread, hload⟩
    · refine hbring ?_
      rw [hresolve, hload]
      exact h.still hcalm.still
    · let f := w.store.frames.size
      let w₀ : World := { w with library := w.library.enter p, store := w.store.newFrame.2 }
      let file : Eval Module := fileModule (Path.stem (p.getLast?.getD "")) [f, rootFrame]
      let k : EStateM.Result Halt World Value → EStateM.Result Halt World Value := fun r =>
        Eval.andThen (leaveFile p (Eval.andThen r fun _ => file)) bring
      obtain ⟨c, hc, hsteady⟩ := (Eval.follows_evalForms [f, rootFrame] .nil forms).steady w₀
      have hforms : ∀ en : Engine, en.evalForms [f, rootFrame] .nil forms w₀ = c.under en := hc
      have hstops : Course.Stops fun r => Course.ends (k r) :=
        fun e v => ⟨{ v with library := v.library.leave p }, rfl, rfl, rfl⟩
      have hsteps : ∀ en : Engine, en.step ctx (.eval (.importFrom target spec) scope) w =
          k (c.under en) := by
        intro en
        rw [hstep, hresolve, hload, ← hforms]
      have htasks : ∀ q ∈ c.tasks (ofDepth ctx n), Accounted ctx past q.2 →
          Accounted ctx past (((ofDepth ctx n).perform q.1).after q.2) :=
        fun q hq => hparts q.1 q.2 (hsteady.consults_of_then hsteps hstops hq)
      have h₀ : Accounted ctx past w₀ := h.of_registry rfl
      have hrun := h₀.finishes hsteady htasks
      refine hbring ?_
      rw [hresolve, hload, hforms]
      have hend : Accounted ctx past
          (Eval.worldOf (Eval.andThen (c.under (ofDepth ctx n)) fun _ => file)) := by
        refine hrun.andThen fun v w₁ hr h₁ => ?_
        -- the forms were done in this world, in the frame of the file
        have hran : FileRan ctx past p f w₁ :=
          ⟨n, target, spec, scope, w, path, source, forms, v, hself, hresolve _, hp, hsource,
            hread, rfl, (hforms _).trans hr⟩
        -- the two ways in which the end of a file registers modules
        refine Eval.accounted_fileModule h₁ ?_ ?_
        · intro m hm
          obtain ⟨slot, hslot, hcontent⟩ :=
            Option.map_eq_some_iff.1 (read_of_mem_ownModules hm)
          exact .bound ⟨p, w₁, slot, hran, hslot, Store.content_of_read hcontent (by simp)⟩
        · intro m hname hscope hexports
          exact .file ⟨p, f, w₁, hran, hname, hscope, hexports⟩
      cases hr : Eval.andThen (c.under (ofDepth ctx n)) fun _ => file with
      | ok m w' =>
        rw [hr] at hend
        exact hend.of_registry rfl
      | error e w' =>
        rw [hr] at hend
        exact hend.of_registry rfl

/-- Every task keeps every registered module accounted for, with what is part of the task. -/
theorem accounted_perform (n : Nat) (t : Task) (w : World) (h : Accounted ctx past w) :
    Accounted ctx (past ∪ { a | Moment.Part ctx a ⟨n, t, w⟩ })
      (((ofDepth ctx n).perform t).after w) := by
  -- on the depth: what a task consults about is performed one level below
  induction n generalizing past t w with
  | zero =>
    have hend : ((ofDepth ctx 0).perform t).after w = w := by
      cases t <;> rfl
    rw [hend]
    exact h.mono Set.subset_union_left
  | succ n ih =>
    let S := past ∪ { a | Moment.Part ctx a ⟨n + 1, t, w⟩ }
    have hself : ⟨n + 1, t, w⟩ ∈ S := .inr (.self _)
    have hnow : Accounted ctx S w := h.mono Set.subset_union_left
    have hparts : PartsAccount ctx S n t w := by
      intro t' w' hconsults h'
      refine (ih t' w' h').mono ?_
      -- what is part of a part is part of the whole
      refine Set.union_subset subset_rfl ?_
      intro a ha
      exact .inr (.task hconsults ha)
    rw [perform_ofDepth_succ]
    by_cases ht : t.Registers
    · cases ht with
      | module name exports body scope => exact accounted_module hself hparts hnow
      | importFrom target spec scope => exact accounted_import hself hparts hnow
    · exact accounted_still ht hparts hnow

/-- So do several tasks of one depth, with what is part of them. -/
theorem accounted_among {l : List (Task × World)} {q : Task × World} (hq : q ∈ l)
    (h : Accounted ctx (past ∪ Moment.among ctx n l) q.2) :
    Accounted ctx (past ∪ Moment.among ctx n l) (((ofDepth ctx n).perform q.1).after q.2) := by
  refine (accounted_perform n q.1 q.2 h).mono ?_
  refine Set.union_subset subset_rfl ?_
  intro a ha
  exact .inr ⟨q, hq, ha⟩

end Engine

/-! ## §4. Sessions -/

theorem accounted_primitiveWorld : Accounted ctx past Session.primitiveWorld := by
  intro name m hm
  exact absurd hm (by simp [Session.primitiveWorld, World.initial, Table.get?])

/-- At top level every registered module is accounted for. -/
theorem Session.Arose.accounted {s : Session} (h : s.Arose ctx past) :
    Accounted ctx past s.world := by
  induction h with
  | bare depth => exact accounted_primitiveWorld
  | @forms s past source forms k l h hread hl ih =>
    obtain ⟨c, hc, hsteady⟩ :=
      (Eval.follows_evalForms rootScope .nil (forms.take k)).steady s.world
    have htasks : ∀ q ∈ c.tasks (Engine.ofDepth ctx s.depth),
        Accounted ctx (past ∪ Moment.among ctx s.depth l) q.2 →
          Accounted ctx (past ∪ Moment.among ctx s.depth l)
            (((Engine.ofDepth ctx s.depth).perform q.1).after q.2) := by
      intro q hq
      exact Engine.accounted_among (hl.mem_iff.2 ((hsteady.consults_iff hc).2 hq))
    have hend := (ih.mono Set.subset_union_left).finishes hsteady htasks
    show Accounted ctx _ (s.run _).2.world
    have hforms : (Engine.ofDepth ctx s.depth).evalForms rootScope .nil (forms.take k) s.world =
        c.under (Engine.ofDepth ctx s.depth) := hc _
    rw [Session.run_world, Session.engine, h.arises.context_eq, Eval.after_eq, hforms]
    exact hend
  | output _ ih => exact ih.of_registry rfl

/-- And so it is at every moment, by what was before. -/
theorem Moment.Comes.accounted {a : Moment} (h : a.Comes ctx past) :
    Accounted ctx past a.world := by
  induction h with
  | text h _ hl =>
    obtain ⟨c, -, hsteady, htrail⟩ := hl
    exact hsteady.reaches (fun hw hp => hp.still hw) htrail
      (h.accounted.mono Set.subset_union_left) fun q hq => Engine.accounted_among hq
  | inner _ hl ih =>
    obtain ⟨c, -, hsteady, htrail⟩ := hl
    exact hsteady.reaches (fun hw hp => hp.still hw) htrail
      (ih.mono Set.subset_union_left) fun q hq => Engine.accounted_among hq

theorem World.Arose.accounted {w : World} (h : w.Arose ctx past) : Accounted ctx past w := by
  cases h with
  | top h => exact h.accounted
  | moment h => exact h.accounted

/-! ## §5. Top level -/

/-- The scopes at top level: the outermost one, and that of a file. -/
def TopScope (ctx : Context) (past : Set Moment) (scope : Scope) : Prop :=
  scope = rootScope ∨ ∃ p f w, FileRan ctx past p f w ∧ scope = [f, rootFrame]

/-- The module was made at top level, or stands for a file. -/
def TopLevel (ctx : Context) (past : Set Moment) (m : Module) : Prop :=
  (∃ scope, TopScope ctx past scope ∧ MadeIn ctx past scope m) ∨ StandsForFile ctx past m

/-- The frame of a module is inside the scope in which the module was made. -/
theorem MadeIn.tail_eq {scope : Scope} (h : MadeIn ctx past scope m) : m.scope.tail = scope := by
  obtain ⟨⟨n, t, w₀⟩, -, exports, body, w, htask, hrun⟩ := h
  obtain rfl : t = _ := htask
  have hperform : (Engine.ofDepth ctx n).perform (.eval (.module m.name exports body) scope) w₀ =
      .ok (.module m) w := hrun
  -- the form must have succeeded, and so its body; the frame is the one made for the body
  cases n with
  | zero => cases hperform
  | succ n =>
    rw [Engine.perform_ofDepth_succ, Engine.step_module] at hperform
    cases hbody : (Engine.ofDepth ctx n).evalEach (w₀.store.frames.size :: scope) body
        { w₀ with store := w₀.store.newFrame.2 } with
    | error e w₁ =>
      rw [hbody] at hperform
      cases hperform
    | ok vs w₁ =>
      rw [hbody] at hperform
      rcases Eval.closeModule_cases m.name exports scope (w₀.store.frames.size :: scope) w₁ with
        ⟨e, hclose⟩ | ⟨m', w', hclose, -, hscope, -⟩
      · have hfails : Eval.andThen (Eval.closeModule m.name exports scope
            (w₀.store.frames.size :: scope) w₁) (fun m => pure (Value.module m)) =
              .ok (.module m) w := hperform
        rw [hclose] at hfails
        cases hfails
      · have hgives : Eval.andThen (Eval.closeModule m.name exports scope
            (w₀.store.frames.size :: scope) w₁) (fun m => pure (Value.module m)) =
              .ok (.module m) w := hperform
        rw [hclose] at hgives
        cases hgives
        rw [hscope]
        rfl

/-- A module made at top level was made nowhere else. -/
theorem TopLevel.topScope (h : TopLevel ctx past m) {scope : Scope}
    (hm : MadeIn ctx past scope m) : TopScope ctx past scope := by
  have htail := hm.tail_eq
  rcases h with ⟨top, htop, hmade⟩ | ⟨p, f, w, -, -, hscope, -⟩
  · rw [← htail, hmade.tail_eq]
    exact htop
  · rw [← htail, hscope]
    exact .inl rfl

namespace World

/-- Only modules made at top level are registered. In every state of every session, a registered
module has the name that it is registered under. It was made by a module form in the outermost
scope, or it stands for a file, or a file bound it to its own name. If only modules made at top
level were bound so by files, then the module was made by a module form in the outermost scope or
at the top of a file, or stands for a file; and no module form in any other scope, be it of a call,
of a `let` or of a module, has made it. -/
theorem registered_at_top_level {w : World} (h : w.Arose ctx past) {name : String}
    (hm : w.library.registry.get? name = some m) :
    m.name = name ∧ Origin ctx past m ∧
      ((∀ f, BoundByFile ctx past f m → TopLevel ctx past m) →
        TopLevel ctx past m ∧ ∀ scope, MadeIn ctx past scope m → TopScope ctx past scope) := by
  obtain ⟨hname, horigin⟩ := h.accounted name m hm
  refine ⟨hname, horigin, fun hfiles => ?_⟩
  have htop : TopLevel ctx past m := by
    cases horigin with
    | form hmade => exact .inl ⟨rootScope, .inl rfl, hmade⟩
    | bound hbound => exact hfiles _ hbound
    | file hfile => exact .inr hfile
  exact ⟨htop, fun scope hmade => htop.topScope hmade⟩

set_option maxRecDepth 100000 in
/-- A module form in the outermost scope, where there are no files. -/
theorem registered_at_top_level_form :
    let ctx : Context := ⟨.default, ⟨[], []⟩⟩
    ∃ (w : World) (past : Set Moment) (m : Module), w.Arose ctx past ∧
      w.library.registry.get? "shapes" = some m ∧ m.name = "shapes" ∧ TopLevel ctx past m ∧
      ∀ scope, MadeIn ctx past scope m → TopScope ctx past scope := by
  intro ctx
  let s : Session := (Session.evalText ⟨ctx, 4, Session.primitiveWorld⟩
    "(module shapes (export area) (define area 1))").2
  obtain ⟨past, harose⟩ : ∃ past, s.Arose ctx past := by
    obtain ⟨past, -, h⟩ := (Session.Arose.bare 4).evalText _
    exact ⟨past, h⟩
  have hworld : s.world.Arose ctx past := .top harose
  have hregistered : (s.world.library.registry.get? "shapes").isSome = true := by decide +kernel
  obtain ⟨m, hm⟩ := Option.isSome_iff_exists.1 hregistered
  -- nothing can be read from an empty disk, and so no file ran
  have hnofile : ∀ f, ¬ BoundByFile ctx past f m := by
    rintro f ⟨p, w, slot, hran, -⟩
    obtain ⟨n, target, spec, scope, w₀, path, source, forms, v, -, -, -, hread, -⟩ := hran
    have hnothing : ctx.disk.readPlace p ≠ .ok source := by
      unfold Disk.readPlace Disk.node?
      simp only [ctx, List.lookup_nil, List.any_nil, Bool.or_false]
      cases p <;> simp [List.isPrefixOf]
    exact hnothing hread
  obtain ⟨hname, -, htop⟩ := registered_at_top_level hworld hm
  obtain ⟨hlevel, hscopes⟩ := htop fun f hbound => absurd hbound (hnofile f)
  exact ⟨s.world, past, m, hworld, hm, hname, hlevel, hscopes⟩

/-- Looking a name up gave nothing. -/
def unbound? : Except EvalError Value → Bool
  | .error (.unbound _) => true
  | _ => false

theorem unbound_of_check {s : Store} {scope : Scope} {name : String}
    (h : unbound? (s.lookup scope name) = true) : s.Unbound scope name := by
  unfold unbound? at h
  split at h
  · next reported heq => exact ⟨reported, heq⟩
  · exact absurd h (by simp)

set_option maxRecDepth 100000 in
/-- A file binds to its own name a module that was made in a call. The module is registered, and
found by an import of its name, although it was not made at top level. -/
theorem registered_from_call :
    let ctx : Context := ⟨.default, ⟨[], [(["lib.mlisp"], .file
      "(defun build () (module scratch (export v) (define v 5)))\n(define scratch (build))".toUTF8)]⟩⟩
    ∃ s past m, Session.Arose ctx s past ∧ s.world.library.registry.get? "scratch" = some m ∧
      ¬ TopLevel ctx past m ∧ ∃ w,
        (Engine.ofDepth ctx 7).resolve ctx rootScope (.name "scratch") s.world = .ok m w := by
  intro ctx
  let s : Session := (Session.evalText ⟨ctx, 8, Session.primitiveWorld⟩ "(import lib :as l)").2
  obtain ⟨past, harose⟩ : ∃ past, s.Arose ctx past := by
    obtain ⟨past, -, h⟩ := (Session.Arose.bare 8).evalText _
    exact ⟨past, h⟩
  have hregistered : ((s.world.library.registry.get? "scratch").map fun m => m.scope.length) =
      some 6 := by decide +kernel
  obtain ⟨m, hm, hlength⟩ := Option.map_eq_some_iff.1 hregistered
  have hlookup : unbound? (s.world.store.lookup rootScope "scratch") = true := by decide +kernel
  refine ⟨s, past, m, harose, hm, ?_, s.world, ?_⟩
  · -- a module made at top level has one or two frames around its own
    rintro (⟨scope, htop, hmade⟩ | ⟨p, f, w, -, -, hscope, -⟩)
    · have hscope : scope.length = 5 := by
        rw [← hmade.tail_eq, List.length_tail, hlength]
      rcases htop with rfl | ⟨p, f, w, -, rfl⟩
      · exact absurd hscope (by decide)
      · exact absurd hscope (by simp)
    · rw [hscope] at hlength
      exact absurd hlength (by simp)
  · exact Engine.resolve_of_finds (.inr ⟨unbound_of_check hlookup, .inl hm⟩)

end World

end TinyLisp
