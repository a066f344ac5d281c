import TinyLisp.Proofs.Simulation.Function
import TinyLisp.Proofs.Reading.Datum

/-!
# Modules and files in step

Two runs with the same disk and the same search path find the same files. What they keep of
modules belongs together throughout.
-/

namespace TinyLisp

open Correspondence

variable {O : Backdrop} {K : Correspondence O} {V : View} {p : Prop} {en en' : Engine}
variable {ctx ctx' : Context} {scope scope' : Scope}

/-! ## §1. Module forms -/

theorem Correspondence.Libraries.register {l l' : Library} (h : K.Libraries l l') {m m' : Module}
    (hm : K.Modules m m') : K.Libraries (l.register m) (l'.register m') := by
  refine ⟨?_, h.files, h.loading⟩
  unfold Library.register
  rw [← hm.name]
  exact h.registry.set m.name hm

theorem register_sim {m m' : Module} (hm : K.Modules m m') :
    K.Sim same (Eval.register m) (Eval.register m') :=
  Sim.modifyLibrary fun _ _ h => h.register hm

/-- A module whose exports can be read in its scope. -/
theorem newModule_sim (name : String) {exports : List String} (hs : K.Kept V scope scope')
    (hr : ∀ n ∈ exports, V.Reads n) (hm : ∀ n, firstSegment n ∈ exports → V.Reads n) :
    K.Sim Modules (Eval.newModule name scope exports) (Eval.newModule name scope' exports) := by
  unfold Eval.newModule
  refine Sim.newTag.bind fun K' hK n n' hn => ?_
  exact .pure ⟨hn, rfl, rfl, V, hs.mono hK, hr, hm⟩

/-- A frame that binds all exports for good makes them readable, whatever else is seen. -/
theorem newModule_sim_of_binds (name : String) {exports : List String}
    (hs : K.Active O.held V scope scope') (hb : ∀ n ∈ exports, K.Binds scope.innermost n) :
    K.Sim Modules (Eval.newModule name scope exports) (Eval.newModule name scope' exports) := by
  have hshared := hs.sharing
  cases hs with
  | @cons M f f' scope scope' hf hs seen bound own =>
    have hkept := (hshared.adding hb).kept
    refine newModule_sim name hkept (fun n hn => View.reads_adding _ hn) fun n hn => ?_
    refine View.reads_of_firstSegment (fun n hn => ?_) (.inr hn)
    exact .inl (.inr (O.shared_dots n hn))

theorem refuse_sim {α β : Type} {R : Correspondence O → α → β → Prop} (path : String)
    (fault : LoadFault) :
    K.Sim R (Eval.refuse path fault : Eval α) (Eval.refuse path fault : Eval β) :=
  .fail (.refl _)

/-- The innermost frames of active scopes are paired. -/
theorem Correspondence.Active.innermost (hs : K.Active p V scope scope') :
    K.frame scope.innermost scope'.innermost := by
  cases hs with
  | cons hf => exact hf.frame

theorem slotIn?_innermost {w w' : World} (hw : K.Worlds w w') (hs : K.Active p V scope scope')
    (name : String) :
    w.store.slotIn? scope.innermost name = w'.store.slotIn? scope'.innermost name := by
  unfold Store.slotIn?
  rw [hw.store.frame_eq _ _ hs.innermost]

theorem firstMissing?_eq {w w' : World} (hw : K.Worlds w w') (hs : K.Active p V scope scope')
    (names : List String) :
    w.store.firstMissing? scope.innermost names =
      w'.store.firstMissing? scope'.innermost names := by
  unfold Store.firstMissing?
  congr 1
  funext name
  unfold Store.binds
  rw [slotIn?_innermost hw hs name]

/-- If no export is missing, the frame binds them all. -/
theorem Store.slotIn?_of_firstMissing? {s : Store} {f : FrameId} {names : List String}
    (h : s.firstMissing? f names = none) {name : String} (hn : name ∈ names) :
    ∃ slot, s.slotIn? f name = some slot := by
  have hb := List.find?_eq_none.1 h name hn
  unfold Store.binds at hb
  exact Option.ne_none_iff_exists'.1 (by simpa using hb)

theorem Engine.InStep.defineModule (hen : en.InStep O en') (name : String) (exports : List String)
    {body body' : List Expr} (h : List.Forall₂ K.Exprs body body')
    (hc : ∀ e ∈ body, e.Covered V) (hs : K.Active O.held V scope scope') :
    K.Sim Modules (en.defineModule name exports body scope)
      (en'.defineModule name exports body' scope') := by
  unfold Engine.defineModule
  refine (Sim.extend scope scope').bind fun K₁ hK₁ inner inner' hopen => ?_
  have hi := hopen.active (hs.mono hK₁).scopes
  have h₁ := h.imp fun _ _ he => Exprs.mono hK₁ he
  refine (hen.evalEach h₁ hc (.active (hi.imp fun _ => trivial))).bind fun K₂ hK₂ _ _ _ => ?_
  refine Sim.getPinned fun w w' hw => ?_
  have hpin := hw.store.le_pin
  have hi₂ := hi.mono hK₂
  have hs₂ := ((hs.mono hK₁).mono hK₂).mono hpin
  rw [← firstMissing?_eq hw hi₂ exports]
  cases hmissing : w.store.firstMissing? inner.innermost exports with
  | some missing => exact refuse_sim _ _
  | none =>
    -- the frame binds every export, and from now on for good
    refine (newModule_sim_of_binds name (hi₂.mono hpin) fun n hn =>
      Store.slotIn?_of_firstMissing? hmissing hn).bind fun K₃ hK₃ m m' hm => ?_
    have hs₃ := hs₂.mono hK₃
    simp only [hs₃.rootScope_iff]
    split
    · refine (register_sim hm).bind fun K₄ hK₄ _ _ _ => ?_
      refine (Sim.bindName (hs₃.mono hK₄) name (.module (hm.mono hK₄))).bind fun K₅ hK₅ _ _ _ => ?_
      exact .pure ((hm.mono hK₄).mono hK₅)
    · refine (Sim.bindName hs₃ name (.module hm)).bind fun K₄ hK₄ _ _ _ => ?_
      exact .pure (hm.mono hK₄)

/-! ## §2. Files -/

theorem Engine.InStep.evalForms (hen : en.InStep O en') (hV : V.Whole)
    (hs : K.Active True V scope scope') {last last' : Value} (hl : K.Values last last')
    {forms forms' : List Value} (h : K.Lists forms forms') :
    K.Sim Values (en.evalForms scope last forms) (en'.evalForms scope' last' forms') := by
  induction forms generalizing K forms' last last' with
  | nil =>
    cases h
    exact .pure hl
  | cons form forms ih =>
    cases h with
    | cons hv h =>
      unfold Engine.evalForms
      refine (Sim.tagForm hv).bind fun K₁ hK₁ t t' ht => ?_
      refine (hen.evalForm ht (fun _ _ => .whole hV) (.active (hs.mono hK₁))).bind
        fun K₂ hK₂ v v' hv => ?_
      exact ih ((hs.mono hK₁).mono hK₂) hv (Lists.mono hK₂ (Lists.mono hK₁ h))

theorem ownModules_like {w w' : World} (hw : K.Worlds w w') (hs : K.Active p V scope scope') :
    List.Forall₂ K.Modules (w.store.ownModules scope.innermost)
      (w'.store.ownModules scope'.innermost) := by
  unfold Store.ownModules Store.names
  rw [hw.store.frame_eq _ _ hs.innermost]
  refine List.rel_filterMap (R := Eq) ?_ (List.forall₂_same.2 fun _ _ => rfl)
  rintro name _ rfl
  simp only [slotIn?_innermost hw hs name]
  cases w'.store.slotIn? scope'.innermost name with
  | none => exact .none
  | some slot =>
    have hv := hw.store.read slot
    simp only [Option.map_some]
    generalize w.store.read slot = v, w'.store.read slot = v' at hv
    cases hv with
    | @module m m' hm =>
      simp only
      rw [show m.name = m'.name from hm.name]
      split
      · exact .some hm
      · exact .none
    | _ => exact .none

theorem find?_like {ms ms' : List Module} (h : List.Forall₂ K.Modules ms ms') (name : String) :
    Option.Rel K.Modules (ms.find? fun m => m.name = name) (ms'.find? fun m => m.name = name) := by
  induction h with
  | nil => exact .none
  | cons hm _ ih =>
    rw [List.find?_cons, List.find?_cons, hm.name]
    split
    · exact .some hm
    · exact ih

theorem fileModule_sim (name : String) (hV : V.Whole) (hs : K.Active O.held V scope scope') :
    K.Sim Modules (Engine.fileModule name scope) (Engine.fileModule name scope') := by
  unfold Engine.fileModule
  refine Sim.get fun w w' hw => ?_
  have hown := ownModules_like hw hs
  have hnames : w.store.names scope.innermost = w'.store.names scope'.innermost := by
    unfold Store.names
    rw [hw.store.frame_eq _ _ hs.innermost]
  have hlib : ∀ l l', K.Libraries l l' →
      K.Libraries ((w.store.ownModules scope.innermost).foldl Library.register l)
        ((w'.store.ownModules scope'.innermost).foldl Library.register l') := by
    intro l l' hl
    exact List.rel_foldl (fun _ _ h _ _ hm => h.register hm) hl hown
  refine (Sim.modifyLibrary hlib).bind fun K₁ hK₁ _ _ _ => ?_
  have hfound := find?_like hown name
  generalize (w.store.ownModules scope.innermost).find? (fun m => m.name = name) = x,
    (w'.store.ownModules scope'.innermost).find? (fun m => m.name = name) = x' at hfound
  cases hfound with
  | some hm => exact .pure (hm.mono hK₁)
  | none =>
    rw [hnames]
    refine (newModule_sim name (hs.mono hK₁).kept (fun n _ => hV.reads n)
      fun n _ => hV.reads n).bind fun K₂ hK₂ m m' hm => ?_
    refine (register_sim hm).bind fun K₃ hK₃ _ _ _ => ?_
    exact .pure (hm.mono hK₃)

/-- Contexts alike: the same but for how functions keep their scope. -/
structure Context.Alike (ctx ctx' : Context) : Prop where
  disk : ctx.disk = ctx'.disk
  searchPath : ctx.settings.searchPath = ctx'.settings.searchPath
  expansionLimit : ctx.settings.expansionLimit = ctx'.settings.expansionLimit

theorem Context.Alike.search?_eq (h : ctx.Alike ctx') (path : String) :
    ctx.search? path = ctx'.search? path := by
  unfold Context.search?
  rw [h.disk, h.searchPath]

theorem Context.Alike.pathToLoad_eq (h : ctx.Alike ctx') (path : String) :
    ctx.pathToLoad path = ctx'.pathToLoad path := by
  unfold Context.pathToLoad
  rw [h.disk, h.search?_eq]

/-- What a text is read to has no functions, expanders or modules in it. -/
theorem Datum.like (L : Leaves) {v : Value} (h : Datum v) : Value.Like L v v := by
  induction h with
  | nil => exact .nil
  | bool b => exact .bool b
  | int n => exact .int n
  | float _ => exact .float _
  | symbol _ _ => exact .symbol _
  | string text => exact .string text
  | pair _ _ iha ihd => exact .pair none iha ihd
  | wrapper w _ ih =>
    cases w with
    | quote => exact .quote ih
    | quasiquote => exact .quasiquote ih
    | unquote => exact .unquote ih
    | unquoteSplicing => exact .unquoteSplicing ih

theorem readData_like {source : String} {forms : List Value} (h : readData source = .ok forms) :
    K.Lists forms forms :=
  List.forall₂_same.2 fun v hv => (readData_datum h v hv).like K.leaves

theorem Engine.InStep.runFile (hen : en.InStep O en') (hctx : ctx.Alike ctx') (p : Place) :
    K.Sim Modules (en.runFile ctx p) (en'.runFile ctx' p) := by
  unfold Engine.runFile
  rw [← hctx.disk]
  cases ctx.disk.readPlace p with
  | error e => exact refuse_sim _ _
  | ok source =>
    simp only
    cases hread : readData source with
    | error e => exact refuse_sim _ _
    | ok forms =>
      refine (Sim.extend rootScope rootScope).bind fun K₁ hK₁ S S' hopen => ?_
      have hs := hopen.active K₁.kept_root.scopes
      refine (hen.evalForms View.whole_whole (hs.imp fun _ => trivial) .nil
        (readData_like hread)).bind fun K₂ hK₂ _ _ _ => ?_
      exact fileModule_sim _ View.whole_whole (hs.mono hK₂)

theorem Engine.InStep.load (hen : en.InStep O en') (hctx : ctx.Alike ctx') (path : String) :
    K.Sim Modules (en.load ctx path) (en'.load ctx' path) := by
  unfold Engine.load
  rw [← hctx.disk]
  cases ctx.disk.resolve path with
  | error e => exact refuse_sim _ _
  | ok p =>
    refine Sim.library.bind fun K₁ hK₁ l l' hl => ?_
    have hfile := hl.files.get? p
    generalize l.files.get? p = x, l'.files.get? p = x' at hfile
    cases hfile with
    | some hm => exact .pure hm
    | none =>
      refine Sim.library.bind fun K₂ hK₂ l l' hl => ?_
      rw [hl.loading]
      split
      · exact refuse_sim _ _
      · have henter : ∀ l l', K₂.Libraries l l' → K₂.Libraries (l.enter p) (l'.enter p) := by
          intro l l' h
          exact ⟨h.registry, h.files, congrArg (p :: ·) h.loading⟩
        refine (Sim.modifyLibrary henter).bind fun K₃ hK₃ _ _ _ => ?_
        refine Sim.observe (hen.runFile hctx p) (fun K₄ hK₄ r r' hr => ?_) fun h w => ⟨_, rfl⟩
        have hleave : ∀ l l', K₄.Libraries l l' → K₄.Libraries (l.leave p) (l'.leave p) := by
          intro l l' h
          exact ⟨h.registry, h.files, congrArg (List.filter (· ≠ p)) h.loading⟩
        refine (Sim.modifyLibrary hleave).bind fun K₅ hK₅ _ _ _ => ?_
        cases hr with
        | error hh => exact .throw hh
        | @ok m m' hm =>
          have hm₅ := hm.mono hK₅
          have hkeep : ∀ l l', K₅.Libraries l l' → K₅.Libraries (l.keep p m) (l'.keep p m') := by
            intro l l' h
            exact ⟨h.registry, h.files.set p hm₅, h.loading⟩
          exact (Sim.modifyLibrary hkeep).bind fun K₆ hK₆ _ _ _ => .pure (hm₅.mono hK₆)

/-! ## §3. Imports -/

theorem Engine.InStep.resolveUnbound (hen : en.InStep O en') (hctx : ctx.Alike ctx')
    (name : String) :
    K.Sim Modules (en.resolveUnbound ctx name) (en'.resolveUnbound ctx' name) := by
  unfold Engine.resolveUnbound
  refine Sim.library.bind fun K₁ hK₁ l l' hl => ?_
  have hfound := hl.registry.get? name
  generalize l.registry.get? name = x, l'.registry.get? name = x' at hfound
  cases hfound with
  | some hm => exact .pure hm
  | none =>
    simp only
    rw [← hctx.search?_eq]
    cases ctx.search? (name ++ moduleExtension) with
    | some path => exact hen.load hctx path
    | none => exact refuse_sim _ _

theorem Engine.InStep.resolve (hen : en.InStep O en') (hctx : ctx.Alike ctx')
    (hV : V.Whole) (hs : K.Scopes p V scope scope') (target : ImportTarget) :
    K.Sim Modules (en.resolve ctx scope target) (en'.resolve ctx' scope' target) := by
  unfold Engine.resolve
  cases target with
  | path path =>
    simp only
    rw [← hctx.pathToLoad_eq]
    exact hen.load hctx _
  | name name =>
    refine Sim.get fun w w' hw => ?_
    have hv := hw.store.lookup hs (hV.reads name)
    generalize w.store.lookup scope name = x, w'.store.lookup scope' name = x' at hv
    cases hv with
    | @error e e' he =>
      subst he
      cases e with
      | unbound _ => exact hen.resolveUnbound hctx name
      | _ => exact .fail (.refl _)
    | ok hv =>
      cases hv with
      | module hm => exact .pure hm
      | _ => exact .fail (.refl _)

theorem importNames_sim {m m' : Module} (hm : K.Modules m m') (hs : K.Active p V scope scope')
    {names : List String} (hn : ∀ n ∈ names, n ∈ m.exports) :
    K.Sim same (Eval.importNames m scope names) (Eval.importNames m' scope' names) := by
  induction names generalizing K V with
  | nil => exact .pure rfl
  | cons name names ih =>
    obtain ⟨W, hkept, hshown, -⟩ := hm.scope
    unfold Eval.importNames
    refine (Sim.lookup hkept.scopes (hshown name (hn name (by simp)))).bind fun K₁ hK₁ v v' hv => ?_
    refine (Sim.bindName (hs.mono hK₁) name hv).bind fun K₂ hK₂ _ _ hs₂ => ?_
    exact ih ((hm.mono hK₁).mono hK₂) hs₂ fun n hmem => hn n (List.mem_cons_of_mem name hmem)

theorem importShown_sim {m m' : Module} (hm : K.Modules m m') (hs : K.Active p V scope scope')
    (names : List String) :
    K.Sim same (Eval.importShown m scope names) (Eval.importShown m' scope' names) := by
  induction names generalizing K V with
  | nil => exact .pure rfl
  | cons name names ih =>
    obtain ⟨W, hkept, hshown, -⟩ := hm.scope
    unfold Eval.importShown
    rw [hm.exports, hm.name]
    split
    · next hexport =>
      have hread := hshown name (hm.exports ▸ by simpa using hexport)
      refine (Sim.lookup hkept.scopes hread).bind fun K₁ hK₁ v v' hv => ?_
      refine (Sim.bindName (hs.mono hK₁) name hv).bind fun K₂ hK₂ _ _ hs₂ => ?_
      exact ih ((hm.mono hK₁).mono hK₂) hs₂
    · exact .fail (.refl _)

theorem importModule_sim {m m' : Module} (hm : K.Modules m m') (hs : K.Active p V scope scope')
    (spec : ImportSpec) :
    K.Sim same (Eval.importModule m scope spec) (Eval.importModule m' scope' spec) := by
  unfold Eval.importModule
  cases spec with
  | all =>
    simp only
    rw [← hm.exports]
    exact importNames_sim hm hs fun _ hn => hn
  | only names => exact importShown_sim hm hs names
  | renamed name =>
    exact (Sim.bindName hs name (.module hm)).weaken fun _ _ _ _ _ => rfl

end TinyLisp
