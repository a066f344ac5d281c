import TinyLisp.Proofs.Invariant.Call
import TinyLisp.Proofs.LoadLaws

/-!
# Modules and files keep invariants

A module is good when it is made: its frame is complete and binds every name that it shows. A
file is run at a stage of its own, with nothing but the outermost scope around it; when it ends,
the run around it goes on at a stage later than the one it was at.
-/

namespace TinyLisp

open Invariant
open Store (Confined)

variable {I : Invariant} {K : I.Stage} {scope : Scope} {en en' : Engine} {ctx : Context}

namespace Invariant.KeptOutside

/-! ## §1. Making and registering modules -/

/-- A module is made in a world in which its frame binds every name that it shows. -/
theorem newModule (hI : I.KeptOutside) {w : World} (hw : I.Holds K w) {f : FrameId} {rest : Scope}
    (hs : I.Active K (f :: rest)) (hf : I.Complete K f) (name : String)
    {exports : List String} (h : ∀ n ∈ exports, w.store.binds f n = true) :
    I.RunsAt K (fun K' m => I.Node K' (.module m)) (Eval.newModule name (f :: rest) exports)
      (Eval.newModule name (f :: rest) exports) w :=
  .ok rfl (hI.module name hw hs hf h)

theorem registerModule (hI : I.KeptOutside) (ht : I.Top K) {m : Module} (h : I.Node K (.module m)) :
    I.Runs K (fun _ _ => True) (Eval.register m) (Eval.register m) :=
  .change fun _ hw => ⟨_, _, rfl, hI.register hw ht h⟩

/-- Several modules may be registered one after another. -/
theorem registerAll (hI : I.KeptOutside) (ht : I.Top K) {ms : List Module}
    (h : ∀ m ∈ ms, I.Node K (.module m)) {w : World} (hw : I.Holds K w) :
    I.Later K { w with library := ms.foldl Library.register w.library } fun _ => True := by
  induction ms generalizing K w with
  | nil => exact later_now hw trivial
  | cons m ms ih =>
    obtain ⟨K₁, hK₁, hw₁, -⟩ := hI.register hw ht (h m (by simp))
    have hrest : ∀ m ∈ ms, I.Node K₁ (.module m) :=
      fun m hm => hI.node_mono hK₁ (h m (by simp [hm]))
    exact Later.since hK₁ (ih (hI.top_mono hK₁ ht) hrest hw₁)

/-- The modules that a known frame binds to their own names are good. -/
theorem ownModules_node (hI : I.KeptOutside) {w : World} (hw : I.Holds K w) {f : FrameId}
    (hf : I.Frame K f) : ∀ m ∈ w.store.ownModules f, I.Node K (.module m) := by
  intro m hm
  unfold Store.ownModules at hm
  obtain ⟨name, -, hname⟩ := List.mem_filterMap.1 hm
  split at hname
  · next m' hread =>
    obtain ⟨slot, hslot, hval⟩ := Option.map_eq_some_iff.1 hread
    split at hname
    · obtain rfl := Option.some.inj hname
      have hknows : I.Knows K [f] := by
        intro g hg
        rw [List.mem_singleton.1 hg]
        exact hf
      have hlookup : w.store.lookup [f] name = .ok (w.store.read slot) :=
        Store.lookup_of_slot? (Store.slot?_of_slotIn? rfl hslot)
      rw [hval] at hlookup
      exact (hI.lookup hw hknows hlookup (by simp)).self
    · exact absurd hname (by simp)
  · exact absurd hname (by simp)

/-- The names that a frame binds are bound. -/
theorem binds_of_mem_names {s : Store} {f : FrameId} : ∀ n ∈ s.names f, s.binds f n = true := by
  intro n hn
  exact Table.get?_isSome_iff.2 (Names.mem_ofList.1 hn)

end Invariant.KeptOutside

/-! ## §2. Module forms -/

namespace Invariant.Engines

theorem defineModule (hen : I.Engines en en') (name : String) (exports : List String)
    {body : List Expr} (hb : ∀ e ∈ body, I.Fits K e) (hs : I.Active K scope) :
    I.Runs K (fun K' m => I.Node K' (.module m)) (en.defineModule name exports body scope)
      (en'.defineModule name exports body scope) := by
  have hI := hen.kept
  unfold Engine.defineModule
  refine (hI.openFrame hs.knows).bind hI fun K₁ inner hK₁ hinner => ?_
  obtain ⟨hactive, f, rfl, hf⟩ := hinner
  refine (hen.evalEach (fun e he => hI.fits_mono hK₁ (hb e he)) hactive).bind hI
    fun K₂ _ hK₂ _ => ?_
  have hs₂ := hI.active_mono (hK₁.trans hK₂) hs
  refine .get fun w hw => ?_
  cases hmissing : w.store.firstMissing? (Scope.innermost (f :: scope)) exports with
  | some missing => exact Runs.fail hI _ w hw
  | none =>
    have hbound : ∀ n ∈ exports, w.store.binds f n = true := by
      intro n hn
      have h : ¬ (!w.store.binds f n) = true := List.find?_eq_none.1 hmissing n hn
      simpa using h
    have hmade := hI.newModule hw (hI.active_mono hK₂ hactive) (hI.complete_mono hK₂ hf)
      name hbound
    refine hmade.bind hI fun K₃ m hK₃ hm => ?_
    have hbind : ∀ K', K₃ ≤ K' → I.Runs K' (fun K'' m => I.Node K'' (.module m))
        (Eval.bindName scope name (.module m) >>= fun _ => pure m)
        (Eval.bindName scope name (.module m) >>= fun _ => pure m) := by
      intro K' hK'
      have hm' := hI.node_mono hK' hm
      refine (hI.bindName (hI.active_mono (hK₃.trans hK') hs₂) (Value.every_module.2 hm')
        name).bind hI fun K₅ _ hK₅ _ => ?_
      exact .pure (hI.node_mono hK₅ hm')
    split
    · next hroot =>
      -- work at top level goes on in the outermost scope only
      have htop : I.Top K₃ := by
        refine hI.top_mono hK₃ (hI.top_of_root hw (hs₂.works rootFrame ?_))
        rw [hroot]
        rfl
      exact (hI.registerModule htop hm).bind hI fun K₄ _ hK₄ _ => hbind K₄ hK₄
    · exact hbind K₃ (le_refl K₃)

/-! ## §3. Files -/

theorem evalForms (hen : I.Engines en en') {last : Value} {forms : List Value}
    (hl : I.Good K last) (h : ∀ form ∈ forms, Datum form) (hs : I.Active K scope) :
    I.Runs K (fun K' v => I.Good K' v) (en.evalForms scope last forms)
      (en'.evalForms scope last forms) := by
  have hI := hen.kept
  induction forms generalizing K last with
  | nil => exact .pure hl
  | cons form forms ih =>
    unfold Engine.evalForms
    refine (hI.tagForm (h form (by simp))).bind hI fun K₁ tagged hK₁ htagged => ?_
    have hs₁ := hI.active_mono hK₁ hs
    refine (hen.evalForm htagged hs₁).bind hI fun K₂ v hK₂ hv => ?_
    exact ih hv (fun form hf => h form (by simp [hf])) (hI.active_mono hK₂ hs₁)

theorem fileModule (hI : I.KeptOutside) {f : FrameId} {rest : Scope} (hs : I.Active K (f :: rest))
    (hf : I.Complete K f) (ht : I.Top K) (name : String) :
    I.Runs K (fun K' m => I.Node K' (.module m)) (Engine.fileModule name (f :: rest))
      (Engine.fileModule name (f :: rest)) := by
  unfold Engine.fileModule
  refine .get fun w hw => ?_
  have hown := hI.ownModules_node hw (hI.frame_of_works (hs.works f rfl))
  obtain ⟨K₁, hK₁, hw₁, -⟩ := hI.registerAll ht hown hw
  refine .same ?_
  dsimp only [Scope.innermost, List.headD_cons]
  rw [Eval.modifyLibrary_bind]
  cases hfound : (w.store.ownModules f).find? fun m : Module => m.name = name with
  | some m => exact ⟨K₁, hK₁, hw₁, hI.node_mono hK₁ (hown m (List.mem_of_find?_eq_some hfound))⟩
  | none =>
    have hbound : ∀ n ∈ w.store.names f, w.store.binds f n = true := KeptOutside.binds_of_mem_names
    have hmade := hI.newModule hw₁ (hI.active_mono hK₁ hs) (hI.complete_mono hK₁ hf) name hbound
    have hends := (hmade.bind hI fun K₂ m hK₂ hm =>
      (hI.registerModule (hI.top_mono (hK₁.trans hK₂) ht) hm).bind hI fun K₃ _ hK₃ _ =>
        Runs.pure (P := fun K' m => I.Node K' (.module m)) (hI.node_mono hK₃ hm)).ends
    exact Ends.since hI hK₁ hends

theorem runFile (hen : I.Engines en en') (p : Place) (hr : I.Works K rootFrame)
    (ht : I.Top K) :
    I.Runs K (fun K' m => I.Node K' (.module m)) (en.runFile ctx p) (en'.runFile ctx p) := by
  have hI := hen.kept
  unfold Engine.runFile
  split
  · exact .fail hI _
  · split
    · exact .fail hI _
    · next forms hforms =>
      refine (hI.openFrame (hI.active_root hr).knows).bind hI fun K₁ inner hK₁ hinner => ?_
      obtain ⟨hactive, f, rfl, hf⟩ := hinner
      have hnil : I.Good K₁ .nil := hI.atom rfl trivial
      refine (hen.evalForms hnil (readData_datum hforms) hactive).bind hI fun K₂ _ hK₂ _ => ?_
      exact fileModule hI (hI.active_mono hK₂ hactive) (hI.complete_mono hK₂ hf)
        (hI.top_mono (hK₁.trans hK₂) ht) _

theorem load (hen : I.Engines en en') (path : String) :
    I.Runs K (fun K' m => I.Node K' (.module m)) (en.load ctx path) (en'.load ctx path) := by
  have hI := hen.kept
  intro w hw
  cases hres : ctx.disk.resolve path with
  | error e =>
    have hx : ∀ en : Engine, en.load ctx path w = _ := fun en => Engine.load_of_unresolved hres
    refine .of_ends ?_
    rw [hx en, hx en']
    exact ⟨.refl _, hI.left_of_holds hw⟩
  | ok p =>
    cases hfile : w.library.files.get? p with
    | some m =>
      have hx : ∀ en : Engine, en.load ctx path w = _ := fun en => Engine.load_of_kept hres hfile
      refine .of_ends ?_
      rw [hx en, hx en']
      exact ⟨.refl _, later_now hw (hI.kept hw hfile)⟩
    | none =>
      cases hload : w.library.loading.contains p with
      | true =>
        have hx : ∀ en : Engine, en.load ctx path w = _ :=
          fun en => Engine.load_of_loading hres hfile hload
        refine .of_ends ?_
        rw [hx en, hx en']
        exact ⟨.refl _, hI.left_of_holds hw⟩
      | false =>
        obtain ⟨K₁, hw₁, hroot, hdone, hfailed⟩ := hI.file hw hfile hload
        have hrun : I.Runs K₁ (fun K' m => I.Node K' (.module m)) (en.runFile ctx p)
            (en'.runFile ctx p) := hen.runFile p hroot (hI.top_of_root hw₁ hroot)
        obtain ⟨hagree, hends⟩ := hrun _ hw₁
        -- the file leaves everything that is there as it was
        have hwithin : Eval.Within [] (en.runFile ctx p) := hen.isolates.runFile p
        have hconfined := hwithin { w with library := w.library.enter p }
          fun f hf => absurd hf (by simp)
        have hx : ∀ en : Engine, en.load ctx path w = _ :=
          fun en => Engine.load_of_new hres hfile hload
        refine ⟨?_, ?_⟩
        · rw [hx en, hx en']
          cases hx₁ : en.runFile ctx p { w with library := w.library.enter p } with
          | ok m w₂ =>
            rw [hx₁] at hagree
            rw [Eval.after_of_ok hx₁] at hconfined
            rcases hagree with hsame | ⟨⟨w₃, hstop⟩, K₂, hK₂, hw₂, hapart, hm⟩
            · rw [hsame.eq_of_ok]
              exact .inl (.refl _)
            · rw [hstop]
              refine .inr ⟨⟨_, rfl⟩, ?_⟩
              exact Later.mono (hdone K₂ w₂ m hK₂ hw₂ hconfined hm) fun _ _ h => ⟨h.2 hapart, h.1⟩
          | error halt w₂ =>
            rw [hx₁] at hagree
            rcases hagree with (hsame | ⟨hlax, w₃, hstop⟩) | ⟨⟨w₃, hstop⟩, K₂, hapart, hleft⟩
            · rw [← hsame]
              exact .inl (.refl _)
            · cases hstop
              exact .inl (.inr ⟨hlax, _, rfl⟩)
            · rw [hstop]
              exact .inr ⟨⟨_, rfl⟩, hI.left_apart p hapart hleft⟩
        · rw [hx en]
          cases hx₁ : en.runFile ctx p { w with library := w.library.enter p } with
          | ok m w₂ =>
            rw [hx₁] at hends
            rw [Eval.after_of_ok hx₁] at hconfined
            obtain ⟨K₂, hK₂, hw₂, hm⟩ := hends
            exact (hdone K₂ w₂ m hK₂ hw₂ hconfined hm).mono fun _ _ h => h.1
          | error halt w₂ =>
            rw [hx₁] at hends
            exact hfailed w₂ hends

/-! ## §4. Imports -/

theorem resolveUnbound (hen : I.Engines en en') (name : String) :
    I.Runs K (fun K' m => I.Node K' (.module m)) (en.resolveUnbound ctx name)
      (en'.resolveUnbound ctx name) := by
  have hI := hen.kept
  unfold Engine.resolveUnbound
  refine Runs.library fun w hw => ?_
  cases hreg : w.library.registry.get? name with
  | some m => exact .ok rfl (later_now hw (hI.registered hw hreg))
  | none =>
    cases ctx.search? (name ++ moduleExtension) with
    | some path => exact hen.load path w hw
    | none => exact Runs.fail hI _ w hw

theorem resolve (hen : I.Engines en en') (target : ImportTarget) (hs : I.Knows K scope) :
    I.Runs K (fun K' m => I.Node K' (.module m)) (en.resolve ctx scope target)
      (en'.resolve ctx scope target) := by
  have hI := hen.kept
  unfold Engine.resolve
  cases target with
  | path path => exact hen.load _
  | name name =>
    refine .get fun w hw => ?_
    split
    · next m hm => exact .ok rfl (later_now hw (hI.lookup hw hs hm (by simp)).self)
    · exact Runs.fail hI _ w hw
    · exact hen.resolveUnbound name w hw
    · exact Runs.fail hI _ w hw

end Invariant.Engines

namespace Invariant.KeptOutside

/-- What a module shows is good. -/
theorem lookupShown (hI : I.KeptOutside) {m : Module} (hm : I.Node K (.module m)) {name : String}
    (hn : name ∈ m.exports) :
    I.Runs K (fun K' v => I.Good K' v) (Eval.lookup m.scope name)
      (Eval.lookup m.scope name) := by
  refine .get fun w hw => ?_
  have hgood : Yields (fun v => I.Good K v) (w.store.lookup m.scope name) :=
    fun _ hv => hI.shown hw hm hn hv
  exact Runs.ofExcept hI hgood w hw

/-- A name that a module shows, bound in a scope. -/
theorem importOne (hI : I.KeptOutside) {m : Module} (hm : I.Node K (.module m))
    (hs : I.Active K scope) {name : String} (hn : name ∈ m.exports) {k : Eval Unit}
    (hk : ∀ K', K ≤ K' → I.Runs K' (fun _ _ => True) k k) :
    I.Runs K (fun _ _ => True)
      (Eval.lookup m.scope name >>= fun v => Eval.bindName scope name v >>= fun _ => k)
      (Eval.lookup m.scope name >>= fun v => Eval.bindName scope name v >>= fun _ => k) := by
  refine (hI.lookupShown hm hn).bind hI fun K₁ v hK₁ hv => ?_
  refine (hI.bindName (hI.active_mono hK₁ hs) hv name).bind hI fun K₂ _ hK₂ _ => ?_
  exact hk K₂ (hK₁.trans hK₂)

theorem importNames (hI : I.KeptOutside) {m : Module} (hm : I.Node K (.module m))
    (hs : I.Active K scope) {names : List String} (h : ∀ name ∈ names, name ∈ m.exports) :
    I.Runs K (fun _ _ => True) (Eval.importNames m scope names)
      (Eval.importNames m scope names) := by
  induction names generalizing K with
  | nil => exact .pure trivial
  | cons name names ih =>
    unfold Eval.importNames
    refine hI.importOne hm hs (h name (by simp)) fun K' hK' => ?_
    exact ih (hI.node_mono hK' hm) (hI.active_mono hK' hs) fun n hn => h n (by simp [hn])

theorem importShown (hI : I.KeptOutside) {m : Module} (hm : I.Node K (.module m))
    (hs : I.Active K scope) (names : List String) :
    I.Runs K (fun _ _ => True) (Eval.importShown m scope names)
      (Eval.importShown m scope names) := by
  induction names generalizing K with
  | nil => exact .pure trivial
  | cons name names ih =>
    unfold Eval.importShown
    split
    · next hn =>
      refine hI.importOne hm hs (by simpa using hn) fun K' hK' => ?_
      exact ih (hI.node_mono hK' hm) (hI.active_mono hK' hs)
    · exact .fail hI _

theorem importModule (hI : I.KeptOutside) {m : Module} (hm : I.Node K (.module m))
    (hs : I.Active K scope) (spec : ImportSpec) :
    I.Runs K (fun _ _ => True) (Eval.importModule m scope spec)
      (Eval.importModule m scope spec) := by
  cases spec with
  | all => exact hI.importNames hm hs fun _ hn => hn
  | only names => exact hI.importShown hm hs names
  | renamed name => exact hI.bindName hs (Value.every_module.2 hm) name

end Invariant.KeptOutside

end TinyLisp
