import TinyLisp.Proofs.Region.Kept

/-!
# Failed module operations

A module form and an import do their work in several steps, each of which can fail. A module form
binds nothing in the surrounding scope before all that can fail has been done. So does an import of
all names or under another name: a module shows only names to which its frame gives values
(`TinyLisp.Region.Node`), so that no name it shows can be missing.

A selective import binds its names one after another and fails at the first that is not shown. The
names before that one are then bound. `Engine.failed_operation` says that this is the only way in
which a failed operation leaves a trace in a frame or a slot that was there.
-/

namespace TinyLisp

open Invariant
open Store (Confined)

/-- A module form or an import. -/
def Expr.isModuleOperation : Expr → Bool
  | .module .. => true
  | .importFrom .. => true
  | _ => false

namespace Eval

variable {α β : Type} {K : region.Stage} {scope : Scope} {m : Module} {w w' : World} {halt : Halt}

/-! ## §1. Names of a module, one after another -/

/-- Names that are shown are imported alike, whether that is checked or not. -/
theorem importNames_eq (m : Module) (scope : Scope) {names : List String}
    (h : ∀ name ∈ names, name ∈ m.exports) :
    importNames m scope names = importShown m scope names := by
  induction names with
  | nil => rfl
  | cons name names ih =>
    have hname : m.exports.contains name = true := by simpa using h name (by simp)
    unfold importNames importShown
    rw [if_pos hname, ih fun n hn => h n (by simp [hn])]

/-- A name that is shown is looked up and bound, and the import goes on at a later stage. -/
theorem importShown_cons (hw : region.Holds K w) (hs : region.Active K scope)
    (hm : region.Node K (.module m)) {name : String} (hname : name ∈ m.exports) :
    ∃ K' w₁, K ≤ K' ∧ region.Holds K' w₁ ∧ ∀ names,
      importShown m scope (name :: names) w = importShown m scope names w₁ := by
  obtain ⟨rfl, hsound⟩ := hw
  obtain ⟨v, hv, hgood⟩ := hsound.closed.shown hm hname
  have hends := (kept_region.bindName hs hgood name K.world ⟨rfl, hsound⟩).ends
  have hlookup : lookup m.scope name K.world = .ok v K.world := by
    show ofExcept (K.world.store.lookup m.scope name) K.world = _
    rw [hv]
    rfl
  have hcontains : m.exports.contains name = true := by simpa using hname
  have hstep : ∀ {w₁ : World}, bindName scope name v K.world = .ok () w₁ → ∀ names,
      importShown m scope (name :: names) K.world = importShown m scope names w₁ := by
    intro w₁ hbind names
    unfold importShown
    rw [if_pos hcontains, bind_of_ok hlookup, bind_of_ok hbind]
    cases names <;> rfl
  cases hbind : bindName scope name v K.world with
  | ok u w₁ =>
    rw [hbind] at hends
    obtain ⟨K', hK, hw₁, -⟩ := hends
    exact ⟨K', w₁, hK, hw₁, hstep hbind⟩
  | error e w₁ =>
    -- to bind a name cannot fail
    cases scope with
    | nil => exact absurd hbind (by simp [bindName, pure, EStateM.pure])
    | cons f rest =>
      have hok : bindName (f :: rest) name v K.world = .ok () _ := rfl
      rw [hok] at hbind
      exact absurd hbind (by simp)

/-- A selective import that fails has bound the names before the first that is not shown. -/
theorem importShown_error (hw : region.Holds K w) (hs : region.Active K scope)
    (hm : region.Node K (.module m)) {names : List String}
    (h : importShown m scope names w = .error halt w') :
    ∃ before missing rest, names = before ++ missing :: rest ∧
      (∀ name ∈ before, name ∈ m.exports) ∧ missing ∉ m.exports ∧
      importShown m scope before w = .ok () w' ∧
      halt = .failed (.unbound (m.name ++ "." ++ missing)) := by
  induction names generalizing K w with
  | nil => exact absurd h (by simp [importShown, pure, EStateM.pure])
  | cons name names ih =>
    by_cases hname : name ∈ m.exports
    · obtain ⟨K', w₁, hK, hw₁, hstep⟩ := importShown_cons hw hs hm hname
      rw [hstep] at h
      obtain ⟨before, missing, rest, rfl, hbefore, hmissing, hrun, hhalt⟩ :=
        ih hw₁ (kept_region.active_mono hK hs) (kept_region.node_mono hK hm) h
      refine ⟨name :: before, missing, rest, rfl, ?_, hmissing, ?_, hhalt⟩
      · intro n hn
        rcases List.mem_cons.1 hn with rfl | hn
        · exact hname
        · exact hbefore n hn
      · rw [hstep]
        exact hrun
    · have hcontains : ¬ m.exports.contains name = true := by simpa using hname
      unfold importShown at h
      rw [if_neg hcontains] at h
      cases h
      exact ⟨[], name, names, rfl, fun _ hn => absurd hn (by simp), hname, rfl, rfl⟩

end Eval

/-! ## §2. Operations that fail -/

namespace Engine

variable {ctx : Context} {n : Nat} {scope : Scope} {e : Expr} {w w' : World} {halt : Halt}

/-- What happens when a selective import breaks off: the module is found, the names before one that
it does not show are bound, and the failure names that one. -/
def BreaksOff (en : Engine) (ctx : Context) (scope : Scope) (e : Expr) (w : World) (halt : Halt)
    (w' : World) : Prop :=
  ∃ target m w₁ before missing rest, e = .importFrom target (.only (before ++ missing :: rest)) ∧
    before ≠ [] ∧ (∀ name ∈ before, name ∈ m.exports) ∧ missing ∉ m.exports ∧
    en.resolve ctx scope target w = .ok m w₁ ∧ w.AgreesOutside none w₁ ∧
    Eval.importShown m scope before w₁ = .ok () w' ∧
    halt = .failed (.unbound (m.name ++ "." ++ missing))

/-- What is confined to new frames and slots leaves all old ones as they were. -/
theorem agrees_of_confined (h : Confined none w.store w'.store) : w.AgreesOutside none w' :=
  ⟨h.frame_eq, h.content_eq⟩

/-- A module form that fails has bound nothing: its name is bound last, and that cannot fail. -/
theorem defineModule_error {en : Engine} (hen : en.Isolates) {name : String}
    {exports : List String} {body : List Expr}
    (h : en.defineModule name exports body scope w = .error halt w') :
    w.AgreesOutside none w' := by
  have hnone : ∀ f, (none : Option FrameId) = some f → f < w.store.frames.size :=
    fun f hf => absurd hf (by simp)
  let w₁ : World := { w with store := w.store.newFrame.2 }
  let inner : Scope := w.store.frames.size :: scope
  have hconfined := ((hen.evalEach body : Eval.Within inner _).inside hnone
    (Store.confined_newFrame none w.store) (Store.fresh_newFrame w.store scope) (w := w₁)).1
  have hopen : Eval.extend scope w = .ok inner w₁ := rfl
  unfold defineModule at h
  rw [Eval.bind_of_ok hopen] at h
  cases hbody : en.evalEach inner body w₁ with
  | error e w₂ =>
    rw [Eval.bind_of_error hbody] at h
    cases h
    rw [Eval.after_of_error hbody] at hconfined
    exact agrees_of_confined hconfined
  | ok vs w₂ =>
    rw [Eval.bind_of_ok hbody] at h
    rw [Eval.after_of_ok hbody] at hconfined
    have hget : (MonadState.get : Eval World) w₂ = .ok w₂ w₂ := rfl
    rw [Eval.bind_of_ok hget] at h
    cases hmissing : w₂.store.firstMissing? (Scope.innermost inner) exports with
    | some missing =>
      simp only [hmissing] at h
      cases h
      exact agrees_of_confined hconfined
    | none =>
      simp only [hmissing] at h
      cases scope <;> split at h <;> cases h

/-- An evaluation of a module form or an import that fails, at any moment of any session, in any
scope and for whatever reason, leaves every frame and every slot that was there as it was; unless it
is a selective import that breaks off, which has then bound the names before the one that the module
does not show. -/
theorem failed_operation (h : Occurs ctx n (.eval e scope) w) (he : e.isModuleOperation = true)
    (hfail : (ofDepth ctx n).eval e scope w = .error halt w') :
    w.AgreesOutside none w' ∨ (ofDepth ctx (n - 1)).BreaksOff ctx scope e w halt w' := by
  cases n with
  | zero =>
    cases hfail
    exact .inl (agrees_of_confined (.refl none w.store))
  | succ n =>
    have hisolates := isolates_ofDepth ctx n
    cases e with
    | module name exports body =>
      refine .inl ?_
      have hmodule : ((ofDepth ctx n).defineModule name exports body scope >>= fun m =>
          (pure (.module m) : Eval Value)) w = .error halt w' := hfail
      cases hx : (ofDepth ctx n).defineModule name exports body scope w with
      | ok m w₁ =>
        rw [Eval.bind_of_ok hx] at hmodule
        cases hmodule
      | error e w₁ =>
        rw [Eval.bind_of_error hx] at hmodule
        cases hmodule
        exact defineModule_error hisolates hx
    | importFrom target spec =>
      have himport : ((ofDepth ctx n).resolve ctx scope target >>= fun m =>
          Eval.importModule m scope spec >>= fun _ => (pure (.module m) : Eval Value)) w =
          .error halt w' := hfail
      have hwithin : Eval.Within [] ((ofDepth ctx n).resolve ctx scope target) :=
        hisolates.resolve scope target
      have hconfined := hwithin w fun f hf => absurd hf (by simp)
      obtain ⟨K, hw, -, hs⟩ := kept_region.occurs starts_region (fun hlax => hlax) h
      have hen := kept_region.engines_ofDepth ctx n
      have hruns : region.Runs K (fun K' m => region.Node K' (.module m))
          ((ofDepth ctx n).resolve ctx scope target) ((ofDepth ctx n).resolve ctx scope target) :=
        hen.resolve target hs.knows
      have hends := (hruns w hw).ends
      cases hx : (ofDepth ctx n).resolve ctx scope target w with
      | error e w₁ =>
        rw [Eval.bind_of_error hx] at himport
        cases himport
        rw [Eval.after_of_error hx] at hconfined
        exact .inl (agrees_of_confined hconfined)
      | ok m w₁ =>
        rw [Eval.bind_of_ok hx] at himport
        rw [Eval.after_of_ok hx] at hconfined
        rw [hx] at hends
        obtain ⟨K₁, hK₁, hw₁, hm⟩ := hends
        have hs₁ := kept_region.active_mono hK₁ hs
        have hrun : Eval.importModule m scope spec w₁ = .error halt w' := by
          cases hy : Eval.importModule m scope spec w₁ with
          | ok u w₂ =>
            rw [Eval.bind_of_ok hy] at himport
            cases himport
          | error e w₂ =>
            rw [Eval.bind_of_error hy] at himport
            cases himport
            rfl
        cases spec with
        | all =>
          -- every name that the module shows is shown
          have hall : Eval.importShown m scope m.exports w₁ = .error halt w' := by
            rw [← Eval.importNames_eq m scope fun _ hn => hn]
            exact hrun
          obtain ⟨before, missing, rest, heq, -, hmissing, -⟩ :=
            Eval.importShown_error hw₁ hs₁ hm hall
          exact absurd (by rw [heq]; simp) hmissing
        | renamed name =>
          cases scope with
          | nil => cases hrun
          | cons f rest => cases hrun
        | only names =>
          obtain ⟨before, missing, rest, rfl, hbefore, hmissing, hbound, hhalt⟩ :=
            Eval.importShown_error hw₁ hs₁ hm hrun
          by_cases hempty : before = []
          · subst hempty
            cases hbound
            exact .inl (agrees_of_confined hconfined)
          · exact .inr ⟨target, m, w₁, before, missing, rest, rfl, hempty, hbefore, hmissing, hx,
              agrees_of_confined hconfined, hbound, hhalt⟩
    | _ => exact absurd he (by simp [Expr.isModuleOperation])

/-- The world that a computation leaves behind when it fails. -/
def failedWorld? : EStateM.Result Halt World Value → Option World
  | .ok _ _ => none
  | .error _ w => some w

theorem error_of_failedWorld? {x : Eval Value} (h : failedWorld? (x w) = some w') :
    ∃ halt, x w = .error halt w' := by
  cases hx : x w with
  | ok v w₁ =>
    rw [hx] at h
    exact absurd h (by simp [failedWorld?])
  | error halt w₁ =>
    rw [hx] at h
    obtain rfl := Option.some.inj h
    exact ⟨halt, rfl⟩

set_option maxRecDepth 100000 in
/-- A module form, evaluated first in a session, whose body binds the name to be shown and then
fails. -/
theorem failed_operation_body :
    let ctx : Context := ⟨.default, ⟨[], []⟩⟩
    let e : Expr := .module "m" ["a"] [.define "a" (.literal (.int 1)),
      .call (.var "car") [.literal (.int 1)] [.int 1]]
    ∃ w halt w', Occurs ctx 4 (.eval e rootScope) w ∧ e.isModuleOperation = true ∧
      (ofDepth ctx 4).eval e rootScope w = .error halt w' ∧ w.AgreesOutside none w' := by
  intro ctx e
  let form := Value.ofList [.symbol "module", .symbol "m",
    Value.ofList [.symbol "export", .symbol "a"],
    Value.ofList [.symbol "define", .symbol "a", .int 1], Value.ofList [.symbol "car", .int 1]]
  let w : World := { Session.primitiveWorld with nextTag := (form.tag 0).2 }
  have hread : readData "(module m (export a) (define a 1) (car 1))" = .ok [form] := rfl
  have hbuild : ∀ n, Expr.build (form.tag n).1 = .ok e := fun _ => rfl
  have hoccurs : Occurs ctx 4 (.eval e rootScope) w :=
    Occurs.first (.bare 4) hread (hbuild 0)
  obtain ⟨w', hw'⟩ : ∃ w', failedWorld? ((ofDepth ctx 4).eval e rootScope w) = some w' := by
    refine Option.isSome_iff_exists.1 ?_
    decide +kernel
  obtain ⟨halt, hfail⟩ := error_of_failedWorld? hw'
  refine ⟨w, halt, w', hoccurs, rfl, hfail, ?_⟩
  refine (failed_operation hoccurs rfl hfail).resolve_right ?_
  rintro ⟨target, m, w₁, before, missing, rest, heq, -⟩
  exact absurd heq (by simp [e])

/-! ## §3. An import that breaks off -/

/-- The integer that a name is bound to in the outermost frame, if it is bound to one. -/
def rootInt? (w : World) (name : String) : Option Int64 :=
  match (w.store.slotIn? rootFrame name).bind w.store.content with
  | some (.int i) => some i
  | _ => none

/-- Where nothing has changed, a name is bound to the same integer. -/
theorem rootInt?_of_agrees {i : Int64} {name : String} (h : w.AgreesOutside none w')
    (hi : rootInt? w name = some i) : rootInt? w' name = some i := by
  unfold rootInt? at hi ⊢
  cases hslot : w.store.slotIn? rootFrame name with
  | none =>
    rw [hslot] at hi
    exact absurd hi (by simp)
  | some slot =>
    have hsame : w'.store.slotIn? rootFrame name = some slot := by
      unfold Store.slotIn? at hslot ⊢
      rw [h.frames rootFrame (Store.lt_size_of_slotIn? hslot) (by simp)]
      exact hslot
    rw [hslot] at hi
    rw [hsame]
    cases hcontent : w.store.content slot with
    | none =>
      rw [Option.bind_some, hcontent] at hi
      exact absurd hi (by simp)
    | some v =>
      have hlt := Store.lt_size_of_content hcontent
      rw [Option.bind_some, h.slots slot hlt fun f hf => absurd hf (by simp)]
      exact hi

set_option maxRecDepth 100000 in
/-- A selective import of a name that the module shows and one that it does not show fails, and has
given the first name its new value in the outermost frame. -/
theorem failed_import_binds :
    let ctx : Context := ⟨.default, ⟨[], []⟩⟩
    let s : Session := ((Session.evalText ⟨ctx, 4, Session.primitiveWorld⟩
      "(define area 0)").2.evalText "(module shapes (export area) (define area 1))").2
    let e : Expr := .importFrom (.name "shapes") (.only ["area", "volume"])
    ∃ w halt w', w.store = s.world.store ∧ Occurs ctx 4 (.eval e rootScope) w ∧
      e.isModuleOperation = true ∧ (ofDepth ctx 4).eval e rootScope w = .error halt w' ∧
      rootInt? w "area" = some 0 ∧ rootInt? w' "area" = some 1 ∧ ¬ w.AgreesOutside none w' := by
  intro ctx s e
  let form := Value.ofList [.symbol "import", .symbol "shapes",
    Value.ofList [.symbol "area", .symbol "volume"]]
  let w : World := { s.world with nextTag := (form.tag s.world.nextTag).2 }
  have harises : s.Arises ctx := ((Session.Arises.bare 4).evalText _).evalText _
  have hread : readData "(import shapes (area volume))" = .ok [form] := rfl
  have hbuild : ∀ n, Expr.build (form.tag n).1 = .ok e := fun _ => rfl
  have hdepth : s.depth = 4 := by decide +kernel
  have hoccurs : Occurs ctx 4 (.eval e rootScope) w := by
    rw [← hdepth]
    exact Occurs.first harises hread (hbuild s.world.nextTag)
  obtain ⟨w', hw'⟩ : ∃ w', failedWorld? ((ofDepth ctx 4).eval e rootScope w) = some w' := by
    refine Option.isSome_iff_exists.1 ?_
    decide +kernel
  have hafter : (failedWorld? ((ofDepth ctx 4).eval e rootScope w)).bind (rootInt? · "area") =
      some 1 := by
    decide +kernel
  have hbefore : rootInt? w "area" = some 0 := by decide +kernel
  obtain ⟨halt, hfail⟩ := error_of_failedWorld? hw'
  rw [hw'] at hafter
  have hstore : ∀ (v : World) (n : Nat), { v with nextTag := n }.store = v.store := fun _ _ => rfl
  refine ⟨w, halt, w', hstore _ _, hoccurs, rfl, hfail, hbefore, hafter, fun hagrees => ?_⟩
  have hsame := rootInt?_of_agrees hagrees hbefore
  exact absurd (hsame.symm.trans hafter) (by decide)

end Engine

end TinyLisp
