import TinyLisp.Proofs.Course.Order
import TinyLisp.Proofs.Ownership.Kept
import TinyLisp.Proofs.Placeholder
import TinyLisp.Proofs.Importing

/-!
# Exports stay available

A module is made when its own frame gives a value to every name that it shows
(`Module.Available`). Names are never unbound and slots never emptied, so this is so of every module
in every state from then on, wherever the module is kept and whatever its closures do in its frame
(`Engine.exports_stay_available`). An import of a module that was found can therefore only fail at
a name that is asked for and not shown.
-/

namespace TinyLisp

/-! ## §1. Modules in a world -/

/-- A module's own frame gives a value to every name that the module shows. -/
def Module.Available (m : Module) (w : World) : Prop :=
  ∃ f, m.scope.head? = some f ∧ ∀ name ∈ m.exports, w.store.Assigns f name

/-- It does so now and in every later state. -/
def Module.StaysAvailable (ctx : Context) (m : Module) (w : World) : Prop :=
  m.Available w ∧ ∀ w', World.Before ctx w w' → m.Available w'

/-- A module is kept somewhere in a world: at any depth in a value that a slot holds or that is
written in a body, or among the modules that can be found. -/
inductive World.Contains (w : World) (m : Module) : Prop
  | slot {slot : SlotId} {v : Value} (hv : w.store.content slot = some v)
    (hm : .module m ∈ v.nodes)
  | body {id : Nat} {e : Expr} {v : Value} (he : w.bodies[id]? = some e) (hv : v ∈ e.values)
    (hm : .module m ∈ v.nodes)
  | library (h : w.library.Knows m)

/-- What can be reached is kept. -/
theorem World.Reachable.contains {w : World} {m : Module} (h : w.Reachable (.node (.module m))) :
    w.Contains m := by
  cases h with
  | @registered name m h => exact .library (.inl ⟨name, h⟩)
  | @kept p m h => exact .library (.inr ⟨p, h⟩)
  | content _ hv hu => exact .slot hv hu
  | written _ he hv hu => exact .body he hv hu

/-- A task mentions a module. -/
def Task.Mentions (m : Module) : Task → Prop
  | .eval e _ => ∃ v ∈ e.values, .module m ∈ v.nodes
  | .apply f args => ∃ v ∈ f :: args, .module m ∈ v.nodes

/-- The states of sessions: those at top level, and those in which tasks begin and end. -/
inductive World.Seen (ctx : Context) : World → Prop
  | arises {w : World} (h : w.Arises ctx) : Seen ctx w
  | ended {n : Nat} {t : Task} {w : World} (h : Occurs ctx n t w) :
    Seen ctx (((Engine.ofDepth ctx n).perform t).after w)

namespace Module.Available

variable {m : Module} {w w' : World} {name : String}

theorem later (h : m.Available w) (hw : w.Grows w') : m.Available w' := by
  obtain ⟨f, hf, hassigns⟩ := h
  exact ⟨f, hf, fun name hname => Region.assigns_later (hassigns name hname) hw⟩

theorem stays {ctx : Context} (h : m.Available w) : m.StaysAvailable ctx w :=
  ⟨h, fun _ hw => h.later hw.grows⟩

/-- What a module shows can be looked up in its scope. -/
theorem lookup (h : m.Available w) (hname : name ∈ m.exports) :
    ∃ v, w.store.lookup m.scope name = .ok v := by
  obtain ⟨f, hf, hassigns⟩ := h
  obtain ⟨slot, hslot, -⟩ := hassigns name hname
  exact ⟨_, Store.lookup_of_slot? (Store.slot?_of_slotIn? hf hslot)⟩

end Module.Available

/-! ## §2. Every module of every state -/

open Ownership (Stage)

theorem Ownership.Stage.Node.available {K : Stage} {m : Module} (h : K.Node (.module m)) :
    m.Available K.world := by
  obtain ⟨f, hf, -, hassigns⟩ := h
  exact ⟨f, hf, hassigns⟩

/-- Where owners are sound, every module that is kept is available. -/
theorem Ownership.Stage.Sound.available {K : Stage} {m : Module} (h : K.Sound)
    (hm : K.world.Contains m) : m.Available K.world := by
  cases hm with
  | slot hv hm => exact Stage.Node.available (h.content hv _ hm)
  | body he hv hm => exact Stage.Node.available (h.body he _ hv _ hm)
  | library hm => exact (h.library hm).available

namespace World.Seen

variable {ctx : Context} {w : World}

/-- In every state owners are sound. -/
theorem sound (h : World.Seen ctx w) : ∃ K : Stage, K.world = w ∧ K.Sound := by
  cases h with
  | arises h => exact h.sound
  | @ended n t w h =>
    obtain ⟨K, hw, hready⟩ :=
      Invariant.kept_ownership.occurs Invariant.starts_ownership (fun hlax => hlax) h
    -- owners are sound where a task begins, and so where it ends, be it in success or failure
    have hends := Invariant.kept_ownership.ends hw hready ctx n
    obtain ⟨K', -, hw₁⟩ := hends.left Invariant.kept_ownership.toKeptOutside
    exact ⟨K', hw₁⟩

theorem available (h : World.Seen ctx w) {m : Module} (hm : w.Contains m) : m.Available w := by
  obtain ⟨K, rfl, hsound⟩ := h.sound
  exact hsound.available hm

end World.Seen

namespace Engine

variable {ctx : Context} {n : Nat} {t : Task} {w w' : World} {m : Module}

/-- So is every module that a task is about. -/
theorem available_of_mentions (h : Occurs ctx n t w) (hm : t.Mentions m) : m.Available w := by
  obtain ⟨K, ⟨rfl, -⟩, hready⟩ :=
    Invariant.kept_ownership.occurs Invariant.starts_ownership (fun hlax => hlax) h
  cases t with
  | eval e scope =>
    obtain ⟨v, hv, hm⟩ := hm
    exact Stage.Node.available (hready.1 v hv _ hm)
  | apply f args =>
    obtain ⟨v, hv, hm⟩ := hm
    rcases List.mem_cons.1 hv with rfl | hv
    · exact Stage.Node.available (hready.1 _ hm)
    · exact Stage.Node.available (hready.2 v hv _ hm)

/-- And every module in what a task gives. -/
theorem available_of_ok (h : Occurs ctx n t w) {v : Value}
    (hrun : (ofDepth ctx n).perform t w = .ok v w') (hm : .module m ∈ v.nodes) :
    m.Available w' := by
  obtain ⟨K, hw, hready⟩ :=
    Invariant.kept_ownership.occurs Invariant.starts_ownership (fun hlax => hlax) h
  have hends := Invariant.kept_ownership.ends hw hready ctx n
  rw [hrun] at hends
  obtain ⟨K', -, ⟨rfl, -⟩, hgood⟩ := hends
  exact Stage.Node.available (hgood _ hm)

/-- And the module that an import resolves to. -/
theorem available_of_resolve {scope : Scope} {target : ImportTarget} {spec : ImportSpec}
    (h : Occurs ctx (n + 1) (.eval (.importFrom target spec) scope) w)
    (hm : (ofDepth ctx n).resolve ctx scope target w = .ok m w') : m.Available w' := by
  obtain ⟨K, hw, hready⟩ :=
    Invariant.kept_ownership.occurs Invariant.starts_ownership (fun hlax => hlax) h
  have hen := Invariant.kept_ownership.engines_ofDepth ctx n
  have hends : Invariant.ownership.Ends K (fun K' m => K'.Node (.module m))
      ((ofDepth ctx n).resolve ctx scope target w) :=
    (hen.resolve target hready.2.knows w hw).ends
  rw [hm] at hends
  obtain ⟨K', -, ⟨rfl, -⟩, hnode⟩ := hends
  exact Stage.Node.available hnode

end Engine

/-! ## §3. Imports -/

/-- The names that an import asks for one by one. -/
def ImportSpec.listed : ImportSpec → List String
  | .only names => names
  | _ => []

namespace Eval

variable {m : Module} {scope : Scope} {names : List String} {w : World}

/-- A name that an available module shows is brought into a scope, and the module stays
available. -/
theorem importShown_step (h : m.Available w) {name : String} (hname : name ∈ m.exports)
    (scope : Scope) : ∃ w', m.Available w' ∧
      ∀ names, importShown m scope (name :: names) w = importShown m scope names w' := by
  obtain ⟨v, hv⟩ := h.lookup hname
  have hcontains : m.exports.contains name = true := by simpa using hname
  -- the scope may be the module's own, but a binding never empties a slot
  have hgrows := (quiet_bindName scope name v w).still.grows
  obtain ⟨w', hbind⟩ : ∃ w', bindName scope name v w = .ok () w' := by
    cases scope with
    | nil => exact ⟨w, rfl⟩
    | cons f rest => exact ⟨_, rfl⟩
  rw [after_of_ok hbind] at hgrows
  refine ⟨w', h.later hgrows, fun names => ?_⟩
  rw [importShown, if_pos hcontains, bind_of_ok (lookup_of_ok hv), bind_of_ok hbind]

/-- To import names that an available module shows succeeds. -/
theorem importShown_ok (h : m.Available w) (hnames : ∀ name ∈ names, name ∈ m.exports)
    (scope : Scope) : ∃ w', importShown m scope names w = .ok () w' := by
  induction names generalizing w with
  | nil => exact ⟨w, rfl⟩
  | cons name names ih =>
    obtain ⟨w₁, h₁, hstep⟩ := importShown_step h (hnames name (by simp)) scope
    rw [hstep]
    exact ih h₁ fun n hn => hnames n (by simp [hn])

/-- To import names fails at the first that the module does not show. -/
theorem importShown_missing (h : m.Available w) {missing : String}
    (hmissing : names.find? (fun name => name ∉ m.exports) = some missing) (scope : Scope) :
    ∃ w', importShown m scope names w =
      .error (.failed (.unbound (m.name ++ "." ++ missing))) w' := by
  induction names generalizing w with
  | nil => exact absurd hmissing (by simp)
  | cons name names ih =>
    -- the names before the first that is missing are brought in all the same
    by_cases hname : name ∈ m.exports
    · obtain ⟨w₁, h₁, hstep⟩ := importShown_step h hname scope
      rw [hstep]
      exact ih h₁ (by simpa [hname] using hmissing)
    · obtain rfl : name = missing := by simpa [hname] using hmissing
      have hcontains : ¬ m.exports.contains name = true := by simpa using hname
      refine ⟨w, ?_⟩
      rw [importShown, if_neg hcontains]
      rfl

/-- An available module can be brought into every scope, if it shows what is listed. -/
theorem importModule_ok (h : m.Available w) (scope : Scope) {spec : ImportSpec}
    (hspec : ∀ name ∈ spec.listed, name ∈ m.exports) :
    ∃ w', importModule m scope spec w = .ok () w' := by
  cases spec with
  | all =>
    show ∃ w', importNames m scope m.exports w = .ok () w'
    rw [importNames_eq m scope fun _ hn => hn]
    exact importShown_ok h (fun _ hn => hn) scope
  | only names => exact importShown_ok h hspec scope
  | renamed name =>
    cases scope with
    | nil => exact ⟨w, rfl⟩
    | cons f rest => exact ⟨_, rfl⟩

end Eval

/-! ## §4. Exports -/

namespace Engine

/-- Exports stay available. In every state of every session, at top level or in the course of an
evaluation, each module that is kept anywhere, or can be reached, binds every name that it shows in
its own frame to a slot that holds a value, and so it does in every later state. The same is true of
each module that a task is about or gives. Hence an import, once its module is found, succeeds if
all names that it lists are shown, and in particular if it lists none; and otherwise it fails at the
first that is not shown. -/
theorem exports_stay_available (ctx : Context) :
    (∀ w, World.Seen ctx w → ∀ m, w.Contains m ∨ w.Reachable (.node (.module m)) →
      m.StaysAvailable ctx w) ∧
    (∀ n t w, Occurs ctx n t w → ∀ m : Module, (t.Mentions m → m.StaysAvailable ctx w) ∧
      ∀ v w', (ofDepth ctx n).perform t w = .ok v w' → .module m ∈ v.nodes →
        m.StaysAvailable ctx w') ∧
    ∀ n target spec scope w m w',
      Occurs ctx (n + 1) (.eval (.importFrom target spec) scope) w →
      (ofDepth ctx n).resolve ctx scope target w = .ok m w' →
      ((∀ name ∈ spec.listed, name ∈ m.exports) → ∃ w'',
        (ofDepth ctx (n + 1)).eval (.importFrom target spec) scope w = .ok (.module m) w'') ∧
      ∀ missing, spec.listed.find? (fun name => name ∉ m.exports) = some missing → ∃ w'',
        (ofDepth ctx (n + 1)).eval (.importFrom target spec) scope w =
          .error (.failed (.unbound (m.name ++ "." ++ missing))) w'' := by
  refine ⟨?_, ?_, ?_⟩
  · rintro w hw m (hm | hm)
    · exact (hw.available hm).stays
    · exact (hw.available hm.contains).stays
  · intro n t w h m
    refine ⟨fun hm => (available_of_mentions h hm).stays, ?_⟩
    intro v w' hrun hm
    exact (available_of_ok h hrun hm).stays
  · intro n target spec scope w m w' h hm
    have havailable := available_of_resolve h hm
    -- what follows once the module is found
    have hrest : (ofDepth ctx (n + 1)).eval (.importFrom target spec) scope w =
        (Eval.importModule m scope spec >>= fun _ => pure (.module m)) w' := Eval.bind_of_ok hm
    refine ⟨fun hlisted => ?_, fun missing hmissing => ?_⟩
    · obtain ⟨w'', himport⟩ := Eval.importModule_ok havailable scope hlisted
      rw [hrest, Eval.bind_of_ok himport]
      exact ⟨w'', rfl⟩
    · cases spec with
      | only names =>
        obtain ⟨w'', himport⟩ := Eval.importShown_missing havailable hmissing scope
        rw [hrest]
        exact ⟨w'', Eval.bind_of_error himport⟩
      | _ => exact absurd hmissing (by simp [ImportSpec.listed])

/-- A module was resolved, and it has a name and shows some names. -/
def resolves? (name : String) (exports : List String) : EStateM.Result Halt World Module → Bool
  | .ok m _ => m.name = name && m.exports = exports
  | .error _ _ => false

set_option maxRecDepth 100000 in
/-- A module that shows a module inside it. Its names can be imported one by one, up to one that
only the inner module shows. -/
theorem exports_stay_available_nested :
    let ctx : Context := ⟨.default, ⟨[], []⟩⟩
    let target : ImportTarget := .name "outer"
    let spec : ImportSpec := .only ["inner", "x"]
    ∃ w m m' w' w'', Occurs ctx 5 (.eval (.importFrom target spec) rootScope) w ∧
      w.library.registry.get? "outer" = some m ∧ m.StaysAvailable ctx w ∧
      (ofDepth ctx 4).resolve ctx rootScope target w = .ok m' w' ∧
      spec.listed.find? (fun name => name ∉ m'.exports) = some "x" ∧
      (ofDepth ctx 5).eval (.importFrom target spec) rootScope w =
        .error (.failed (.unbound "outer.x")) w'' := by
  intro ctx target spec
  let s : Session := (Session.evalText ⟨ctx, 5, Session.primitiveWorld⟩
    "(module outer (export inner) (module inner (export x) (define x 1)))").2
  let form := Value.ofList [.symbol "import", .symbol "outer",
    Value.ofList [.symbol "inner", .symbol "x"]]
  let w : World := { s.world with nextTag := (form.tag s.world.nextTag).2 }
  have harises : s.Arises ctx := (Session.Arises.bare 5).evalText _
  have hread : readData "(import outer (inner x))" = .ok [form] := rfl
  have hbuild : ∀ n, Expr.build (form.tag n).1 = .ok (.importFrom target spec) := fun _ => rfl
  have hdepth : s.depth = 5 := by decide +kernel
  have hoccurs : Occurs ctx 5 (.eval (.importFrom target spec) rootScope) w := by
    rw [← hdepth]
    exact Occurs.first harises hread (hbuild s.world.nextTag)
  have hknown : (w.library.registry.get? "outer").isSome = true := by decide +kernel
  obtain ⟨m, hm⟩ := Option.isSome_iff_exists.1 hknown
  have hresolves : resolves? "outer" ["inner"]
      ((ofDepth ctx 4).resolve ctx rootScope target w) = true := by decide +kernel
  obtain ⟨hkept, -, himports⟩ := exports_stay_available ctx
  cases hrun : (ofDepth ctx 4).resolve ctx rootScope target w with
  | error e w' =>
    rw [hrun] at hresolves
    exact absurd hresolves (by simp [resolves?])
  | ok m' w' =>
    rw [hrun] at hresolves
    obtain ⟨hname, hexports⟩ : m'.name = "outer" ∧ m'.exports = ["inner"] := by
      simpa [resolves?] using hresolves
    have hmissing : spec.listed.find? (fun name => name ∉ m'.exports) = some "x" := by
      rw [hexports]
      rfl
    obtain ⟨w'', hfails⟩ := (himports 4 target spec rootScope w m' w' hoccurs hrun).2 "x" hmissing
    rw [hname] at hfails
    have hstays := hkept w (.arises (.moment hoccurs)) m (.inl (.library (.inl ⟨"outer", hm⟩)))
    exact ⟨w, m, m', w', w'', hoccurs, hm, hstays, hrun, hmissing, hfails⟩

end Engine

end TinyLisp
