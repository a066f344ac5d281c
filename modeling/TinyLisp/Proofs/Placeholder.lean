import TinyLisp.Proofs.Region.Kept

/-!
# The placeholder does not escape

A name of a recursive `let` has a slot before it has a value, and to read the slot then gives a
placeholder. `World.Reachable` says what can be reached in a world from the outermost frame and
from the modules that can be found: through the bindings of frames, the contents of slots, what
functions, expanders and modules refer to, and what is written in bodies.

All of it lies in every public region. So at top level nothing reachable is an empty slot, although
a failure may leave empty slots behind for good; and at no moment is the placeholder a result, or
anywhere in a value that is kept (`Engine.placeholder_never_escapes`).
-/

namespace TinyLisp

/-! ## §1. Reachability -/

/-- What can be reached in a world. -/
inductive Spot
  | frame (f : FrameId)
  | slot (slot : SlotId)
  | body (id : Nat)
  /-- A node of a value. -/
  | node (v : Value)

/-- What can be reached in a world from the outermost frame, the registered modules and the modules
of files. -/
inductive World.Reachable (w : World) : Spot → Prop
  | root : Reachable w (.frame rootFrame)
  | registered {name : String} {m : Module} (h : w.library.registry.get? name = some m) :
    Reachable w (.node (.module m))
  | kept {p : Place} {m : Module} (h : w.library.files.get? p = some m) :
    Reachable w (.node (.module m))
  | bound {f : FrameId} {name : String} {slot : SlotId} (hf : Reachable w (.frame f))
    (h : w.store.slotIn? f name = some slot) : Reachable w (.slot slot)
  | content {slot : SlotId} {v u : Value} (hs : Reachable w (.slot slot))
    (hv : w.store.content slot = some v) (hu : u ∈ v.nodes) : Reachable w (.node u)
  | scope {c : Closure} {f : FrameId} (hc : Reachable w (.node (.closure c))) (hf : f ∈ c.scope) :
    Reachable w (.frame f)
  | captured {c : Closure} {slot : SlotId} (hc : Reachable w (.node (.closure c)))
    (hs : slot ∈ c.captures.slots) : Reachable w (.slot slot)
  | body {c : Closure} (hc : Reachable w (.node (.closure c))) : Reachable w (.body c.id)
  | expanderScope {m : Expander} {f : FrameId} (hm : Reachable w (.node (.expander m)))
    (hf : f ∈ m.scope) : Reachable w (.frame f)
  | expanderBody {m : Expander} (hm : Reachable w (.node (.expander m))) : Reachable w (.body m.id)
  | moduleScope {m : Module} {f : FrameId} (hm : Reachable w (.node (.module m)))
    (hf : f ∈ m.scope) : Reachable w (.frame f)
  | written {id : Nat} {e : Expr} {v u : Value} (hid : Reachable w (.body id))
    (he : w.bodies[id]? = some e) (hv : v ∈ e.values) (hu : u ∈ v.nodes) : Reachable w (.node u)

/-- A region contains what can be reached. -/
def Region.Has (R : Region) (w : World) : Spot → Prop
  | .frame f => R.Frame w f
  | .slot slot => R.Slot w slot
  | .body id => R.Body w id
  | .node v => R.Node w v

/-- A public region contains all that can be reached. -/
theorem Region.Public.has {R : Region} {w : World} (h : R.Public w) {spot : Spot}
    (hspot : w.Reachable spot) : R.Has w spot := by
  induction hspot with
  | root => exact h.root
  | @registered name m hm => exact h.library (.inl ⟨name, hm⟩)
  | @kept p m hm => exact h.library (.inr ⟨p, hm⟩)
  | bound _ hs ihf => exact h.closed.slot ihf.1 hs
  | content _ hv hu ihs => exact h.closed.content ihs.1 hv _ hu
  | scope _ hf ihc => exact ihc.1 _ hf
  | captured _ hs ihc => exact ihc.2.1 _ hs
  | body _ ihc => exact ihc.2.2
  | expanderScope _ hf ihm => exact ihm.1 _ hf
  | expanderBody _ ihm => exact ihm.2
  | moduleScope _ hf ihm => exact ihm.1 _ hf
  | written _ he hv hu ihid => exact h.closed.body ihid.1 he _ hv _ hu

/-! ## §2. At top level -/

open Invariant

/-- In a world with a public region, no empty slot and no placeholder can be reached. -/
theorem Region.Public.reachable {R : Region} {w : World} (h : R.Public w) :
    (∀ slot, w.Reachable (.slot slot) → ∃ v, w.store.content slot = some v) ∧
      ¬ w.Reachable (.node .unspecified) :=
  ⟨fun _ hs => Option.isSome_iff_exists.1 (h.filled (h.has hs)), fun hu => h.has hu⟩

/-- What is good contains no placeholder. -/
theorem ne_unspecified_of_good {K : region.Stage} {v : Value} (h : region.Good K v) :
    v.Every (· ≠ .unspecified) :=
  h.mono fun _ hu => Region.Node.ne_unspecified hu

/-- A computation that ends well gives no placeholder and leaves none behind. -/
theorem clean_of_ends {K : region.Stage} {x : Eval Value} {w : World}
    (h : region.Ends K (fun K' v => region.Good K' v) (x w)) :
    (x.after w).Clean ∧ ∀ v w', x w = .ok v w' → v.Every (· ≠ .unspecified) := by
  refine ⟨(h.left kept_region.toKeptOutside).2, ?_⟩
  intro v w' hx
  rw [hx] at h
  obtain ⟨K', -, -, hv⟩ := h
  exact ne_unspecified_of_good hv

namespace Session

variable {ctx : Context} {s : Session}

/-- The forms of a text end well in every session. -/
theorem Arises.ends_region (h : s.Arises ctx) {forms : List Value}
    (hforms : ∀ form ∈ forms, Datum form) :
    ∃ K : region.Stage, region.Ends K (fun K' v => region.Good K' v)
      (s.engine.evalForms rootScope .nil forms s.world) := by
  obtain ⟨K, hw, hroot⟩ := kept_region.arises starts_region h
  have hen := kept_region.engines_ofDepth s.context s.depth
  have hnil : region.Good K .nil := kept_region.atom rfl trivial
  exact ⟨K, (hen.evalForms hnil hforms (kept_region.active_root hroot) s.world hw).ends⟩

/-- What a text evaluates to contains no placeholder. -/
theorem Arises.evalText_ne_unspecified (h : s.Arises ctx) {source : String} {v : Value}
    (hv : (s.evalText source).1 = .ok v) : v.Every (· ≠ .unspecified) := by
  unfold Session.evalText at hv
  split at hv
  · exact absurd hv (by simp)
  · next forms hread =>
    obtain ⟨K, hends⟩ := h.ends_region (readData_datum hread)
    unfold Session.evalData Session.run at hv
    split at hv
    · next v' w' hrun =>
      cases hv
      exact (clean_of_ends hends).2 v w' hrun
    · exact absurd hv (by simp)
    · exact absurd hv (by simp)

theorem Arises.take_ne_unspecified (h : s.Arises ctx) {step : SessionStep} {v : Value}
    (hv : (s.take step).1 = .ok v) : v.Every (· ≠ .unspecified) := by
  cases step with
  | text source => exact h.evalText_ne_unspecified hv
  | file path =>
    have hfile : (s.evalFile path).1 = .ok v := hv
    unfold Session.evalFile at hfile
    cases hsource : s.context.disk.readText path with
    | error e =>
      rw [hsource] at hfile
      exact absurd hfile (by simp)
    | ok source =>
      rw [hsource] at hfile
      exact h.evalText_ne_unspecified hfile

end Session

/-! ## §3. At every moment -/

/-- The placeholder for a value still to come never escapes. Whenever a session is at top level,
whatever was evaluated before and whether it failed or not, every slot that can be reached holds a
value, no node that can be reached is the placeholder, and no value in any slot contains it; and so
it is after every further step, which gives no value with a placeholder in it. At every moment of a
session, no value in any slot contains the placeholder; neither does one in the world that the task
then performed leaves behind, nor what the task gives. -/
theorem Engine.placeholder_never_escapes (ctx : Context) :
    (∀ s : Session, s.Arises ctx →
      (∀ slot, s.world.Reachable (.slot slot) → ∃ v, s.world.store.content slot = some v) ∧
      ¬ s.world.Reachable (.node .unspecified) ∧ s.world.Clean ∧
      ∀ step, (s.take step).2.Arises ctx ∧
        ∀ v, (s.take step).1 = .ok v → v.Every (· ≠ .unspecified)) ∧
    ∀ n t w, Occurs ctx n t w → w.Clean ∧ (((ofDepth ctx n).perform t).after w).Clean ∧
      ∀ v w', (ofDepth ctx n).perform t w = .ok v w' → v.Every (· ≠ .unspecified) := by
  refine ⟨?_, ?_⟩
  -- at top level everything is shared, so that nothing that is still to be filled can be reached
  · intro s h
    obtain ⟨K, ⟨hworld, hsound⟩, -⟩ := kept_region.arises starts_region h
    have hshared := hsound.shared
    have hclean := hsound.clean
    rw [hworld] at hshared hclean
    obtain ⟨hslots, hnode⟩ := hshared.reachable
    refine ⟨hslots, hnode, hclean, ?_⟩
    intro step
    exact ⟨h.take step, fun v hv => h.take_ne_unspecified hv⟩
  · intro n t w h
    obtain ⟨K, hw, hready⟩ := kept_region.occurs starts_region (fun hlax => hlax) h
    have hclean : w.Clean := hw.1 ▸ hw.2.clean
    exact ⟨hclean, clean_of_ends (kept_region.ends hw hready ctx n)⟩

set_option maxRecDepth 100000 in
/-- A recursive `let` whose second initial value fails leaves an empty slot behind, which the
function made before refers to. Nothing at top level leads to that function. -/
theorem Engine.placeholder_never_escapes_failure :
    let ctx : Context := ⟨.default, ⟨[], []⟩⟩
    let s : Session := (Session.evalText ⟨ctx, 4, Session.primitiveWorld⟩
      "(letrec ((f (lambda () x)) (x (car 1))) f)").2
    s.Arises ctx ∧
      (s.world.store.slots.toList.getLast?).map Option.isNone = some true ∧
      (∀ slot, s.world.Reachable (.slot slot) → ∃ v, s.world.store.content slot = some v) ∧
      ¬ s.world.Reachable (.node .unspecified) ∧ s.world.Clean := by
  intro ctx s
  have harises : s.Arises ctx := (Session.Arises.bare 4).evalText _
  have htop := (placeholder_never_escapes ctx).1 s harises
  exact ⟨harises, by decide +kernel, htop.1, htop.2.1, htop.2.2.1⟩

end TinyLisp
