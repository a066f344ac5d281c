import TinyLisp.Proofs.Region.Growth
import TinyLisp.Proofs.Invariant.Moment

/-!
# Worlds only grow

Whatever an evaluation does to a world, the world that it leaves has grown from the one before
(`World.Grows`): no frame, slot or body is given up, a name keeps its slot, and a slot that holds a
value goes on to hold one. This is so of every task, from every world and at any depth, whether it
succeeds or fails, and of every moment on the way.
-/

namespace TinyLisp

/-! ## §1. Growth as an invariant -/

/-- Worlds, ordered by growth. -/
@[reducible] def World.byGrowth : Preorder World where
  le := World.Grows
  le_refl := World.Grows.refl
  le_trans _ _ _ := World.Grows.trans

/-- The invariant of growth: what is known is the world, and that it has grown from a given one. -/
def Invariant.growth (base : World) : Invariant where
  Stage := World
  order := World.byGrowth
  Holds v w := v = w ∧ base.Grows w
  Left v w := v.Grows w ∧ base.Grows w
  Node _ _ := True
  Frame _ _ := True
  Works _ _ := True
  Complete _ _ := True
  Top _ := True
  Filling v v' _ _ := v.Grows v'
  hollow := True
  lax := False

namespace Invariant

variable {base v w w' : World}

/-- The stage after a change, in a world that has grown. -/
theorem later_grown (hw : (growth base).Holds v w) (hg : w.Grows w')
    {P : (growth base).Stage → Prop} (hP : P w') : (growth base).Later v w' P := by
  obtain ⟨rfl, hbase⟩ := hw
  exact ⟨w', hg, ⟨rfl, hbase.trans hg⟩, hP⟩

/-- A world that differs in tags, fresh names, modules known and text only has grown. -/
theorem grows_aside (w : World) (tag : Nat) (gensym : Gensym) (library : Library)
    (output : String) : w.Grows { w with
      nextTag := tag, gensym := gensym, library := library, output := output } :=
  World.grows_of_store (.refl _) rfl

theorem later_aside_grown (hw : (growth base).Holds v w) (tag : Nat) (gensym : Gensym)
    (library : Library) (output : String) {P : (growth base).Stage → Prop} (hP : ∀ v', P v') :
    (growth base).Later v { w with
      nextTag := tag, gensym := gensym, library := library, output := output } P :=
  later_grown hw (grows_aside w tag gensym library output) (hP _)

/-- A world with more in its store. -/
theorem later_stored (hw : (growth base).Holds v w) {store : Store} (hg : w.store.Grows store)
    {P : (growth base).Stage → Prop} (hP : ∀ v', P v') :
    (growth base).Later v { w with store := store } P := by
  have hstored : w.Grows { w with store := store } := World.grows_of_store hg rfl
  exact later_grown hw hstored (hP _)

theorem kept_growth (base : World) : (growth base).Kept where
  node_mono _ _ := trivial
  frame_mono _ _ := trivial
  works_mono _ _ := trivial
  complete_mono _ _ := trivial
  top_mono _ _ := trivial
  left_of_later hK h := ⟨World.Grows.trans hK h.1, h.2⟩
  left_of_holds := by
    rintro v w ⟨rfl, hbase⟩
    exact ⟨.refl _, hbase⟩
  frame_of_works _ := trivial
  top_of_root _ _ := trivial
  plain _ := trivial
  pair hw _ _ := later_aside_grown hw _ _ _ _ fun _ => trivial
  record _ _ hw _ _ := later_aside_grown hw _ _ _ _ fun _ => trivial
  updated _ _ hw _ _ := later_aside_grown hw _ _ _ _ fun _ => trivial
  form hw _ := later_aside_grown hw _ _ _ _ fun _ _ _ => trivial
  gensym _ hw := later_aside_grown hw _ _ _ _ fun _ => trivial
  output _ hw := later_aside_grown hw _ _ _ _ fun _ => trivial
  closure _ _ _ _ _ hw _ _ := later_grown hw (World.grows_push _ _) trivial
  expander _ _ _ _ hw _ _ := later_grown hw (World.grows_push _ _) trivial
  closure_body _ _ := fun _ _ _ _ => trivial
  expander_body _ _ := fun _ _ _ _ => trivial
  expander_scope _ _ _ := trivial
  call := by
    intro v c _
    have hactive : ∀ v' scope, (growth base).Active v' scope :=
      fun _ _ => ⟨fun _ _ => trivial, fun _ _ => trivial, fun _ => trivial⟩
    have hframe : ∀ s : Store, s.Grows s.newFrame.2 := fun s => (Store.Grows.refl s).newFrame
    unfold Eval.callScope
    cases c.captures with
    | scope =>
      exact .change fun w hw =>
        ⟨_, _, rfl, later_stored hw (hframe w.store) fun v' => hactive v' _⟩
    | table slots =>
      refine .change fun w hw => ⟨_, _, rfl, ?_⟩
      -- the captured slots get a frame of their own, and the parameters one inside it
      have hbind := (hframe w.store).bindSlots (Nat.le_refl _) slots
      exact later_stored hw hbind.newFrame fun v' => hactive v' _
  extend hw := later_stored hw (Store.Grows.refl _).newFrame fun _ => ⟨trivial, trivial⟩
  bind name _ hw _ _ := later_stored hw (Store.grows_bind _ _ name _) fun _ => trivial
  lookup _ _ _ _ := fun _ _ => trivial
  filling := by
    intro v w scope names hw _
    have hg := ((Store.Grows.refl w.store).newFrame.newSlots names).bindSlots (Nat.le_refl _)
      (names.zip (w.store.newFrame.2.newSlots names).1)
    obtain ⟨v', hv', hw', -⟩ := later_stored (P := fun _ => True) hw hg fun _ => trivial
    exact ⟨v', hv', hw'⟩
  filling_later h hK := World.Grows.trans h hK
  filling_node _ _ := trivial
  filling_frame _ _ := trivial
  filling_works _ := trivial
  fill := by
    intro v v' w f slot slots u h hw _
    obtain ⟨v'', hv'', hw', -⟩ :=
      later_stored (P := fun _ => True) hw (Store.grows_fill _ slot u) fun _ => trivial
    exact ⟨v'', World.Grows.trans h hv'', hw', id⟩
  filled h hw := ⟨_, h, hw, trivial, id⟩
  unfilled h hleft := ⟨World.Grows.trans h hleft.1, hleft.2⟩
  module _ _ hw _ _ _ := later_aside_grown hw _ _ _ _ fun _ => trivial
  shown _ _ _ _ := fun _ _ => trivial
  register hw _ _ := later_aside_grown hw _ _ _ _ fun _ => trivial
  registered _ _ := trivial
  kept _ _ := trivial
  file := by
    rintro v w p ⟨rfl, hbase⟩ _ _
    have henter := grows_aside v v.nextTag v.gensym (v.library.enter p) v.output
    refine ⟨{ v with library := v.library.enter p }, ⟨rfl, hbase.trans henter⟩, trivial, ?_, ?_⟩
    · intro v₂ w₂ m hv₂ hw₂ _ _
      obtain ⟨v₃, hv₃, hw₃, -⟩ := later_aside_grown (P := fun _ => True) hw₂ w₂.nextTag w₂.gensym
        ((w₂.library.leave p).keep p m) w₂.output fun _ => trivial
      exact ⟨v₃, henter.trans (World.Grows.trans hv₂ hv₃), hw₃, trivial, id⟩
    · rintro w₂ ⟨hv₂, hbase₂⟩
      have hleave := grows_aside w₂ w₂.nextTag w₂.gensym (w₂.library.leave p) w₂.output
      exact ⟨henter.trans (hv₂.trans hleave), hbase₂.trans hleave⟩

/-- Every task may be performed, as far as growth is concerned. -/
theorem ready_growth (t : Task) : (growth base).Ready v t := by
  cases t with
  | eval e scope => exact ⟨fun _ _ _ _ => trivial, fun _ _ => trivial, fun _ _ => trivial, fun _ => trivial⟩
  | apply f args => exact ⟨fun _ _ => trivial, fun _ _ _ _ => trivial⟩

/-- A computation that keeps the invariant of growth lets the world grow. -/
theorem grows_of_ends {α : Type} {P : (growth base).Stage → α → Prop} {x : Eval α}
    (h : (growth base).Ends w P (x w)) : w.Grows (x.after w) :=
  (h.left (kept_growth base).toKeptOutside).1

theorem growth_self (w : World) : (growth w).Holds w w :=
  ⟨rfl, .refl _⟩

end Invariant

/-! ## §2. Tasks, moments and sessions -/

open Invariant

namespace Engine

/-- Every task lets the world grow, whether it succeeds or fails. -/
theorem perform_grows (ctx : Context) (n : Nat) (t : Task) (w : World) :
    w.Grows (((ofDepth ctx n).perform t).after w) :=
  grows_of_ends ((kept_growth w).ends (growth_self w) (ready_growth t) ctx n)

/-- So does everything on the way to a task. -/
theorem consults_grows {ctx : Context} {n : Nat} {t t' : Task} {w w' : World}
    (h : (ofDepth ctx n).Consults (fun en => en.step ctx t) w t' w') : w.Grows w' := by
  obtain ⟨v, hw', -⟩ := (kept_growth w).consulted (fun hlax => hlax)
    (fun en' hen' => hen'.step (kept_growth w) (ready_growth t)) (growth_self w) h
  exact hw'.2

end Engine

namespace Session

variable {ctx : Context} {s : Session}

/-- Evaluating forms just read lets the world of a session grow, up to each task on the way. -/
theorem evalData_grows (s : Session) {forms : List Value} (h : ∀ form ∈ forms, Datum form) :
    s.world.Grows (s.evalData forms).2.world := by
  show s.world.Grows (s.run _).2.world
  rw [run_world]
  have hen := (kept_growth s.world).engines_ofDepth s.context s.depth
  have hnil : (growth s.world).Good s.world .nil := fun _ _ => trivial
  have hroot : (growth s.world).Active s.world rootScope :=
    ⟨fun _ _ => trivial, fun _ _ => trivial, fun _ => trivial⟩
  exact grows_of_ends (hen.evalForms hnil h hroot s.world (growth_self s.world)).ends

theorem consults_grows {source : String} {forms : List Value} {t : Task} {w : World}
    (hread : readData source = .ok forms)
    (h : (Engine.ofDepth ctx s.depth).Consults (fun en => en.evalForms rootScope .nil forms)
      s.world t w) : s.world.Grows w := by
  have hnil : (growth s.world).Good s.world .nil := fun _ _ => trivial
  have hroot : (growth s.world).Active s.world rootScope :=
    ⟨fun _ _ => trivial, fun _ _ => trivial, fun _ => trivial⟩
  obtain ⟨v, hw, -⟩ := (kept_growth s.world).consulted (fun hlax => hlax)
    (fun en' hen' => hen'.evalForms hnil (readData_datum hread) hroot) (growth_self s.world) h
  exact hw.2

/-- Every step of a session lets its world grow. -/
theorem take_grows (s : Session) (step : SessionStep) : s.world.Grows (s.take step).2.world := by
  -- what is read as forms is evaluated; a text that cannot be read changes nothing
  have htext : ∀ source, s.world.Grows (s.evalText source).2.world := by
    intro source
    unfold Session.evalText
    cases hread : readData source with
    | error e => exact .refl _
    | ok forms => exact s.evalData_grows (readData_datum hread)
  cases step with
  | text source => exact htext source
  | file path =>
    show s.world.Grows (s.evalFile path).2.world
    unfold Session.evalFile
    cases s.context.disk.readText path with
    | error e => exact .refl _
    | ok source => exact htext source

end Session

end TinyLisp
