import TinyLisp.Proofs.Ownership.Kept
import TinyLisp.Proofs.Growing
import TinyLisp.Proofs.Contents
import TinyLisp.Proofs.Simulation.Function

/-!
# What values refer to is there

A function, an expander or a module keeps a scope, a function or an expander the number of a body,
and a function perhaps a table of captured slots. In every world of a session all of this is there:
the scope has frames, all of them made before, the body has been kept, and the slots in the table are
those that the innermost frame of the scope binds (`World.Supports`). This is so of all values in the
store, in bodies and among the modules that can be found (`World.Grounded`), at top level and wherever
a task is performed (`World.Arises.grounded`).
-/

namespace TinyLisp

open Invariant

/-! ## §1. Grounded worlds -/

/-- All modules that a library knows. -/
def Library.modules (l : Library) : List Module :=
  l.registry.map Prod.snd ++ l.files.map Prod.snd

namespace Library

variable {l : Library} {m m' : Module}

theorem mem_modules_of_registry {name : String} (h : l.registry.get? name = some m) :
    m ∈ l.modules :=
  List.mem_append_left _ (List.mem_map_of_mem (Table.mem_of_get? h))

theorem mem_modules_of_files {p : Place} (h : l.files.get? p = some m) : m ∈ l.modules :=
  List.mem_append_right _ (List.mem_map_of_mem (Table.mem_of_get? h))

theorem mem_modules_register (h : m' ∈ (l.register m).modules) : m' ∈ l.modules ∨ m' = m := by
  rcases List.mem_append.1 h with h | h
  · obtain ⟨e, he, rfl⟩ := List.mem_map.1 h
    rcases Table.mem_set he with hold | rfl
    · exact .inl (List.mem_append_left _ (List.mem_map_of_mem hold))
    · exact .inr rfl
  · exact .inl (List.mem_append_right _ h)

theorem mem_modules_keep {p : Place} (h : m' ∈ ((l.leave p).keep p m).modules) :
    m' ∈ l.modules ∨ m' = m := by
  rcases List.mem_append.1 h with h | h
  · exact .inl (List.mem_append_left _ h)
  · obtain ⟨e, he, rfl⟩ := List.mem_map.1 h
    rcases Table.mem_set he with hold | rfl
    · exact .inl (List.mem_append_right _ (List.mem_map_of_mem hold))
    · exact .inr rfl

end Library

/-- All that a store binds is relied on. -/
def Side.of (s : Store) : Side where
  pinned f name slot := s.slotIn? f name = some slot
  veil _ _ := False

namespace World

variable {w w' : World} {scope : Scope} {v : Value}

/-- A scope is there: it has frames, and they have been made. -/
structure Inside (w : World) (scope : Scope) : Prop where
  ne : scope ≠ []
  lt : ∀ f ∈ scope, f < w.store.frames.size

/-- What a value's outermost node refers to is there. -/
def Supports (w : World) : Value → Prop
  | .closure c => w.Inside c.scope ∧ c.id < w.bodies.size ∧
      (Side.of w.store).Covers c.scope c.captures
  | .expander m => w.Inside m.scope ∧ m.id < w.bodies.size
  | .module m => w.Inside m.scope
  | _ => True

/-- What any value in the world refers to is there. -/
structure Grounded (w : World) : Prop where
  root : rootFrame < w.store.frames.size
  content : ∀ {slot v}, w.store.content slot = some v → v.Every w.Supports
  body : ∀ {id : Nat} {e : Expr}, w.bodies[id]? = some e → e.Every w.Supports
  library : ∀ {m}, m ∈ w.library.modules → w.Supports (.module m)

theorem Inside.later (h : w.Inside scope) (hg : w.Grows w') : w'.Inside scope :=
  ⟨h.ne, fun f hf => Nat.lt_of_lt_of_le (h.lt f hf) hg.store.frames_le⟩

theorem Inside.cons (h : w.Inside scope) {f : FrameId} (hf : f < w.store.frames.size) :
    w.Inside (f :: scope) :=
  ⟨by simp, fun _ hg => (List.mem_cons.1 hg).elim (fun e => e ▸ hf) (h.lt _)⟩

theorem Supports.later (h : w.Supports v) (hg : w.Grows w') : w'.Supports v := by
  cases v with
  | closure c =>
    obtain ⟨hscope, hid, hcovers⟩ := h
    have hle : (Side.of w.store).Le (Side.of w'.store) :=
      ⟨fun _ _ _ hs => hg.store.kept hs, fun _ _ hv => hv⟩
    exact ⟨hscope.later hg, Nat.lt_of_lt_of_le hid hg.bodies_le, hcovers.mono hle⟩
  | expander m => exact ⟨h.1.later hg, Nat.lt_of_lt_of_le h.2 hg.bodies_le⟩
  | module m => exact Inside.later h hg
  | _ => trivial

theorem supports_of_plain (h : v.Plain) : w.Supports v := by
  cases v with
  | closure c => exact h.elim
  | expander m => exact h.elim
  | module m => exact h.elim
  | _ => trivial

namespace Grounded

theorem every (h : w.Grounded) : w.Every w.Supports :=
  ⟨h.content, h.body⟩

/-- A world that has grown is grounded if what is new in it refers to what is there. -/
theorem after (h : w.Grounded) (hg : w.Grows w')
    (hevery : w.Every w'.Supports → w'.Every w'.Supports)
    (hlibrary : ∀ {m}, m ∈ w'.library.modules →
      m ∈ w.library.modules ∨ w'.Supports (.module m)) :
    w'.Grounded := by
  have hnew : w'.Every w'.Supports := hevery (h.every.mono fun _ hu => hu.later hg)
  exact ⟨Nat.lt_of_lt_of_le h.root hg.store.frames_le, hnew.content, hnew.body,
    fun hm => (hlibrary hm).elim (fun hold => (h.library hold).later hg) id⟩

/-- Only the store has changed. -/
theorem withStore (h : w.Grounded) {store : Store} (hg : w.store.Grows store)
    (hevery : w.Every { w with store := store }.Supports →
      { w with store := store }.Every { w with store := store }.Supports) :
    { w with store := store }.Grounded :=
  h.after (grows_of_store hg rfl) hevery .inl

theorem newFrame (h : w.Grounded) : { w with store := w.store.newFrame.2 }.Grounded :=
  h.withStore (Store.Grows.refl w.store).newFrame fun he => he.withStore .inl

theorem bind (h : w.Grounded) (f : FrameId) (name : String) (hv : v.Every w.Supports) :
    { w with store := w.store.bind f name v }.Grounded := by
  have hg := Store.grows_bind w.store f name v
  exact h.withStore hg fun he =>
    he.bind f name (hv.mono fun _ hu => hu.later (grows_of_store hg rfl))

theorem fill (h : w.Grounded) (slot : SlotId) (hv : v.Every w.Supports) :
    { w with store := w.store.fill slot v }.Grounded := by
  have hg := Store.grows_fill w.store slot v
  exact h.withStore hg fun he =>
    he.fill slot (hv.mono fun _ hu => hu.later (grows_of_store hg rfl))

/-- A body is kept. -/
theorem push (h : w.Grounded) {e : Expr} (he : e.Every w.Supports) :
    { w with bodies := w.bodies.push e }.Grounded := by
  have hg := grows_push w e
  exact h.after hg (fun hevery => hevery.push (he.mono fun _ hu => hu.later hg)) .inl

/-- What is known of modules has changed. -/
theorem withLibrary (h : w.Grounded) {library : Library}
    (hl : ∀ {m}, m ∈ library.modules → m ∈ w.library.modules ∨ w.Supports (.module m)) :
    { w with library := library }.Grounded := by
  have hg : w.Grows { w with library := library } := grows_of_store (.refl _) rfl
  exact h.after hg (fun he => ⟨he.content, he.body⟩)
    fun hm => (hl hm).imp_right fun hs => hs.later hg

/-- The body with a number refers to nothing that is not there. -/
theorem getD (h : w.Grounded) (id : Nat) :
    (w.bodies.getD id (.literal .nil)).Every w.Supports :=
  h.every.getD trivial id

/-- So is what a slot reads as. -/
theorem read (h : w.Grounded) (slot : SlotId) : (w.store.read slot).Every w.Supports :=
  h.every.read trivial slot

/-- And what a name stands for. -/
theorem lookupUpTo (h : w.Grounded) (n : Nat) {name : String}
    (hv : w.store.lookupUpTo n scope name = .ok v) : v.Every w.Supports :=
  h.every.lookupUpTo trivial n hv

end Grounded

end World

/-! ## §2. The invariant -/

/-- The invariant of groundedness: what is known is the world. -/
def Invariant.grounding : Invariant where
  Stage := World
  order := World.byGrowth
  Holds v w := v = w ∧ w.Grounded
  Left v w := v.Grows w ∧ w.Grounded
  Node v u := v.Supports u
  Frame v f := f < v.store.frames.size
  Works v f := f < v.store.frames.size
  Complete _ _ := True
  Top _ := True
  Filling v v' f _ := v.Grows v' ∧ f < v'.store.frames.size
  hollow := False
  lax := False

namespace Invariant

variable {v w w' : World} {P : World → Prop}

/-- The stage after a change. -/
theorem later_ground (hw : grounding.Holds v w) (hg : w.Grows w') (h : w'.Grounded) (hP : P w') :
    grounding.Later v w' P := by
  obtain ⟨rfl, -⟩ := hw
  exact ⟨w', hg, ⟨rfl, h⟩, hP⟩

/-- The stage after a change of tags, fresh names and text only. -/
theorem later_ground_aside (hw : grounding.Holds v w) (tag : Nat) (gensym : Gensym)
    (output : String) (hP : P { w with nextTag := tag, gensym := gensym, output := output }) :
    grounding.Later v { w with nextTag := tag, gensym := gensym, output := output } P := by
  have hg : w.Grows { w with nextTag := tag, gensym := gensym, output := output } :=
    World.grows_of_store (.refl _) rfl
  exact later_ground hw hg (hw.2.after hg (fun he => ⟨he.content, he.body⟩) .inl) hP

/-- The stage after a change of the store. -/
theorem later_ground_store (hw : grounding.Holds v w) {store : Store} (hg : w.store.Grows store)
    (h : { w with store := store }.Grounded) (hP : P { w with store := store }) :
    grounding.Later v { w with store := store } P :=
  later_ground hw (World.grows_of_store hg rfl) h hP

theorem inside_of_active {scope : Scope} (hs : grounding.Active v scope) : v.Inside scope :=
  ⟨fun h => hs.inside h, hs.knows⟩

theorem active_of_inside {f : FrameId} {scope : Scope} (hs : v.Inside (f :: scope)) :
    grounding.Active v (f :: scope) :=
  ⟨hs.lt, fun g hg => hs.lt g (by simp_all), fun h => absurd h (by simp)⟩

theorem call_ground {c : Closure} (hc : v.Supports (.closure c)) :
    grounding.Runs v (fun v' inner => grounding.Active v' inner) (Eval.callScope c)
      (Eval.callScope c) := by
  have hnew : ∀ s : Store, s.Grows s.newFrame.2 := fun s => (Store.Grows.refl s).newFrame
  have hopen : ∀ {w : World} {scope : Scope}, w.Inside scope →
      grounding.Active { w with store := w.store.newFrame.2 } (w.store.frames.size :: scope) := by
    intro w scope hs
    have hg : w.Grows { w with store := w.store.newFrame.2 } :=
      World.grows_of_store (hnew _) rfl
    exact active_of_inside ((hs.later hg).cons (by simp))
  unfold Eval.callScope
  cases c.captures with
  | scope =>
    refine .change fun w hw => ⟨_, _, rfl, ?_⟩
    obtain ⟨rfl, h⟩ := id hw
    exact later_ground_store hw (hnew _) h.newFrame (hopen hc.1)
  | table slots =>
    refine .change fun w hw => ⟨_, _, rfl, ?_⟩
    obtain ⟨rfl, h⟩ := id hw
    -- the frame of the captured slots, and then the frame of the parameters inside it
    have hbind := (hnew v.store).bindSlots (Nat.le_refl _) slots
    have hcaptured := h.withStore hbind fun he => he.newSlots _ [] slots
    have hg : v.Grows { v with
        store := v.store.newFrame.2.bindSlots v.store.frames.size slots } :=
      World.grows_of_store hbind rfl
    refine later_ground_store hw hbind.newFrame hcaptured.newFrame (hopen ?_)
    exact (hc.1.later hg).cons (by simp)

theorem kept_grounding : grounding.Kept where
  node_mono hK h := World.Supports.later h hK
  frame_mono hK h := Nat.lt_of_lt_of_le h hK.store.frames_le
  works_mono hK h := Nat.lt_of_lt_of_le h hK.store.frames_le
  complete_mono _ h := h
  top_mono _ h := h
  left_of_later hK h := ⟨World.Grows.trans hK h.1, h.2⟩
  left_of_holds := by
    rintro v w ⟨rfl, h⟩
    exact ⟨.refl _, h⟩
  frame_of_works h := h
  top_of_root _ _ := trivial
  plain h := World.supports_of_plain h
  pair hw _ _ := later_ground_aside hw _ _ _ trivial
  record _ _ hw _ _ := later_ground_aside hw _ _ _ trivial
  updated _ _ hw _ _ := later_ground_aside hw _ _ _ trivial
  form := by
    intro v w form hw hform
    refine later_ground_aside hw _ _ _ ?_
    exact hform.tag_every (fun _ hu => World.supports_of_plain hu) (fun _ _ _ => trivial) _
  gensym _ hw := later_ground_aside hw _ _ _ trivial
  output _ hw := later_ground_aside hw _ _ _ trivial
  closure := by
    intro v w strategy name params body scope hw hs hb
    obtain ⟨rfl, h⟩ := id hw
    have hg := World.grows_push v body
    refine later_ground hw hg (h.push hb) ⟨(inside_of_active hs).later hg, ?_, ?_⟩
    · rw [Array.size_push]
      exact Nat.lt_succ_self _
    · exact Side.covers_captures (Side.of v.store) v.store strategy scope _
  expander := by
    intro v w name params body scope hw hs hb
    obtain ⟨rfl, h⟩ := id hw
    have hg := World.grows_push v body
    refine later_ground hw hg (h.push hb) ⟨(inside_of_active hs).later hg, ?_⟩
    rw [Array.size_push]
    exact Nat.lt_succ_self _
  closure_body := by
    rintro v w c ⟨rfl, h⟩ _
    exact h.getD c.id
  expander_body := by
    rintro v w m ⟨rfl, h⟩ _
    exact h.getD m.id
  expander_scope h := h.1.lt
  call hc := call_ground hc
  extend := by
    intro v w hw
    have hlt : w.store.frames.size < w.store.newFrame.2.frames.size := by simp
    exact later_ground_store hw (Store.Grows.refl w.store).newFrame hw.2.newFrame ⟨hlt, trivial⟩
  bind := by
    intro v w f name u hw _ hu
    obtain ⟨rfl, h⟩ := id hw
    exact later_ground_store hw (Store.grows_bind _ f name u) (h.bind f name hu) trivial
  lookup := by
    rintro v w scope name u ⟨rfl, h⟩ _ hu _
    exact h.lookupUpTo name.length hu
  filling := by
    rintro v w scope names ⟨rfl, h⟩ _
    have hnew := ((Store.Grows.refl v.store).newFrame.newSlots names).bindSlots (Nat.le_refl _)
      (names.zip (v.store.newFrame.2.newSlots names).1)
    generalize hslots : (v.store.newFrame.2.newSlots names).1 = slots at hnew ⊢
    have hg : v.Grows { v with store := _ } := World.grows_of_store hnew rfl
    refine ⟨_, ⟨hg, ?_⟩, rfl, h.withStore hnew fun he => he.newSlots _ names _⟩
    rw [Store.frames_size_bindSlots, Store.frames_newSlots, Store.frames_size_newFrame]
    exact Nat.lt_succ_self _
  filling_later h hK := ⟨World.Grows.trans h.1 hK, Nat.lt_of_lt_of_le h.2 hK.store.frames_le⟩
  filling_node h hv := World.Supports.later hv h.1
  filling_frame h hf := Nat.lt_of_lt_of_le hf h.1.store.frames_le
  filling_works h := h.2
  fill := by
    rintro v v' w f slot slots u ⟨hg, hf⟩ ⟨rfl, h⟩ hu
    have hfill : v'.Grows { v' with store := v'.store.fill slot u } :=
      World.grows_of_store (Store.grows_fill v'.store slot u) rfl
    exact ⟨_, ⟨hg.trans hfill, by simpa using hf⟩, ⟨rfl, h.fill slot hu⟩, id⟩
  filled h hw := ⟨_, h.1, hw, h.2, id⟩
  unfilled h hleft := ⟨World.Grows.trans h.1 hleft.1, hleft.2⟩
  module _ _ hw hs _ _ := by
    obtain ⟨rfl, -⟩ := id hw
    refine later_ground_aside hw _ _ _ ?_
    exact World.Supports.later (v := .module _) (inside_of_active hs)
      (World.grows_of_store (.refl _) rfl)
  shown := by
    rintro v w m name u ⟨rfl, h⟩ _ _ hu
    exact h.lookupUpTo name.length hu
  register := by
    intro v w m hw _ hm
    obtain ⟨rfl, h⟩ := id hw
    refine later_ground hw (World.grows_of_store (.refl _) rfl) (h.withLibrary fun hknown => ?_)
      trivial
    rcases Library.mem_modules_register hknown with hold | rfl
    · exact .inl hold
    · exact .inr hm
  registered := by
    rintro v w name m ⟨rfl, h⟩ hm
    exact h.library (Library.mem_modules_of_registry hm)
  kept := by
    rintro v w p m ⟨rfl, h⟩ hm
    exact h.library (Library.mem_modules_of_files hm)
  file := by
    rintro v w p ⟨rfl, h⟩ _ _
    have henter : v.Grows { v with library := v.library.enter p } :=
      World.grows_of_store (.refl _) rfl
    refine ⟨{ v with library := v.library.enter p }, ⟨rfl, h.withLibrary .inl⟩, h.root, ?_, ?_⟩
    · rintro v₂ w₂ m hle ⟨rfl, h₂⟩ _ hm
      have hkeep : v₂.Grows { v₂ with library := (v₂.library.leave p).keep p m } :=
        World.grows_of_store (.refl _) rfl
      refine ⟨_, henter.trans (World.Grows.trans hle hkeep), ⟨rfl, h₂.withLibrary ?_⟩,
        World.Supports.later (v := .module m) hm hkeep, id⟩
      intro m' hm'
      rcases Library.mem_modules_keep hm' with hold | rfl
      · exact .inl hold
      · exact .inr hm
    · rintro w₂ ⟨hle, h₂⟩
      have hleave : w₂.Grows { w₂ with library := w₂.library.leave p } :=
        World.grows_of_store (.refl _) rfl
      exact ⟨henter.trans (hle.trans hleave), h₂.withLibrary .inl⟩

/-! ## §3. Beginnings -/

theorem starts_grounding : grounding.Starts where
  start := by
    have hinitial : World.initial.Grounded := by
      have hnothing := World.Every.initial World.initial.Supports
      refine ⟨Nat.zero_lt_one, hnothing.content, hnothing.body, fun {m} hm => ?_⟩
      exact absurd hm (by simp [World.initial, Library.modules])
    have hw : grounding.Holds World.initial World.initial := ⟨rfl, hinitial⟩
    exact kept_grounding.start hw hinitial.root
  recover := by
    rintro v w _ ⟨-, h⟩
    exact ⟨w, ⟨rfl, h⟩, h.root⟩

end Invariant

/-! ## §4. The worlds of sessions -/

/-- In every world of a session what any value refers to is there. -/
theorem World.Arises.grounded {ctx : Context} {w : World} (h : w.Arises ctx) : w.Grounded := by
  cases h with
  | top h =>
    obtain ⟨v, ⟨-, hw⟩, -⟩ := kept_grounding.arises starts_grounding h
    exact hw
  | moment h =>
    obtain ⟨v, ⟨-, hw⟩, -⟩ := kept_grounding.occurs starts_grounding (fun hlax => hlax) h
    exact hw

/-- The outermost scope is there. -/
theorem Engine.inside_root {w : World} (h : w.Grounded) : w.Inside rootScope :=
  ⟨by decide, fun _ hf => List.mem_singleton.1 hf ▸ h.root⟩

end TinyLisp
