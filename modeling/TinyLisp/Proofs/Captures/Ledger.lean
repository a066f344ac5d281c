import Mathlib.Data.Set.Insert
import TinyLisp.Proofs.Grounded
import TinyLisp.Proofs.Invariant.Run
import TinyLisp.Proofs.Ownership.Store

/-!
# Ledgers

A call of a function that keeps a table of captured slots opens two frames: one that shares the slots
of the table, and inside it one for the parameters. What a frame is for does not show from the store.
A *ledger* keeps the moments that have begun besides, and with them which frames were opened for
captured slots (`Moment.CaptureFrame`) and at which moment each function was made (`Moment.Makes`).

In a sound ledger all frames but those opened for captured slots own the slots that they bind, and
a frame that was opened for captured slots binds slots of the table only. Every function about was
made at a moment that has begun.
-/

namespace TinyLisp

variable {ctx : Context} {c : Closure} {w w' : World} {v : Value}

/-! ## §1. What begins at a moment -/

namespace Moment

variable {a : Moment} {past past' : Set Moment} {f : FrameId} {table : List (String × SlotId)}

/-- At a moment a function with a table of captured slots is called, and a frame is opened for
them. -/
inductive OpensTable : Moment → Closure → List (String × SlotId) → FrameId → Prop
  | call {n : Nat} {c : Closure} {args : List Value} {w : World}
    {table : List (String × SlotId)} (h : c.captures = .table table) :
    OpensTable ⟨n + 1, .apply (.closure c) args, w⟩ c table w.store.frames.size

theorem OpensTable.eq {n : Nat} {c c' : Closure} {args : List Value} {w : World}
    (h : OpensTable ⟨n + 1, .apply (.closure c) args, w⟩ c' table f) :
    c' = c ∧ c.captures = .table table ∧ f = w.store.frames.size := by
  cases h with
  | call hc => exact ⟨rfl, hc, rfl⟩

theorem OpensTable.captures_eq {a : Moment} (h : a.OpensTable c table f) :
    c.captures = .table table := by
  cases h with
  | call hc => exact hc

theorem not_opensTable_eval {n : Nat} {e : Expr} {scope : Scope} {w : World} :
    ¬ OpensTable ⟨n, .eval e scope, w⟩ c table f := by
  intro h
  cases h

/-- Among some moments is one at which a frame was opened for captured slots. -/
def CaptureFrame (past : Set Moment) (f : FrameId) : Prop :=
  ∃ a ∈ past, ∃ c table, a.OpensTable c table f

theorem CaptureFrame.mono (h : CaptureFrame past f) (hp : past ⊆ past') :
    CaptureFrame past' f := by
  obtain ⟨a, ha, hopens⟩ := h
  exact ⟨a, hp ha, hopens⟩

/-- At a moment an expression that makes a function was evaluated and gave the function, and a world
has grown since. The function's number is that of the expression's body. -/
def Makes (ctx : Context) (a : Moment) (c : Closure) (w : World) : Prop :=
  ∃ body w₁, a.task = .eval (.lambda c.name c.params body) c.scope ∧
    a.result ctx = .ok (.closure c) w₁ ∧ w₁.Grows w ∧ w.bodies[c.id]? = some body

theorem Makes.later (h : a.Makes ctx c w) (hw : w.Grows w') : a.Makes ctx c w' := by
  obtain ⟨body, w₁, htask, hresult, hg, hbody⟩ := h
  obtain ⟨hid, -⟩ := Array.getElem?_eq_some_iff.1 hbody
  exact ⟨body, w₁, htask, hresult, hg.trans hw, (hw.bodies_eq hid).trans hbody⟩

end Moment

/-! ## §2. Ledgers -/

/-- What is known at a moment of a run: the world, and the moments that have begun. -/
structure Ledger where
  world : World
  begun : Set Moment

namespace Ledger

variable {K K' : Ledger} {f : FrameId}

/-- All frames but those opened for captured slots. -/
def owns (K : Ledger) (f : FrameId) : Prop :=
  f < K.world.store.frames.size ∧ ¬ Moment.CaptureFrame K.begun f

/-- Of a value's outermost node: the scope that it keeps is there, and a function was made at a
moment that has begun. -/
def Node (ctx : Context) (K : Ledger) : Value → Prop
  | .closure c => K.world.Inside c.scope ∧ ∃ a ∈ K.begun, a.Makes ctx c K.world
  | .expander m => K.world.Inside m.scope
  | _ => True

/-- A ledger comes after another. -/
structure Le (K K' : Ledger) : Prop where
  grows : K.world.Grows K'.world
  begun : K.begun ⊆ K'.begun
  owns : ∀ {f}, K.owns f → K'.owns f

theorem Le.refl (K : Ledger) : K.Le K :=
  ⟨.refl _, subset_rfl, id⟩

theorem Le.trans {K'' : Ledger} (h : K.Le K') (h' : K'.Le K'') : K.Le K'' :=
  ⟨h.grows.trans h'.grows, h.begun.trans h'.begun, fun hf => h'.owns (h.owns hf)⟩

/-- Ledgers, ordered. -/
@[reducible] def inTime : Preorder Ledger where
  le := Le
  le_refl := Le.refl
  le_trans _ _ _ := Le.trans

theorem Node.later (h : K.Node ctx v) (hK : K.Le K') : K'.Node ctx v := by
  cases v with
  | closure c =>
    obtain ⟨hscope, a, ha, hmakes⟩ := h
    exact ⟨hscope.later hK.grows, a, hK.begun ha, hmakes.later hK.grows⟩
  | expander m => exact World.Inside.later h hK.grows
  | _ => trivial

theorem node_of_plain (h : v.Plain) : K.Node ctx v := by
  cases v with
  | closure c => exact h.elim
  | expander m => exact h.elim
  | _ => trivial

/-- The world is as the ledger says. -/
structure Sound (ctx : Context) (K : Ledger) : Prop
    extends K.world.store.Owned K.owns, K.world.Every (K.Node ctx) where
  root : K.owns rootFrame
  since : ∀ {a}, a ∈ K.begun → a.world.Grows K.world
  opened : ∀ {a c table f}, a ∈ K.begun → a.OpensTable c table f →
    f < K.world.store.frames.size ∧
      ∀ {name slot}, K.world.store.slotIn? f name = some slot → (name, slot) ∈ table

/-- A frame opened for captured slots is there. -/
theorem Sound.lt_of_captureFrame (h : K.Sound ctx) (hf : Moment.CaptureFrame K.begun f) :
    f < K.world.store.frames.size := by
  obtain ⟨a, ha, c, table, hopens⟩ := hf
  exact (h.opened ha hopens).1

/-! ## §3. Changes of the world -/

/-- The same moments have begun in another world. -/
def moved (K : Ledger) (w : World) : Ledger :=
  ⟨w, K.begun⟩

theorem le_moved (K : Ledger) (hg : K.world.Grows w) : K.Le (K.moved w) := by
  refine ⟨hg, subset_rfl, ?_⟩
  intro f hf
  exact ⟨Nat.lt_of_lt_of_le hf.1 hg.store.frames_le, hf.2⟩

/-- If no frame is opened, the same frames are owners. -/
theorem owns_moved (hsize : w.store.frames.size = K.world.store.frames.size) :
    (K.moved w).owns f ↔ K.owns f := by
  unfold owns moved
  rw [hsize]

/-- A frame that is opened without a new moment is an owner. -/
theorem Sound.owns_moved_succ (h : K.Sound ctx)
    (hsize : w.store.frames.size = K.world.store.frames.size + 1) :
    (K.moved w).owns f ↔ K.owns f ∨ f = K.world.store.frames.size := by
  unfold owns moved
  rw [hsize]
  constructor
  · intro hf
    by_cases heq : f = K.world.store.frames.size
    · exact .inr heq
    · exact .inl ⟨Nat.lt_of_le_of_ne (Nat.le_of_lt_succ hf.1) heq, hf.2⟩
  · intro hf
    rcases hf with hf | rfl
    · exact ⟨Nat.lt_succ_of_lt hf.1, hf.2⟩
    · refine ⟨Nat.lt_succ_self _, ?_⟩
      intro hcapture
      exact absurd (h.lt_of_captureFrame hcapture) (Nat.lt_irrefl _)

/-- A world that has grown, with owners, good values, and unchanged frames of captured slots. -/
theorem Sound.moved (h : K.Sound ctx) (hg : K.world.Grows w)
    (howned : w.store.Owned (K.moved w).owns)
    (hevery : K.world.Every ((K.moved w).Node ctx) → w.Every ((K.moved w).Node ctx))
    (hframe : ∀ {f}, Moment.CaptureFrame K.begun f → w.store.frame f = K.world.store.frame f) :
    K.Le (K.moved w) ∧ (K.moved w).Sound ctx := by
  have hle := K.le_moved hg
  refine ⟨hle, ⟨howned, hevery (h.toEvery.mono fun _ hu => Node.later hu hle),
    hle.owns h.root, fun ha => (h.since ha).trans hg, ?_⟩⟩
  intro a c table f ha hopens
  obtain ⟨hlt, hbound⟩ := h.opened ha hopens
  refine ⟨Nat.lt_of_lt_of_le hlt hg.store.frames_le, ?_⟩
  intro name slot hslot
  have hnew : (w.store.frame f).get? name = some slot := hslot
  rw [hframe ⟨a, ha, c, table, hopens⟩] at hnew
  exact hbound hnew

/-- The store is the same, and so are the bodies. -/
theorem Sound.aside (h : K.Sound ctx) (hs : w.store = K.world.store)
    (hb : w.bodies = K.world.bodies) : K.Le (K.moved w) ∧ (K.moved w).Sound ctx := by
  have hg : K.world.Grows w := by
    refine World.grows_of_store ?_ hb
    rw [hs]
    exact .refl _
  refine h.moved hg ?_ (fun he => ⟨?_, ?_⟩) fun _ => by rw [hs]
  · rw [hs]
    exact h.toOwned.congr fun f => owns_moved (by rw [hs])
  · intro slot v hv
    rw [hs] at hv
    exact he.content hv
  · intro id e he'
    rw [hb] at he'
    exact he.body he'

/-- A new frame without bindings. -/
theorem Sound.newFrame (h : K.Sound ctx) :
    let w := { K.world with store := K.world.store.newFrame.2 }
    K.Le (K.moved w) ∧ (K.moved w).Sound ctx := by
  intro w
  have hg : K.world.Grows w := World.grows_of_store (Store.Grows.refl _).newFrame rfl
  have howned : w.store.Owned (K.moved w).owns :=
    h.toOwned.newFrame.congr fun f => h.owns_moved_succ (Store.frames_size_newFrame _)
  exact h.moved hg howned (fun he => he.withStore .inl) fun _ => Store.frame_newFrame _ _

/-- A binding of a good value by an owner. -/
theorem Sound.bind (h : K.Sound ctx) (hf : K.owns f) (name : String)
    (hv : v.Every (K.Node ctx)) :
    let w := { K.world with store := K.world.store.bind f name v }
    K.Le (K.moved w) ∧ (K.moved w).Sound ctx := by
  intro w
  have hg : K.world.Grows w := World.grows_of_store (Store.grows_bind _ f name v) rfl
  have hsize : w.store.frames.size = K.world.store.frames.size := Store.frames_size_bind _ _ _ _
  have howned : w.store.Owned (K.moved w).owns :=
    (h.toOwned.bind hf name v).congr fun f => owns_moved hsize
  have hgood : v.Every ((K.moved w).Node ctx) := hv.mono fun u hu => hu.later (K.le_moved hg)
  refine h.moved hg howned (fun he => he.bind f name hgood) ?_
  intro g hcapture
  -- the owner is no frame of captured slots
  refine Store.frame_bind_of_ne ?_
  intro heq
  subst heq
  exact hf.2 hcapture

/-- A slot gets a good value. -/
theorem Sound.fill (h : K.Sound ctx) (slot : SlotId) (hv : v.Every (K.Node ctx)) :
    let w := { K.world with store := K.world.store.fill slot v }
    K.Le (K.moved w) ∧ (K.moved w).Sound ctx := by
  intro w
  have hg : K.world.Grows w := World.grows_of_store (Store.grows_fill _ slot v) rfl
  have hsize : w.store.frames.size = K.world.store.frames.size := rfl
  have howned : w.store.Owned (K.moved w).owns :=
    (h.toOwned.fill slot v).congr fun f => owns_moved hsize
  have hgood : v.Every ((K.moved w).Node ctx) := hv.mono fun u hu => hu.later (K.le_moved hg)
  exact h.moved hg howned (fun he => he.fill slot hgood) fun _ => rfl

/-- A new frame with empty slots for some names. -/
theorem Sound.newSlots (h : K.Sound ctx) (names : List String) :
    let w := { K.world with
      store := (K.world.store.newFrame.2.newSlots names).2.bindSlots K.world.store.frames.size
        (names.zip (K.world.store.newFrame.2.newSlots names).1) }
    K.Le (K.moved w) ∧ (K.moved w).Sound ctx := by
  intro w
  have hg : K.world.Grows w := World.grows_of_store
    (((Store.Grows.refl _).newFrame.newSlots names).bindSlots (Nat.le_refl _) _) rfl
  have hsize : w.store.frames.size = K.world.store.frames.size + 1 := by
    show (Store.bindSlots _ _ _).frames.size = _
    rw [Store.frames_size_bindSlots, Store.frames_newSlots, Store.frames_size_newFrame]
  have howned : w.store.Owned (K.moved w).owns :=
    (h.toOwned.newSlots names).congr fun f => h.owns_moved_succ hsize
  refine h.moved hg howned (fun he => he.newSlots _ names _) ?_
  intro f hcapture
  have hne : f ≠ K.world.store.frames.size := Nat.ne_of_lt (h.lt_of_captureFrame hcapture)
  refine (Store.frame_bindSlots_of_ne hne _).trans ?_
  unfold Store.frame
  rw [Store.frames_newSlots]
  exact Store.frame_newFrame _ f

/-- One more body. -/
theorem Sound.push (h : K.Sound ctx) {e : Expr} (he : e.Every (K.Node ctx)) :
    let w := { K.world with bodies := K.world.bodies.push e }
    K.Le (K.moved w) ∧ (K.moved w).Sound ctx := by
  intro w
  have hg : K.world.Grows w := World.grows_push K.world e
  have hgood : e.Every ((K.moved w).Node ctx) := he.mono fun u hu => hu.later (K.le_moved hg)
  exact h.moved hg h.toOwned (fun hevery => hevery.push hgood) fun _ => rfl

/-! ## §4. New moments -/

/-- One more moment has begun. -/
def begin (K : Ledger) (a : Moment) (w : World) : Ledger :=
  ⟨w, insert a K.begun⟩

/-- A moment at which no frame is opened for captured slots. -/
theorem Sound.beginPlain (h : K.Sound ctx) {a : Moment} (hworld : a.world = K.world)
    (ha : ∀ c table f, ¬ a.OpensTable c table f) :
    K.Le (K.begin a K.world) ∧ (K.begin a K.world).Sound ctx := by
  have hcapture : ∀ f, Moment.CaptureFrame (insert a K.begun) f ↔
      Moment.CaptureFrame K.begun f := by
    intro f
    constructor
    · rintro ⟨b, rfl | hb, c, table, hopens⟩
      · exact absurd hopens (ha c table f)
      · exact ⟨b, hb, c, table, hopens⟩
    · exact fun hf => hf.mono (Set.subset_insert a K.begun)
  have howns : ∀ f, (K.begin a K.world).owns f ↔ K.owns f := by
    intro f
    exact and_congr_right fun _ => not_congr (hcapture f)
  have hle : K.Le (K.begin a K.world) :=
    ⟨.refl _, Set.subset_insert a K.begun, fun hf => (howns _).2 hf⟩
  refine ⟨hle, ⟨h.toOwned.congr howns, h.toEvery.mono fun _ hu => Node.later hu hle,
    hle.owns h.root, ?_, ?_⟩⟩
  · rintro b (rfl | hb)
    · rw [hworld]
      exact .refl _
    · exact h.since hb
  · rintro b c table f (rfl | hb) hopens
    · exact absurd hopens (ha c table f)
    · exact h.opened hb hopens

/-- A call opens a frame for captured slots, and one inside it. -/
theorem Sound.beginCall (h : K.Sound ctx) (n : Nat) (args : List Value)
    {table : List (String × SlotId)} (hc : c.captures = .table table) :
    let a : Moment := ⟨n + 1, .apply (.closure c) args, K.world⟩
    let size := K.world.store.frames.size
    let w := { K.world with store := (K.world.store.newFrame.2.bindSlots size table).newFrame.2 }
    K.Le (K.begin a w) ∧ (K.begin a w).Sound ctx ∧
      (K.begin a w).owns (K.world.store.newFrame.2.bindSlots size table).frames.size := by
  intro a size w
  let s := K.world.store.newFrame.2.bindSlots size table
  have hs : K.world.store.Grows s :=
    (Store.Grows.refl _).newFrame.bindSlots (Nat.le_refl _) table
  have hg : K.world.Grows w := World.grows_of_store hs.newFrame rfl
  have hsize : s.frames.size = size + 1 := by
    rw [Store.frames_size_bindSlots, Store.frames_size_newFrame]
  have hsize' : w.store.frames.size = size + 2 := by
    show s.newFrame.2.frames.size = _
    rw [Store.frames_size_newFrame, hsize]
  have hopens : a.OpensTable c table size := .call hc
  -- the one frame that has been opened for captured slots is the first of the two
  have hcapture : ∀ f, Moment.CaptureFrame (insert a K.begun) f ↔
      Moment.CaptureFrame K.begun f ∨ f = size := by
    intro f
    constructor
    · rintro ⟨b, rfl | hb, c', table', hopens'⟩
      · exact .inr hopens'.eq.2.2
      · exact .inl ⟨b, hb, c', table', hopens'⟩
    · rintro (hf | rfl)
      · exact hf.mono (Set.subset_insert a K.begun)
      · exact ⟨a, Set.mem_insert a K.begun, c, table, hopens⟩
  have howns : ∀ f, (K.begin a w).owns f ↔ K.owns f ∨ f = s.frames.size := by
    intro f
    unfold Ledger.owns Ledger.begin
    rw [hcapture, hsize', hsize]
    constructor
    · intro hf
      obtain ⟨hlt, hnot⟩ := hf
      obtain ⟨hold, hne⟩ := not_or.1 hnot
      by_cases heq : f = size + 1
      · exact .inr heq
      · have hle : f ≤ size := Nat.le_of_lt_succ (Nat.lt_of_le_of_ne (Nat.le_of_lt_succ hlt) heq)
        exact .inl ⟨Nat.lt_of_le_of_ne hle hne, hold⟩
    · intro hf
      rcases hf with hf | rfl
      · exact ⟨Nat.lt_add_right 2 hf.1, not_or.2 ⟨hf.2, Nat.ne_of_lt hf.1⟩⟩
      · refine ⟨Nat.lt_succ_self _, not_or.2 ⟨?_, Nat.succ_ne_self size⟩⟩
        intro hold
        exact absurd (h.lt_of_captureFrame hold) (Nat.not_succ_lt_self)
  have hle : K.Le (K.begin a w) :=
    ⟨hg, Set.subset_insert a K.begun, fun hf => (howns _).2 (.inl hf)⟩
  have howned : w.store.Owned (K.begin a w).owns :=
    (h.toOwned.shareSlots table).newFrame.congr howns
  have hevery : w.Every ((K.begin a w).Node ctx) :=
    ((h.toEvery.mono fun _ hu => Node.later hu hle).newSlots _ [] table).withStore .inl
  have hsince : ∀ {b : Moment}, b ∈ insert a K.begun → b.world.Grows w := by
    rintro b (rfl | hb)
    · exact hg
    · exact (h.since hb).trans hg
  refine ⟨hle, ⟨howned, hevery, hle.owns h.root, hsince, ?_⟩, (howns _).2 (.inr rfl)⟩
  have hframe : ∀ f, w.store.frame f = s.frame f := Store.frame_newFrame s
  rintro b c' table' f (rfl | hb) hopens'
  · obtain ⟨rfl, hc', rfl⟩ := hopens'.eq
    obtain rfl : table = table' := Captures.table.inj (hc.symm.trans hc')
    refine ⟨?_, ?_⟩
    · show size < w.store.frames.size
      rw [hsize']
      exact Nat.lt_add_of_pos_right (by decide)
    · intro name slot hslot
      have hnew : s.slotIn? size name = some slot := by
        unfold Store.slotIn?
        rw [← hframe]
        exact hslot
      exact Store.mem_of_slotIn?_newFrame hnew
  · obtain ⟨hlt, hbound⟩ := h.opened hb hopens'
    refine ⟨Nat.lt_of_lt_of_le hlt hg.store.frames_le, ?_⟩
    intro name slot hslot
    have hne : f ≠ size := Nat.ne_of_lt hlt
    have hnew : (w.store.frame f).get? name = some slot := hslot
    rw [hframe, Store.frame_bindSlots_of_ne hne, Store.frame_newFrame] at hnew
    exact hbound hnew

end Ledger

end TinyLisp
