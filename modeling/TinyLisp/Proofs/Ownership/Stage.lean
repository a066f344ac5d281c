import TinyLisp.Proofs.Ownership.Store
import TinyLisp.Proofs.Contents
import TinyLisp.Proofs.Region.Basic
import Mathlib.Order.Basic

/-!
# Owners of slots

A slot is made for one name of one frame, and only the frame of a table of captured slots binds a
slot that was made for another. A frame that is no such frame *owns* the slots that it binds: no
two owners bind the same slot, and none binds a slot to two names (`Store.Owned`). The
frames that names are bound in are owners, and so are the frames of modules.

A frame becomes the frame of a module when all the names that the module shows have their values
there. Names keep their slots and slots go on to hold values, so that this remains true of every
module that there is anywhere (`Ownership.Stage.Sound`): in a slot, in the body of a function, or
among the modules that can be found.
-/

namespace TinyLisp

namespace Ownership

/-- What is known at a moment of a run: the world, and the frames that own what they bind. -/
structure Stage where
  world : World
  owns : FrameId → Prop

namespace Stage

variable {K K' : Stage} {w : World} {v : Value}

/-- Of a value's outermost node: the frame of a module is an owner, and gives a value to every name
that the module shows. -/
def Node (K : Stage) : Value → Prop
  | .module m => ∃ f, m.scope.head? = some f ∧ K.owns f ∧
      ∀ name ∈ m.exports, K.world.store.Assigns f name
  | _ => True

/-- A stage comes after another. -/
structure Le (K K' : Stage) : Prop where
  grows : K.world.Grows K'.world
  owns : ∀ {f}, K.owns f → K'.owns f

/-- Stages, ordered. -/
@[reducible] def inTime : Preorder Stage where
  le := Le
  le_refl K := ⟨.refl _, id⟩
  le_trans _ _ _ h h' := ⟨h.grows.trans h'.grows, fun hf => h'.owns (h.owns hf)⟩

theorem Node.later (h : K.Node v) (hK : K.Le K') : K'.Node v := by
  cases v with
  | module m =>
    obtain ⟨f, hf, howns, hassigns⟩ := h
    refine ⟨f, hf, hK.owns howns, fun name hname => ?_⟩
    exact Region.assigns_later (hassigns name hname) hK.grows
  | _ => trivial

theorem node_of_plain (h : v.Plain) : K.Node v := by
  cases v with
  | module m => exact h.elim
  | _ => trivial

/-! ## §1. Sound stages -/

/-- The world is as the stage says. -/
structure Sound (K : Stage) : Prop
    extends K.world.store.Owned K.owns, K.world.Every K.Node where
  root : K.owns rootFrame
  library : ∀ {m}, K.world.library.Knows m → K.Node (.module m)

/-- A later stage is sound if owners are still owners and whatever is new is good. -/
theorem Sound.after (h : K.Sound) (hle : K.Le K') (howned : K'.world.store.Owned K'.owns)
    (hevery : K.world.Every K'.Node → K'.world.Every K'.Node)
    (hlibrary : ∀ {m}, K'.world.library.Knows m →
      K.world.library.Knows m ∨ K'.Node (.module m)) : K'.Sound where
  toOwned := howned
  toEvery := hevery (h.toEvery.mono fun _ hu => Node.later hu hle)
  root := hle.owns h.root
  library := by
    intro m hm
    rcases hlibrary hm with hold | hnew
    · exact (h.library hold).later hle
    · exact hnew

/-- Only the store has changed. -/
theorem Sound.withStore (h : K.Sound) {store : Store} {owns : FrameId → Prop}
    (hg : K.world.store.Grows store) (howns : ∀ {f}, K.owns f → owns f)
    (howned : store.Owned owns)
    (hevery : ∀ {N : Value → Prop}, (∀ {u}, K.Node u → N u) → K.world.Every N →
      { K.world with store := store }.Every N) :
    K.Le ⟨{ K.world with store := store }, owns⟩ ∧
      Sound ⟨{ K.world with store := store }, owns⟩ := by
  have hle : K.Le ⟨{ K.world with store := store }, owns⟩ :=
    ⟨World.grows_of_store hg rfl, howns⟩
  refine ⟨hle, h.after hle howned (hevery ?_) .inl⟩
  intro u hu
  exact Node.later hu hle

/-! ## §2. Frames and names -/

/-- A world with the same store and the same bodies, in which no other module can be found. -/
theorem Sound.aside (h : K.Sound) (hs : w.store = K.world.store) (hb : w.bodies = K.world.bodies)
    (hl : ∀ {m}, w.library.Knows m → K.world.library.Knows m ∨ K.Node (.module m)) :
    K.Le ⟨w, K.owns⟩ ∧ Sound ⟨w, K.owns⟩ := by
  have hg : K.world.store.Grows w.store := by
    rw [hs]
    exact .refl _
  have hle : K.Le ⟨w, K.owns⟩ := ⟨World.grows_of_store hg hb, id⟩
  have howned : w.store.Owned K.owns := by
    rw [hs]
    exact h.toOwned
  refine ⟨hle, h.after hle howned (fun he => ⟨?_, ?_⟩) fun hm => ?_⟩
  · intro slot v hv
    have hv' : w.store.content slot = some v := hv
    rw [hs] at hv'
    exact he.content hv'
  · intro id e he'
    have he'' : w.bodies[id]? = some e := he'
    rw [hb] at he''
    exact he.body he''
  · exact (hl hm).imp_right fun hnode => hnode.later hle

/-- A new frame, without bindings, as an owner. -/
def withFrame (K : Stage) : Stage :=
  ⟨{ K.world with store := K.world.store.newFrame.2 },
    fun f => K.owns f ∨ f = K.world.store.frames.size⟩

theorem Sound.withFrame (h : K.Sound) : K.Le K.withFrame ∧ K.withFrame.Sound :=
  h.withStore (Store.Grows.refl _).newFrame .inl h.toOwned.newFrame
    fun _ he => he.withStore .inl

/-- A new frame that is no owner may bind any slots. -/
theorem Sound.shareSlots (h : K.Sound) (bs : List (String × SlotId)) :
    let w := { K.world with
      store := K.world.store.newFrame.2.bindSlots K.world.store.frames.size bs }
    K.Le ⟨w, K.owns⟩ ∧ Sound ⟨w, K.owns⟩ :=
  h.withStore ((Store.Grows.refl _).newFrame.bindSlots (Nat.le_refl _) bs) id
    (h.toOwned.shareSlots bs) fun _ he => he.newSlots _ [] bs

/-- A binding of a good value by an owner. -/
theorem Sound.bind (h : K.Sound) {f : FrameId} (hf : K.owns f) (name : String)
    (hv : v.Every K.Node) :
    let w := { K.world with store := K.world.store.bind f name v }
    K.Le ⟨w, K.owns⟩ ∧ Sound ⟨w, K.owns⟩ :=
  h.withStore (Store.grows_bind _ f name v) id (h.toOwned.bind hf name v)
    fun hN he => he.bind f name (hv.mono fun _ hu => hN hu)

/-- One more body, of a function or an expander. -/
theorem Sound.push (h : K.Sound) {e : Expr} (he : e.Every K.Node) :
    let w := { K.world with bodies := K.world.bodies.push e }
    K.Le ⟨w, K.owns⟩ ∧ Sound ⟨w, K.owns⟩ := by
  intro w
  have hle : K.Le ⟨w, K.owns⟩ := ⟨World.grows_push K.world e, id⟩
  exact ⟨hle, h.after hle h.toOwned
    (fun hevery => hevery.push (he.mono fun _ hu => Node.later hu hle)) .inl⟩

/-! ## §3. Frames whose names come before their values -/

/-- A new frame with empty slots for some names. -/
def withSlots (K : Stage) (names : List String) : Stage :=
  let t := K.world.store.newFrame.2.newSlots names
  ⟨{ K.world with store := t.2.bindSlots K.world.store.frames.size (names.zip t.1) },
    K.withFrame.owns⟩

theorem Sound.withSlots (h : K.Sound) (names : List String) :
    K.Le (K.withSlots names) ∧ (K.withSlots names).Sound :=
  h.withStore (((Store.Grows.refl _).newFrame.newSlots names).bindSlots (Nat.le_refl _) _) .inl
    (h.toOwned.newSlots names) fun _ he => he.newSlots _ names _

/-- A slot gets a value. -/
theorem Sound.fill (h : K.Sound) (slot : SlotId) (hv : v.Every K.Node) :
    let w := { K.world with store := K.world.store.fill slot v }
    K.Le ⟨w, K.owns⟩ ∧ Sound ⟨w, K.owns⟩ :=
  h.withStore (Store.grows_fill _ slot v) id (h.toOwned.fill slot v)
    fun hN he => he.fill slot (hv.mono fun _ hu => hN hu)

end Stage

end Ownership

end TinyLisp
