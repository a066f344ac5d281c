import TinyLisp.Proofs.Invariant.Node
import TinyLisp.Proofs.Region.Growth

/-!
# What a world keeps

A world keeps values in the slots of its store and, as literals and as forms, in the bodies of functions
and expanders. What holds of all nodes of these values (`World.Every`) holds of whatever is looked up,
and goes on to hold when values of which it holds are bound or filled in.
-/

namespace TinyLisp

namespace World

variable {N M : Value → Prop} {w : World} {v : Value}

/-- Every node of every value that a world keeps has a property. -/
structure Every (N : Value → Prop) (w : World) : Prop where
  content : ∀ {slot v}, w.store.content slot = some v → v.Every N
  body : ∀ {id : Nat} {e : Expr}, w.bodies[id]? = some e → e.Every N

namespace Every

theorem mono (h : w.Every N) (hNM : ∀ u, N u → M u) : w.Every M :=
  ⟨fun hv => (h.content hv).mono hNM, fun he => (h.body he).mono hNM⟩

/-- The world in the beginning keeps nothing. -/
theorem initial (N : Value → Prop) : World.initial.Every N := by
  refine ⟨fun {slot v} hv => ?_, fun {id e} he => ?_⟩
  · have hnone : World.initial.store.content slot = none := rfl
    exact absurd (hv.symm.trans hnone) (by simp)
  · exact absurd he (by simp [World.initial])

/-! ## §1. Changes -/

/-- A store whose slots hold what they held, or something as good. -/
theorem withStore (h : w.Every N) {store : Store}
    (hs : ∀ {slot v}, store.content slot = some v →
      w.store.content slot = some v ∨ v.Every N) : { w with store := store }.Every N :=
  ⟨fun hv => (hs hv).elim h.content id, h.body⟩

theorem bind (h : w.Every N) (f : FrameId) (name : String) (hv : v.Every N) :
    { w with store := w.store.bind f name v }.Every N := by
  refine h.withStore fun hu => ?_
  rcases Store.content_bind hu with hold | ⟨rfl, -⟩
  · exact .inl hold
  · exact .inr hv

theorem fill (h : w.Every N) (slot : SlotId) (hv : v.Every N) :
    { w with store := w.store.fill slot v }.Every N := by
  refine h.withStore fun {other u} hu => ?_
  by_cases hslot : other = slot
  · subst hslot
    have hlt : other < w.store.slots.size := by simpa using Store.lt_size_of_content hu
    rw [Store.content_fill hlt, if_pos rfl] at hu
    obtain rfl := Option.some.inj hu
    exact .inr hv
  · rw [Store.content_fill_of_ne hslot] at hu
    exact .inl hu

/-- New frames and new empty slots hold nothing. -/
theorem newSlots (h : w.Every N) (f : FrameId) (names : List String)
    (bs : List (String × SlotId)) :
    { w with store := (w.store.newFrame.2.newSlots names).2.bindSlots f bs }.Every N := by
  refine h.withStore fun hu => .inl ?_
  unfold Store.content at hu
  rw [Store.slots_bindSlots] at hu
  exact (Store.content_newSlots w.store.newFrame.2 names _).symm.trans hu

/-- A body is kept. -/
theorem push (h : w.Every N) {e : Expr} (he : e.Every N) :
    { w with bodies := w.bodies.push e }.Every N := by
  refine ⟨h.content, fun {id x} hx => ?_⟩
  by_cases hid : id = w.bodies.size
  · subst hid
    rw [Array.getElem?_push_size] at hx
    obtain rfl := Option.some.inj hx
    exact he
  · rw [Array.getElem?_push, if_neg hid] at hx
    exact h.body hx

/-! ## §2. Looking things up -/

/-- The body with a number. -/
theorem getD (h : w.Every N) (hnil : N .nil) (id : Nat) :
    (w.bodies.getD id (.literal .nil)).Every N := by
  rw [Array.getD_eq_getD_getElem?]
  cases he : w.bodies[id]? with
  | none => exact Expr.every_literal.2 (Value.every_nil.2 hnil)
  | some e => exact h.body he

/-- What a slot reads as. -/
theorem read (h : w.Every N) (hnone : N .unspecified) (slot : SlotId) :
    (w.store.read slot).Every N := by
  unfold Store.read
  cases hv : w.store.content slot with
  | none => exact (Value.every_single rfl).2 hnone
  | some v => exact h.content hv

/-- What a name stands for, through any number of modules. -/
theorem lookupUpTo (h : w.Every N) (hnone : N .unspecified) (n : Nat) {scope : Scope}
    {name : String} (hv : w.store.lookupUpTo n scope name = .ok v) : v.Every N := by
  induction n generalizing scope name with
  | zero =>
    unfold Store.lookupUpTo at hv
    split at hv
    · cases hv
      exact h.read hnone _
    · exact absurd hv (by simp)
  | succ n ih =>
    unfold Store.lookupUpTo at hv
    split at hv
    · cases hv
      exact h.read hnone _
    · split at hv
      · exact absurd hv (by simp)
      · split at hv
        · exact absurd hv (by simp)
        · split at hv
          · split at hv
            · exact ih hv
            · exact absurd hv (by simp)
          · exact absurd hv (by simp)

end Every

/-- A value is kept in a world: it is a node of what a slot holds, or of a value in a body. -/
inductive Keeps (w : World) (u : Value) : Prop
  | content {slot : SlotId} {v : Value} (h : w.store.content slot = some v) (hu : u ∈ v.nodes)
  | body {id : Nat} {e : Expr} {v : Value} (h : w.bodies[id]? = some e) (hv : v ∈ e.values)
    (hu : u ∈ v.nodes)

theorem Every.keeps (h : w.Every N) {u : Value} (hu : w.Keeps u) : N u := by
  cases hu with
  | content hv hu => exact h.content hv _ hu
  | body he hv hu => exact h.body he _ hv _ hu

end World

end TinyLisp
