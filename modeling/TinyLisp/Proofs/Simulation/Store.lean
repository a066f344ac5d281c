import TinyLisp.Proofs.Simulation.Correspondence
import TinyLisp.Proofs.StoreLaws

/-!
# Stores that belong together

Under a correspondence, two stores belong together if paired frames bind the same names to the
same slots and slots hold values that belong together. Then a name that is seen has the same slot
in scopes that belong together, and one that can be read is looked up to the same value.
-/

namespace TinyLisp

open Store

/-! ## §1. One side -/

namespace Side

variable {side : Side} {paired paired' : FrameId → Prop} {s t : Store}

/-- What is relied on holds of a store: pinned bindings are there, and a veil is an unpaired
frame each of whose bindings is pinned in the frame behind it. -/
structure Valid (side : Side) (paired : FrameId → Prop) (s : Store) : Prop where
  pinned : ∀ f name slot, side.pinned f name slot → s.slotIn? f name = some slot
  veil_lt : ∀ g f, side.veil g f → g < s.frames.size
  veil_unpaired : ∀ g f, side.veil g f → ¬ paired g
  veil_pinned : ∀ g f name slot, side.veil g f → s.slotIn? g name = some slot →
    side.pinned f name slot

/-- What holds keeps holding if no binding gets another slot and unpaired frames stay as they
are. -/
theorem Valid.later (h : side.Valid paired s) (hle : s.frames.size ≤ t.frames.size)
    (hkept : ∀ f name slot, s.slotIn? f name = some slot → t.slotIn? f name = some slot)
    (hsame : ∀ g, g < s.frames.size → ¬ paired g → t.frame g = s.frame g) :
    side.Valid paired t where
  pinned f name slot hp := hkept f name slot (h.pinned f name slot hp)
  veil_lt g f hv := Nat.lt_of_lt_of_le (h.veil_lt g f hv) hle
  veil_unpaired := h.veil_unpaired
  veil_pinned := by
    intro g f name slot hv hs
    unfold slotIn? at hs
    rw [hsame g (h.veil_lt g f hv) (h.veil_unpaired g f hv)] at hs
    exact h.veil_pinned g f name slot hv hs

/-- Only the frames matter. -/
theorem Valid.of_frames_eq (h : side.Valid paired s) (hf : t.frames = s.frames) :
    side.Valid paired t := by
  have hframe : ∀ g, t.frame g = s.frame g := by
    intro g
    unfold frame
    rw [hf]
  refine h.later (Nat.le_of_eq (by rw [hf])) ?_ fun g _ _ => hframe g
  intro f name slot hs
  unfold slotIn?
  rw [hframe]
  exact hs

/-- A frame made later may be paired. -/
theorem Valid.pair (h : side.Valid paired s)
    (hp : ∀ f, paired' f → paired f ∨ s.frames.size ≤ f) : side.Valid paired' s where
  pinned := h.pinned
  veil_lt := h.veil_lt
  veil_unpaired := by
    intro g f hv hg
    rcases hp g hg with hold | hnew
    · exact h.veil_unpaired g f hv hold
    · exact absurd (h.veil_lt g f hv) (Nat.not_lt.2 hnew)
  veil_pinned := h.veil_pinned

/-- A new frame may be made at any time. -/
theorem Valid.newFrame (h : side.Valid paired s) : side.Valid paired s.newFrame.2 := by
  refine h.later (by simp) ?_ fun g _ _ => frame_newFrame s g
  intro f name slot hs
  unfold slotIn?
  rw [frame_newFrame]
  exact hs

/-- A paired frame may get a value for a name. -/
theorem Valid.bind {f : FrameId} (h : side.Valid paired s) (hf : paired f) (name : String)
    (v : Value) : side.Valid paired (s.bind f name v) := by
  refine h.later (by simp) (fun g n slot hs => slotIn?_bind_of_some hs name v) fun g _ hg => ?_
  refine frame_bind_of_ne ?_
  rintro rfl
  exact hg hf

/-- A paired frame without bindings may be given some. -/
theorem Valid.bindSlots {f : FrameId} (h : side.Valid paired s) (hf : paired f)
    (hempty : s.frame f = []) (bs : List (String × SlotId)) :
    side.Valid paired (s.bindSlots f bs) := by
  refine h.later (by simp) ?_ ?_
  · intro g n slot hs
    have hg : g ≠ f := by
      rintro rfl
      unfold slotIn? at hs
      rw [hempty] at hs
      exact absurd hs (by simp [Table.get?])
    unfold slotIn?
    rw [frame_bindSlots_of_ne hg]
    exact hs
  · intro g _ hg
    refine frame_bindSlots_of_ne ?_ bs
    rintro rfl
    exact hg hf

/-- Relies on every binding that is there. -/
def pin (side : Side) (s : Store) : Side where
  pinned f name slot := s.slotIn? f name = some slot
  veil := side.veil

theorem Valid.le_pin (h : side.Valid paired s) : side.Le (side.pin s) :=
  ⟨h.pinned, fun _ _ hv => hv⟩

theorem Valid.pin (h : side.Valid paired s) : (side.pin s).Valid paired s where
  pinned _ _ _ hp := hp
  veil_lt := h.veil_lt
  veil_unpaired := h.veil_unpaired
  veil_pinned g f name slot hv hs := h.pinned f name slot (h.veil_pinned g f name slot hv hs)

/-- Puts a veil before a frame. -/
def hang (side : Side) (g f : FrameId) : Side where
  pinned := side.pinned
  veil k j := side.veil k j ∨ (k = g ∧ j = f)

theorem le_hang (side : Side) (g f : FrameId) : side.Le (side.hang g f) :=
  ⟨fun _ _ _ hp => hp, fun _ _ hv => .inl hv⟩

/-- A new frame with captured slots is a veil before the frame that they were captured in. -/
theorem Valid.hang (h : side.Valid paired s) (hpaired : ∀ f, paired f → f < s.frames.size)
    {f : FrameId} {slots : List (String × SlotId)}
    (hslots : ∀ b ∈ slots, side.pinned f b.1 b.2) :
    (side.hang s.frames.size f).Valid paired (s.newFrame.2.bindSlots s.frames.size slots) := by
  have hold : ∀ g, g < s.frames.size →
      (s.newFrame.2.bindSlots s.frames.size slots).frame g = s.frame g := by
    intro g hg
    rw [frame_bindSlots_of_ne (Nat.ne_of_lt hg), frame_newFrame]
  refine ⟨?_, ?_, ?_, ?_⟩
  · intro k name slot hp
    have hs := h.pinned k name slot hp
    unfold slotIn?
    rw [hold k (lt_size_of_slotIn? hs)]
    exact hs
  · intro k j hv
    rw [frames_size_bindSlots, frames_size_newFrame]
    rcases hv with hv | ⟨rfl, -⟩
    · exact Nat.lt_succ_of_lt (h.veil_lt k j hv)
    · exact Nat.lt_succ_self _
  · intro k j hv hk
    rcases hv with hv | ⟨rfl, -⟩
    · exact h.veil_unpaired k j hv hk
    · exact absurd (hpaired _ hk) (Nat.lt_irrefl _)
  · intro k j name slot hv hs
    rcases hv with hv | ⟨rfl, rfl⟩
    · unfold slotIn? at hs
      rw [hold k (h.veil_lt k j hv)] at hs
      exact h.veil_pinned k j name slot hv hs
    · exact hslots (name, slot) (mem_of_slotIn?_newFrame hs)

/-- A name has the same slot with a veil before the scope and without. -/
theorem Valid.slot?_veil (h : side.Valid paired s) {g f : FrameId} (hv : side.veil g f)
    (scope : Scope) (name : String) :
    s.slot? (g :: f :: scope) name = s.slot? (f :: scope) name :=
  slot?_cons_of_shared fun {slot} hs =>
    slot?_of_slotIn? rfl (h.pinned f name slot (h.veil_pinned g f name slot hv hs))

end Side

/-! ## §2. The backdrop -/

/-- Where frames are the same, names have the same slots. -/
theorem Store.slot?_congr {s t : Store} {scope : Scope} (h : ∀ f ∈ scope, t.frame f = s.frame f)
    (name : String) : t.slot? scope name = s.slot? scope name := by
  induction scope with
  | nil => rfl
  | cons f scope ih =>
    have hrest := ih fun g hg => h g (List.mem_cons_of_mem f hg)
    unfold slot? at hrest ⊢
    rw [List.findSome?_cons, List.findSome?_cons, hrest]
    unfold slotIn?
    rw [h f (by simp)]

/-- The backdrop is there: its scopes are alike for the names that they share, and the frames that
are left alone are empty. -/
structure Backdrop.Holds (O : Backdrop) (s s' : Store) : Prop where
  left_lt : ∀ {B B'}, O.aside B B' → ∀ f ∈ B, f < s.frames.size
  right_lt : ∀ {B B'}, O.aside B B' → ∀ f ∈ B', f < s'.frames.size
  alike : ∀ {B B'}, O.aside B B' → ∀ n, O.shared n → s.slot? B n = s'.slot? B' n
  apart_lt : ∀ {f}, O.apart f → f < s.frames.size
  apart_empty : ∀ {f}, O.apart f → s.frame f = []

/-- The backdrop stays as its frames do. -/
theorem Backdrop.Holds.later {O : Backdrop} {s s' t t' : Store} (h : O.Holds s s')
    (hle : s.frames.size ≤ t.frames.size) (hle' : s'.frames.size ≤ t'.frames.size)
    (hleft : ∀ {B B'}, O.aside B B' → ∀ f ∈ B, t.frame f = s.frame f)
    (hright : ∀ {B B'}, O.aside B B' → ∀ f ∈ B', t'.frame f = s'.frame f)
    (hapart : ∀ {f}, O.apart f → t.frame f = s.frame f) : O.Holds t t' where
  left_lt ha f hf := Nat.lt_of_lt_of_le (h.left_lt ha f hf) hle
  right_lt ha f hf := Nat.lt_of_lt_of_le (h.right_lt ha f hf) hle'
  alike := by
    intro B B' ha n hn
    rw [slot?_congr (hleft ha), slot?_congr (hright ha)]
    exact h.alike ha n hn
  apart_lt hf := Nat.lt_of_lt_of_le (h.apart_lt hf) hle
  apart_empty hf := (hapart hf).trans (h.apart_empty hf)

/-- Only the frames matter. -/
theorem Backdrop.Holds.of_frames_eq {O : Backdrop} {s s' t t' : Store} (h : O.Holds s s')
    (hf : t.frames = s.frames) (hf' : t'.frames = s'.frames) : O.Holds t t' := by
  have hframe : ∀ f, t.frame f = s.frame f := by
    intro f
    unfold frame
    rw [hf]
  have hframe' : ∀ f, t'.frame f = s'.frame f := by
    intro f
    unfold frame
    rw [hf']
  exact h.later (Nat.le_of_eq (by rw [hf])) (Nat.le_of_eq (by rw [hf']))
    (fun _ f _ => hframe f) (fun _ f _ => hframe' f) fun {f} _ => hframe f

/-- The bare backdrop is always there. -/
theorem Backdrop.holds_bare (s s' : Store) : Backdrop.bare.Holds s s' :=
  ⟨fun h => h.elim, fun h => h.elim, fun h => h.elim, fun h => h.elim, fun h => h.elim⟩

/-! ## §3. Both sides -/

namespace Correspondence

variable {O : Backdrop} {K : Correspondence O} {V : View} {N : String → Prop} {p : Prop}
variable {s s' : Store} {scope scope' : Scope} {name : String}

/-- Stores that belong together. -/
structure Stores (K : Correspondence O) (s s' : Store) : Prop where
  frame_lt : ∀ f f', K.frame f f' → f < s.frames.size ∧ f' < s'.frames.size
  frame_eq : ∀ f f', K.frame f f' → s.frame f = s'.frame f'
  slots_size : s.slots.size = s'.slots.size
  content : ∀ slot, Option.Rel K.Values (s.content slot) (s'.content slot)
  left : K.left.Valid (fun f => ∃ f', K.frame f f') s
  right : K.right.Valid (fun f' => ∃ f, K.frame f f') s'
  backdrop : O.Holds s s'

namespace Stores

/-- A name that is seen has the same slot in scopes that belong together. -/
theorem slot?_eq (h : K.Stores s s') (hs : K.Along p N scope scope') (hn : N name) :
    s.slot? scope name = s'.slot? scope' name := by
  induction hs with
  | nil => rfl
  | aside _ ha hN => exact h.backdrop.alike ha name (hN name hn)
  | @cons N M f f' scope scope' hf hN _ ih =>
    unfold slot? at ih ⊢
    rw [List.findSome?_cons, List.findSome?_cons]
    -- a name that the pair binds has its slot there, and any other is seen further on
    have heq : s.slotIn? f name = s'.slotIn? f' name := by
      unfold slotIn?
      rw [h.frame_eq f f' hf]
    rw [← heq]
    rcases hN name hn with hn | ⟨slot, hp⟩
    · rw [ih hn]
    · rw [h.left.pinned f name slot hp]
  | left hv _ ih => rw [h.left.slot?_veil hv, ih hn]
  | right hv _ ih => rw [h.right.slot?_veil hv, ih hn]

/-- A name that is bound for good has a slot. -/
theorem slot?_ne_none (h : K.Stores s s') (hb : K.Bound scope name) :
    s.slot? scope name ≠ none := by
  obtain ⟨f, hf, slot, hp⟩ := hb
  intro hnone
  unfold slot? at hnone
  rw [List.findSome?_eq_none_iff] at hnone
  have hs := hnone f hf
  rw [h.left.pinned f name slot hp] at hs
  exact absurd hs (by simp)

theorem read (h : K.Stores s s') (slot : SlotId) : K.Values (s.read slot) (s'.read slot) := by
  have hc := h.content slot
  unfold Store.read
  generalize s.content slot = c, s'.content slot = c' at hc
  cases hc with
  | none => exact .unspecified
  | some hv => exact hv

/-- A name that can be read is looked up to the same value, or fails alike. -/
theorem lookupUpTo (h : K.Stores s s') (n : Nat) (hs : K.Scopes p V scope scope')
    (hr : V.Reads name) :
    ResultLike Eq K.Values (s.lookupUpTo n scope name) (s'.lookupUpTo n scope' name) := by
  induction n generalizing p V scope scope' name with
  | zero =>
    unfold Store.lookupUpTo
    rw [← h.slot?_eq hs.along hr.1]
    split
    · exact .ok (h.read _)
    · exact .error rfl
  | succ n ih =>
    unfold Store.lookupUpTo
    rw [← h.slot?_eq hs.along hr.1]
    split
    · exact .ok (h.read _)
    · next hnone =>
      split
      · exact .error rfl
      · next first rest hsplit =>
        -- the name is not bound as it stands, so that its first segment is seen
        have hfirst : V.seen first := by
          rcases hr.2 with hb | hfirst
          · exact absurd hnone (h.slot?_ne_none (hs.bound name hb))
          · exact hfirst first rest hsplit
        rw [← h.slot?_eq hs.along hfirst]
        split
        · exact .error rfl
        · next slot _ =>
          have hv := h.read slot
          -- what the slots hold belongs together, and so do the modules among it
          generalize s.read slot = v, s'.read slot = v' at hv
          cases hv with
          | @module m m' hm =>
            obtain ⟨V', hkept, -, hshown⟩ := hm.scope
            simp only
            rw [← hm.exports]
            split
            · next hexport => exact ih hkept.scopes (hshown rest (by simpa using hexport))
            · exact .error rfl
          | _ => exact .error rfl

theorem lookup (h : K.Stores s s') (hs : K.Scopes p V scope scope') (hr : V.Reads name) :
    ResultLike Eq K.Values (s.lookup scope name) (s'.lookup scope' name) :=
  h.lookupUpTo _ hs hr

/-- A name stands for expanders that belong together, or for none in either run. -/
theorem expander? (h : K.Stores s s') (hs : K.Scopes p V scope scope') (hr : V.Reads name) :
    Option.Rel K.Expanders (s.expander? scope name) (s'.expander? scope' name) := by
  have hv := h.lookup hs hr
  unfold Store.expander?
  generalize s.lookup scope name = x, s'.lookup scope' name = x' at hv
  cases hv with
  | error he => exact .none
  | ok hv =>
    cases hv with
    | expander hm => exact .some hm
    | _ => exact .none

end Stores

end Correspondence

end TinyLisp
