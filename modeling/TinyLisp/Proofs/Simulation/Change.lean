import TinyLisp.Proofs.Simulation.Store
import TinyLisp.Eval.Expansion
import TinyLisp.Eval.Module

/-!
# Changes in step

What either run does to its store, the other does too; the correspondence grows with the frames
and the bodies that they make. A veil is hung on one side only.
-/

namespace TinyLisp

open Store

namespace Correspondence

variable {O : Backdrop} {K K' : Correspondence O} {s s' : Store} {scope scope' : Scope}

/-! ## §1. Growing correspondences -/

/-- Pairs two frames that are not yet paired, and not left alone. -/
def pair (K : Correspondence O) (f f' : FrameId) (hf : ∀ g g', K.frame g g' → g ≠ f ∧ g' ≠ f')
    (ha : ¬ O.apart f) : Correspondence O :=
  { K with
    frame := fun g g' => K.frame g g' ∨ (g = f ∧ g' = f')
    frame_inj := by
      rintro g g' k k' (hg | ⟨rfl, rfl⟩) (hk | ⟨rfl, rfl⟩)
      · exact K.frame_inj g g' k k' hg hk
      · exact ⟨fun e => absurd e (hf g g' hg).1, fun e => absurd e (hf g g' hg).2⟩
      · exact ⟨fun e => absurd e.symm (hf k k' hk).1, fun e => absurd e.symm (hf k k' hk).2⟩
      · exact ⟨fun _ => rfl, fun _ => rfl⟩
    root := .inl K.root
    apart := by
      intro g hg
      refine ⟨fun g' hgg' => ?_, (K.apart g hg).2⟩
      rcases hgg' with hgg' | ⟨rfl, -⟩
      · exact (K.apart g hg).1 g' hgg'
      · exact ha hg }

theorem le_pair (K : Correspondence O) (f f' : FrameId)
    (hf : ∀ g g', K.frame g g' → g ≠ f ∧ g' ≠ f') (ha : ¬ O.apart f) : K.Le (K.pair f f' hf ha) :=
  ⟨fun _ _ h => .inl h, fun _ _ h => h, fun _ _ h => h, .refl _, .refl _⟩

/-- Pairs two bodies that are not yet paired, the one on the left with its expression. -/
def pairBodies (K : Correspondence O) (b b' : Nat) (e : Expr)
    (hb : ∀ c c', K.body c c' → c ≠ b ∧ c' ≠ b') : Correspondence O :=
  { K with
    body := fun c c' => K.body c c' ∨ (c = b ∧ c' = b')
    code := fun c e' => K.code c e' ∨ (c = b ∧ e' = e)
    body_inj := by
      rintro c c' d d' (hc | ⟨rfl, rfl⟩) (hd | ⟨rfl, rfl⟩)
      · exact K.body_inj c c' d d' hc hd
      · exact ⟨fun e => absurd e (hb c c' hc).1, fun e => absurd e (hb c c' hc).2⟩
      · exact ⟨fun e => absurd e.symm (hb d d' hd).1, fun e => absurd e.symm (hb d d' hd).2⟩
      · exact ⟨fun _ => rfl, fun _ => rfl⟩ }

theorem le_pairBodies (K : Correspondence O) (b b' : Nat) (e : Expr)
    (hb : ∀ c c', K.body c c' → c ≠ b ∧ c' ≠ b') : K.Le (K.pairBodies b b' e hb) :=
  ⟨fun _ _ h => h, fun _ _ h => .inl h, fun _ _ h => .inl h, .refl _, .refl _⟩

/-- Relies on every binding of two stores. -/
def pin (K : Correspondence O) (s s' : Store) : Correspondence O :=
  { K with left := K.left.pin s, right := K.right.pin s' }

/-- Puts a veil before a frame of the run on the left. -/
def hangLeft (K : Correspondence O) (g f : FrameId) (ha : ¬ O.apart g) : Correspondence O :=
  { K with
    left := K.left.hang g f
    apart := by
      intro k hk
      refine ⟨(K.apart k hk).1, fun j hv => ?_⟩
      rcases hv with hv | ⟨rfl, -⟩
      · exact (K.apart k hk).2 j hv
      · exact ha hk }

/-- Puts a veil before a frame of the run on the right. -/
def hangRight (K : Correspondence O) (g f : FrameId) : Correspondence O :=
  { K with right := K.right.hang g f }

theorem le_hangLeft (K : Correspondence O) (g f : FrameId) (ha : ¬ O.apart g) :
    K.Le (K.hangLeft g f ha) :=
  ⟨fun _ _ h => h, fun _ _ h => h, fun _ _ h => h, Side.le_hang _ g f, .refl _⟩

theorem le_hangRight (K : Correspondence O) (g f : FrameId) : K.Le (K.hangRight g f) :=
  ⟨fun _ _ h => h, fun _ _ h => h, fun _ _ h => h, .refl _, Side.le_hang _ g f⟩

namespace Stores

/-! ## §2. Frames -/

theorem content_mono (h : K.Stores s s') (hK : K.Le K') (slot : SlotId) :
    Option.Rel K'.Values (s.content slot) (s'.content slot) :=
  optionRel_mono (fun _ _ hv => hv.mono (leaves_le hK)) (h.content slot)

theorem unpaired_new (h : K.Stores s s') {g g' : FrameId} (hg : K.frame g g') :
    g ≠ s.frames.size ∧ g' ≠ s'.frames.size :=
  ⟨Nat.ne_of_lt (h.frame_lt g g' hg).1, Nat.ne_of_lt (h.frame_lt g g' hg).2⟩

/-- A new frame is not one that is left alone. -/
theorem not_apart_new (h : K.Stores s s') : ¬ O.apart s.frames.size :=
  fun ha => Nat.lt_irrefl _ (h.backdrop.apart_lt ha)

/-- The correspondence in which new frames are a pair. -/
def opened (h : K.Stores s s') : Correspondence O :=
  K.pair s.frames.size s'.frames.size (fun _ _ hg => h.unpaired_new hg) h.not_apart_new

theorem le_opened (h : K.Stores s s') : K.Le h.opened :=
  le_pair _ _ _ _ _

/-- Names may be bound in new frames. -/
theorem works_opened (h : K.Stores s s') : h.opened.Works s.frames.size s'.frames.size where
  frame := .inr ⟨rfl, rfl⟩
  left ha hf := Nat.lt_irrefl _ (h.backdrop.left_lt ha _ hf)
  right ha hf := Nat.lt_irrefl _ (h.backdrop.right_lt ha _ hf)

/-- Both runs open a frame. -/
theorem newFrame (h : K.Stores s s') : h.opened.Stores s.newFrame.2 s'.newFrame.2 := by
  refine ⟨?_, ?_, h.slots_size, ?_, ?_, ?_, ?_⟩
  · rintro f f' (hf | ⟨rfl, rfl⟩)
    · have hlt := h.frame_lt f f' hf
      rw [frames_size_newFrame, frames_size_newFrame]
      exact ⟨Nat.lt_succ_of_lt hlt.1, Nat.lt_succ_of_lt hlt.2⟩
    · rw [frames_size_newFrame, frames_size_newFrame]
      exact ⟨Nat.lt_succ_self _, Nat.lt_succ_self _⟩
  · rintro f f' (hf | ⟨rfl, rfl⟩)
    · rw [frame_newFrame, frame_newFrame]
      exact h.frame_eq f f' hf
    · rw [frame_newFrame_size, frame_newFrame_size]
  · intro slot
    rw [content_newFrame, content_newFrame]
    exact h.content_mono h.le_opened slot
  · refine (h.left.pair ?_).newFrame
    rintro f ⟨f', hf | ⟨rfl, -⟩⟩
    · exact .inl ⟨f', hf⟩
    · exact .inr (Nat.le_refl _)
  · refine (h.right.pair ?_).newFrame
    rintro f' ⟨f, hf | ⟨-, rfl⟩⟩
    · exact .inl ⟨f, hf⟩
    · exact .inr (Nat.le_refl _)
  · exact h.backdrop.later (by simp) (by simp) (fun _ f _ => frame_newFrame s f)
      (fun _ f _ => frame_newFrame s' f) fun {f} _ => frame_newFrame s f

/-- The run on the left hangs a veil. -/
theorem hangLeft (h : K.Stores s s') {f : FrameId} {slots : List (String × SlotId)}
    (hslots : ∀ b ∈ slots, K.left.pinned f b.1 b.2) :
    (K.hangLeft s.frames.size f h.not_apart_new).Stores
      (s.newFrame.2.bindSlots s.frames.size slots) s' := by
  have hold : ∀ g, g ≠ s.frames.size →
      (s.newFrame.2.bindSlots s.frames.size slots).frame g = s.frame g := by
    intro g hg
    rw [frame_bindSlots_of_ne hg, frame_newFrame]
  refine ⟨?_, ?_, ?_, ?_, ?_, h.right, ?_⟩
  · intro g g' hg
    have hlt := h.frame_lt g g' hg
    rw [frames_size_bindSlots, frames_size_newFrame]
    exact ⟨Nat.lt_succ_of_lt hlt.1, hlt.2⟩
  · intro g g' hg
    rw [hold g (h.unpaired_new hg).1]
    exact h.frame_eq g g' hg
  · rw [slots_bindSlots, slots_newFrame]
    exact h.slots_size
  · intro slot
    unfold Store.content
    rw [slots_bindSlots, slots_newFrame]
    exact h.content_mono (le_hangLeft _ _ _ _) slot
  · refine h.left.hang ?_ hslots
    rintro g ⟨g', hg⟩
    exact (h.frame_lt g g' hg).1
  · refine h.backdrop.later (by simp) (Nat.le_refl _) (fun ha f hf => hold f ?_)
      (fun _ _ _ => rfl) fun {f} ha => hold f ?_
    · exact Nat.ne_of_lt (h.backdrop.left_lt ha f hf)
    · exact Nat.ne_of_lt (h.backdrop.apart_lt ha)

/-- The run on the right hangs a veil. -/
theorem hangRight (h : K.Stores s s') {f : FrameId} {slots : List (String × SlotId)}
    (hslots : ∀ b ∈ slots, K.right.pinned f b.1 b.2) :
    (K.hangRight s'.frames.size f).Stores s (s'.newFrame.2.bindSlots s'.frames.size slots) := by
  have hold : ∀ g, g ≠ s'.frames.size →
      (s'.newFrame.2.bindSlots s'.frames.size slots).frame g = s'.frame g := by
    intro g hg
    rw [frame_bindSlots_of_ne hg, frame_newFrame]
  refine ⟨?_, ?_, ?_, ?_, h.left, ?_, ?_⟩
  · intro g g' hg
    have hlt := h.frame_lt g g' hg
    rw [frames_size_bindSlots, frames_size_newFrame]
    exact ⟨hlt.1, Nat.lt_succ_of_lt hlt.2⟩
  · intro g g' hg
    rw [hold g' (h.unpaired_new hg).2]
    exact h.frame_eq g g' hg
  · rw [slots_bindSlots, slots_newFrame]
    exact h.slots_size
  · intro slot
    unfold Store.content
    rw [slots_bindSlots, slots_newFrame]
    exact h.content_mono (le_hangRight _ _ _) slot
  · refine h.right.hang ?_ hslots
    rintro g' ⟨g, hg⟩
    exact (h.frame_lt g g' hg).2
  · exact h.backdrop.later (Nat.le_refl _) (by simp) (fun _ _ _ => rfl)
      (fun ha f hf => hold f (Nat.ne_of_lt (h.backdrop.right_lt ha f hf))) fun _ => rfl

/-- From now on every binding is relied on. -/
theorem le_pin (h : K.Stores s s') : K.Le (K.pin s s') :=
  ⟨fun _ _ hf => hf, fun _ _ hb => hb, fun _ _ he => he, h.left.le_pin, h.right.le_pin⟩

theorem pin (h : K.Stores s s') : (K.pin s s').Stores s s' :=
  ⟨h.frame_lt, h.frame_eq, h.slots_size, h.content_mono h.le_pin, h.left.pin, h.right.pin,
    h.backdrop⟩

/-- Bodies do not matter for stores. -/
theorem pairBodies (h : K.Stores s s') {b b' : Nat} {e : Expr}
    (hb : ∀ c c', K.body c c' → c ≠ b ∧ c' ≠ b') : (K.pairBodies b b' e hb).Stores s s' :=
  ⟨h.frame_lt, h.frame_eq, h.slots_size, h.content_mono (le_pairBodies _ _ _ _ _), h.left,
    h.right, h.backdrop⟩

/-! ## §3. Slots and bindings -/

/-- The same slot is filled on both sides. -/
theorem fill (h : K.Stores s s') (slot : SlotId) {v v' : Value} (hv : K.Values v v') :
    K.Stores (s.fill slot v) (s'.fill slot v') := by
  refine ⟨h.frame_lt, h.frame_eq, ?_, ?_, h.left.of_frames_eq rfl, h.right.of_frames_eq rfl,
    h.backdrop.of_frames_eq rfl rfl⟩
  · rw [slots_size_fill, slots_size_fill]
    exact h.slots_size
  · intro t
    by_cases hlt : slot < s.slots.size
    · rw [content_fill hlt, content_fill (h.slots_size ▸ hlt)]
      split
      · exact .some hv
      · exact h.content t
    · -- a slot that is not there takes no value
      have hle := Nat.le_of_not_lt hlt
      have hs : s.fill slot v = s := by
        unfold Store.fill
        rw [Array.setIfInBounds_eq_of_size_le hle]
      have hs' : s'.fill slot v' = s' := by
        unfold Store.fill
        rw [Array.setIfInBounds_eq_of_size_le (h.slots_size ▸ hle)]
      rw [hs, hs']
      exact h.content t

theorem newSlot (h : K.Stores s s') {c c' : Option Value} (hc : Option.Rel K.Values c c') :
    K.Stores (s.newSlot c).2 (s'.newSlot c').2 := by
  refine ⟨h.frame_lt, h.frame_eq, ?_, ?_, h.left.of_frames_eq rfl, h.right.of_frames_eq rfl,
    h.backdrop.of_frames_eq rfl rfl⟩
  · rw [slots_size_newSlot, slots_size_newSlot, h.slots_size]
  · intro t
    rw [content_newSlot, content_newSlot, h.slots_size]
    split
    · exact hc
    · exact h.content t

theorem newSlots (h : K.Stores s s') (names : List String) :
    (s.newSlots names).1 = (s'.newSlots names).1 ∧
      K.Stores (s.newSlots names).2 (s'.newSlots names).2 := by
  refine ⟨?_, ?_⟩
  · rw [newSlots_fst, newSlots_fst, h.slots_size]
  · induction names generalizing s s' with
    | nil => exact h
    | cons name names ih => exact ih (h.newSlot .none)

/-- Paired frames stay the only ones that belong together when both get the same binding. -/
theorem frame_bindSlot (h : K.Stores s s') {f f' g g' : FrameId} (hf : K.frame f f')
    (hg : K.frame g g') (name : String) (slot : SlotId) :
    (s.bindSlot f name slot).frame g = (s'.bindSlot f' name slot).frame g' := by
  have hiff := K.frame_inj g g' f f' hg hf
  by_cases hgf : g = f
  · have hgf' := hiff.1 hgf
    subst hgf hgf'
    rw [frame_bindSlot_self (h.frame_lt g g' hg).1, frame_bindSlot_self (h.frame_lt g g' hg).2,
      h.frame_eq g g' hg]
  · have hgf' : g' ≠ f' := fun e => hgf (hiff.2 e)
    rw [frame_bindSlot_of_ne hgf, frame_bindSlot_of_ne hgf']
    exact h.frame_eq g g' hg

/-- The backdrop stays as it is when names are bound in paired frames outside of it. -/
theorem backdrop_of_works (h : K.Stores s s') {f f' : FrameId} (hf : K.Works f f') {t t' : Store}
    (hsize : t.frames.size = s.frames.size) (hsize' : t'.frames.size = s'.frames.size)
    (hold : ∀ g, g ≠ f → t.frame g = s.frame g)
    (hold' : ∀ g, g ≠ f' → t'.frame g = s'.frame g) : O.Holds t t' := by
  refine h.backdrop.later (Nat.le_of_eq hsize.symm) (Nat.le_of_eq hsize'.symm) ?_ ?_ ?_
  · intro B B' ha g hg
    refine hold g ?_
    rintro rfl
    exact hf.left ha hg
  · intro B B' ha g hg
    refine hold' g ?_
    rintro rfl
    exact hf.right ha hg
  · intro g hg
    refine hold g ?_
    rintro rfl
    exact (K.apart g hg).1 f' hf.frame

/-- Paired frames get values for one name. -/
theorem bind (h : K.Stores s s') {f f' : FrameId} (hw : K.Works f f') (name : String)
    {v v' : Value} (hv : K.Values v v') : K.Stores (s.bind f name v) (s'.bind f' name v') := by
  have hf := hw.frame
  have hslot : s.slotIn? f name = s'.slotIn? f' name := by
    unfold slotIn?
    rw [h.frame_eq f f' hf]
  cases hb : s.slotIn? f name with
  | some slot =>
    rw [bind_of_some hb, bind_of_some (hslot ▸ hb)]
    exact h.fill slot hv
  | none =>
    have hleft := h.left.bind ⟨f', hf⟩ name v
    have hright := h.right.bind ⟨f, hf⟩ name v'
    have hback : O.Holds (s.bind f name v) (s'.bind f' name v') :=
      h.backdrop_of_works hw (by simp) (by simp) (fun _ hg => frame_bind_of_ne hg)
        fun _ hg => frame_bind_of_ne hg
    rw [bind_of_none hb] at hleft hback ⊢
    rw [bind_of_none (hslot ▸ hb)] at hright hback ⊢
    have hnew := h.newSlot (.some hv)
    refine ⟨?_, ?_, ?_, ?_, hleft, hright, hback⟩
    · intro g g' hg
      rw [frames_size_bindSlot, frames_size_bindSlot]
      exact hnew.frame_lt g g' hg
    · intro g g' hg
      rw [h.slots_size]
      exact hnew.frame_bindSlot hf hg name _
    · rw [slots_bindSlot, slots_bindSlot]
      exact hnew.slots_size
    · intro t
      rw [content_bindSlot, content_bindSlot]
      exact hnew.content t

theorem bindAll (h : K.Stores s s') {f f' : FrameId} (hf : K.Works f f')
    {bs bs' : List (String × Value)} (hbs : TableLike K.Values bs bs') :
    K.Stores (s.bindAll f bs) (s'.bindAll f' bs') := by
  induction hbs generalizing s s' with
  | nil => exact h
  | @cons b b' bs bs' hb _ ih =>
    obtain ⟨name, v⟩ := b
    obtain ⟨name', v'⟩ := b'
    obtain ⟨rfl, hv⟩ := hb
    unfold Store.bindAll
    exact ih (h.bind hf name hv)

/-- Paired frames without bindings are given the same ones. -/
theorem bindSlots (h : K.Stores s s') {f f' : FrameId} (hw : K.Works f f')
    (hempty : s.frame f = []) (bs : List (String × SlotId)) :
    K.Stores (s.bindSlots f bs) (s'.bindSlots f' bs) := by
  have hf := hw.frame
  have hleft := h.left.bindSlots ⟨f', hf⟩ hempty bs
  have hright := h.right.bindSlots ⟨f, hf⟩ (h.frame_eq f f' hf ▸ hempty) bs
  have hframes : ∀ g g', K.frame g g' →
      (s.bindSlots f bs).frame g = (s'.bindSlots f' bs).frame g' := by
    intro g g' hg
    have hiff := K.frame_inj g g' f f' hg hf
    by_cases hgf : g = f
    · have hgf' := hiff.1 hgf
      subst hgf hgf'
      have heq := h.frame_eq g g' hg
      obtain ⟨hlt, hlt'⟩ := h.frame_lt g g' hg
      clear h hleft hright hempty hw
      induction bs generalizing s s' with
      | nil => exact heq
      | cons b bs ih =>
        obtain ⟨name, slot⟩ := b
        unfold Store.bindSlots
        refine ih ?_ (by simpa using hlt) (by simpa using hlt')
        rw [frame_bindSlot_self hlt, frame_bindSlot_self hlt', heq]
    · have hgf' : g' ≠ f' := fun e => hgf (hiff.2 e)
      rw [frame_bindSlots_of_ne hgf, frame_bindSlots_of_ne hgf']
      exact h.frame_eq g g' hg
  refine ⟨?_, hframes, ?_, ?_, hleft, hright, h.backdrop_of_works hw (by simp) (by simp)
    (fun _ hg => frame_bindSlots_of_ne hg bs) fun _ hg => frame_bindSlots_of_ne hg bs⟩
  · intro g g' hg
    rw [frames_size_bindSlots, frames_size_bindSlots]
    exact h.frame_lt g g' hg
  · rw [slots_bindSlots, slots_bindSlots]
    exact h.slots_size
  · intro slot
    unfold Store.content
    rw [slots_bindSlots, slots_bindSlots]
    exact h.content slot

end Stores

end Correspondence

end TinyLisp
