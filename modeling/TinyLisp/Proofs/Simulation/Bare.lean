import TinyLisp.Proofs.Simulation.Guarded

/-!
# Leaving a backdrop behind

When all that may be kept is free of the backdrop and is alike for all names, the backdrop can be
left behind: what belongs together before it belongs together before the bare one. From then on its
scopes are scopes like all others.
-/

namespace TinyLisp

/-- A backdrop that nothing keeps and before which names mean the same. -/
structure Backdrop.Passing (O : Backdrop) : Prop where
  held : ¬ O.held
  own : ∀ scope, ¬ O.own scope

namespace Correspondence

variable {O : Backdrop} {K K' : Correspondence O} {V : View} {N : String → Prop} {p q : Prop}
variable {scope scope' : Scope}

/-! ## §1. Scopes -/

/-- The same frames, bodies and bindings before the bare backdrop. -/
def bare (K : Correspondence O) : Correspondence Backdrop.bare :=
  { K with apart := fun _ h => h.elim }

theorem le_bare (hK : K.Le K') : K.bare.Le K'.bare :=
  ⟨hK.frame, hK.body, hK.code, hK.left, hK.right⟩

theorem Along.bare (hs : K.Along p N scope scope') (hp : ¬ p) : K.bare.Along q N scope scope' := by
  induction hs with
  | nil => exact .nil
  | aside hh _ _ => exact absurd hh hp
  | cons hf hN _ ih => exact .cons hf hN ih
  | left hv _ ih => exact .left hv ih
  | right hv _ ih => exact .right hv ih

variable (hO : O.Passing)

include hO

theorem Kept.bare (hs : K.Kept V scope scope') : K.bare.Kept V scope scope' :=
  ⟨⟨hs.scopes.along.bare hO.held, hs.scopes.bound, .inl (hs.scopes.own.resolve_right (hO.own _))⟩,
    hs.left_ne, hs.right_ne⟩

/-! ## §2. Values and worlds -/

theorem leaves_le_bare : K.leaves.Le K.bare.leaves where
  closure c c' hc := by
    obtain ⟨V, e, hs, hcode, hcov⟩ := hc.scope
    exact ⟨hc.id, hc.name, hc.params, ⟨V, e, hs.bare hO, hcode, hcov⟩, hc.left, hc.right⟩
  expander m m' hm := by
    obtain ⟨V, e, hs, hcode, hcov⟩ := hm.scope
    exact ⟨hm.id, hm.name, hm.params, V, e, hs.bare hO, hcode, hcov⟩
  module m m' hm := by
    obtain ⟨V, hs, hreads⟩ := hm.scope
    exact ⟨hm.id, hm.name, hm.exports, V, hs.bare hO, hreads⟩

theorem Values.bare {v v' : Value} (h : K.Values v v') : K.bare.Values v v' :=
  Value.Like.mono (leaves_le_bare hO) h

theorem Stores.bare {s s' : Store} (h : K.Stores s s') : K.bare.Stores s s' :=
  ⟨h.frame_lt, h.frame_eq, h.slots_size,
    fun slot => optionRel_mono (fun _ _ hv => Values.bare hO hv) (h.content slot), h.left, h.right,
    Backdrop.holds_bare s s'⟩

theorem Worlds.bare {w w' : World} (h : K.Worlds w w') : K.bare.Worlds w w' := by
  have hle := (leaves_le_bare hO (K := K)).module
  exact ⟨h.store.bare hO, h.body_lt, fun b b' hb => Expr.Like.mono (leaves_le_bare hO) (h.body b b' hb),
    h.code, h.nextTag, h.gensym,
    ⟨h.library.registry.mono hle, h.library.files.mono hle, h.library.loading⟩, h.output⟩

/-! ## §3. Frames that were left alone -/

omit hO

/-- The run on the right opens a frame, and an empty frame of the run on the left that nothing
belongs to becomes its partner. -/
theorem Stores.adopt {K : Correspondence Backdrop.bare} {s s' : Store} (h : K.Stores s s')
    {f : FrameId} (hlt : f < s.frames.size) (hempty : s.frame f = [])
    (hf : ∀ f', ¬ K.frame f f') (hveil : ∀ g, ¬ K.left.veil f g) :
    ∃ K', K.Le K' ∧ K'.Stores s s'.newFrame.2 ∧ K'.frame f s'.frames.size ∧
      (∀ b b', K'.body b b' → K.body b b') ∧ ∀ b e, K'.code b e → K.code b e := by
  have hnew : ∀ g g', K.frame g g' → g ≠ f ∧ g' ≠ s'.frames.size := by
    refine fun g g' hg => ⟨?_, (h.unpaired_new hg).2⟩
    rintro rfl
    exact hf g' hg
  have hK := le_pair K f s'.frames.size hnew fun ha => ha
  refine ⟨_, hK, ⟨?_, ?_, h.slots_size, ?_, ?_, ?_, Backdrop.holds_bare _ _⟩, .inr ⟨rfl, rfl⟩,
    fun _ _ hb => hb, fun _ _ he => he⟩
  · rintro g g' (hg | ⟨rfl, rfl⟩)
    · have hlt' := h.frame_lt g g' hg
      exact ⟨hlt'.1, by simpa using Nat.lt_succ_of_lt hlt'.2⟩
    · exact ⟨hlt, by simp⟩
  · rintro g g' (hg | ⟨rfl, rfl⟩)
    · rw [Store.frame_newFrame]
      exact h.frame_eq g g' hg
    · rw [hempty, Store.frame_newFrame_size]
  · intro slot
    rw [Store.content_newFrame]
    exact h.content_mono hK slot
  · refine ⟨h.left.pinned, h.left.veil_lt, ?_, h.left.veil_pinned⟩
    rintro g j hv ⟨g', hg | ⟨rfl, -⟩⟩
    · exact h.left.veil_unpaired g j hv ⟨g', hg⟩
    · exact hveil j hv
  · refine (h.right.pair ?_).newFrame
    rintro g' ⟨g, hg | ⟨-, rfl⟩⟩
    · exact .inl ⟨g, hg⟩
    · exact .inr (Nat.le_refl _)

end Correspondence

end TinyLisp
