import TinyLisp.Proofs.Ownership.Stage
import TinyLisp.Proofs.Region.Kept

/-!
# Every evaluation keeps owners what they are

Stages of ownership, as an invariant. A failure leaves behind a world of some later stage: what
owners there are and what they bind is sound at every moment, not only where evaluations end.
-/

namespace TinyLisp

open Ownership (Stage)

/-! ## §1. The invariant -/

/-- The invariant of owners. -/
def Invariant.ownership : Invariant where
  Stage := Ownership.Stage
  order := Ownership.Stage.inTime
  Holds K w := K.world = w ∧ K.Sound
  Left K w := ∃ K', K.Le K' ∧ K'.world = w ∧ K'.Sound
  Node K v := K.Node v
  Frame _ _ := True
  Works K f := K.owns f
  Complete K f := f < K.world.store.frames.size ∧ K.owns f ∧ ∀ name slot,
    K.world.store.slotIn? f name = some slot → (K.world.store.content slot).isSome
  Top _ := True
  Filling K K' f _ := K.Le K' ∧ K'.owns f
  hollow := True
  lax := False

namespace Invariant

variable {K K' : ownership.Stage} {w : World}

/-- A later stage, when the world is as it says. -/
theorem later_owned (hK : K.Le K') (h : Stage.Sound K')
    {P : ownership.Stage → Prop} (hP : P K') : ownership.Later K K'.world P :=
  ⟨K', hK, ⟨rfl, h⟩, hP⟩

/-- Tags, fresh names and text do not matter to owners. -/
theorem later_untouched (hw : ownership.Holds K w) (tag : Nat) (gensym : Gensym)
    (output : String) {P : ownership.Stage → Prop}
    (hP : ∀ w', w'.store = w.store → P ⟨w', K.owns⟩) :
    ownership.Later K { w with nextTag := tag, gensym := gensym, output := output } P := by
  obtain ⟨rfl, h⟩ := hw
  have haside := h.aside
    (w := { K.world with nextTag := tag, gensym := gensym, output := output }) rfl rfl .inl
  exact later_owned haside.1 haside.2 (hP _ rfl)

theorem call_ownership (c : Closure) :
    ownership.Runs K (fun K' inner => ownership.Active K' inner)
      (Eval.callScope c) (Eval.callScope c) := by
  unfold Eval.callScope
  cases c.captures with
  | scope =>
    refine .change fun w hw => ⟨_, _, rfl, ?_⟩
    obtain ⟨rfl, h⟩ := hw
    obtain ⟨hle, hsound⟩ := h.withFrame
    refine later_owned hle hsound ⟨fun _ _ => trivial, ?_, fun _ => trivial⟩
    rintro _ ⟨rfl⟩
    exact .inr rfl
  | table bs =>
    refine .change fun w hw => ⟨_, _, rfl, ?_⟩
    obtain ⟨rfl, h⟩ := hw
    -- the frame of the table shares slots; the frame of the parameters inside it is an owner
    obtain ⟨hle₁, h₁⟩ := h.shareSlots bs
    obtain ⟨hle₂, h₂⟩ := h₁.withFrame
    refine Later.since hle₁ (later_owned hle₂ h₂ ⟨fun _ _ => trivial, ?_, fun _ => trivial⟩)
    rintro _ ⟨rfl⟩
    exact .inr rfl

theorem kept_ownership : ownership.Kept where
  node_mono hK h := Stage.Node.later h hK
  frame_mono _ h := h
  works_mono hK h := hK.owns h
  complete_mono := by
    intro K K' f hK h
    exact ⟨Nat.lt_of_lt_of_le h.1 hK.grows.store.frames_le, hK.owns h.2.1,
      hK.grows.store.filled_frame h.1 h.2.2⟩
  top_mono _ h := h
  left_of_later := by
    rintro K K' w hK ⟨K'', hK', hw⟩
    exact ⟨K'', hK.trans hK', hw⟩
  left_of_holds h := ⟨_, Stage.inTime.le_refl _, h⟩
  frame_of_works _ := trivial
  top_of_root _ _ := trivial
  plain h := Stage.node_of_plain h
  pair hw _ _ := later_untouched hw _ _ _ fun _ _ => trivial
  record _ _ hw _ _ := later_untouched hw _ _ _ fun _ _ => trivial
  updated _ _ hw _ _ := later_untouched hw _ _ _ fun _ _ => trivial
  form := by
    intro K w form hw hform
    refine later_untouched hw _ _ _ fun w' _ => ?_
    exact hform.tag_every (fun _ hu => Stage.node_of_plain hu) (fun _ _ _ => trivial) _
  gensym _ hw := later_untouched hw _ _ _ fun _ _ => trivial
  output _ hw := later_untouched hw _ _ _ fun _ _ => trivial
  closure := by
    rintro K _ strategy name params body scope ⟨rfl, h⟩ _ hb
    obtain ⟨hle, hsound⟩ := h.push hb
    exact later_owned hle hsound trivial
  expander := by
    rintro K _ name params body scope ⟨rfl, h⟩ _ hb
    obtain ⟨hle, hsound⟩ := h.push hb
    exact later_owned hle hsound trivial
  closure_body := by
    rintro K _ c ⟨rfl, h⟩ _
    exact h.getD trivial c.id
  expander_body := by
    rintro K _ m ⟨rfl, h⟩ _
    exact h.getD trivial m.id
  expander_scope _ := fun _ _ => trivial
  call := by
    intro K c _
    exact call_ownership c
  extend := by
    rintro K _ ⟨rfl, h⟩
    obtain ⟨hle, hsound⟩ := h.withFrame
    refine later_owned hle hsound ⟨.inr rfl, hsound.frames (.inr rfl), .inr rfl, ?_⟩
    intro name slot hslot
    exact absurd ((Store.slotIn?_newFrame_size _ name).symm.trans hslot) (by simp)
  bind := by
    rintro K _ f name v ⟨rfl, h⟩ hf hv
    obtain ⟨hle, hsound⟩ := h.bind hf name hv
    exact later_owned hle hsound trivial
  lookup := by
    rintro K _ scope name v ⟨rfl, h⟩ _ hv _
    exact h.lookupUpTo trivial name.length hv
  filling := by
    rintro K _ scope names ⟨rfl, h⟩ _
    obtain ⟨hle, hsound⟩ := h.withSlots names
    exact ⟨K.withSlots names, ⟨hle, .inr rfl⟩, rfl, hsound⟩
  filling_later h hK := ⟨Stage.inTime.le_trans _ _ _ h.1 hK, hK.owns h.2⟩
  filling_node h hv := Stage.Node.later hv h.1
  filling_frame _ h := h
  filling_works h := h.2
  fill := by
    rintro K K' _ f slot slots v ⟨hK, hf⟩ ⟨rfl, h⟩ hv
    obtain ⟨hle, hsound⟩ := h.fill slot hv
    exact ⟨_, ⟨Stage.inTime.le_trans _ _ _ hK hle, hf⟩, ⟨rfl, hsound⟩, id⟩
  filled h hw := ⟨_, h.1, hw, h.2, id⟩
  unfilled h hleft := by
    obtain ⟨K'', hK', hw⟩ := hleft
    exact ⟨K'', Stage.inTime.le_trans _ _ _ h.1 hK', hw⟩
  module := by
    intro K w f rest name exports hw _ hcomplete hbound
    obtain ⟨rfl, -⟩ := id hw
    -- a frame that is complete is an owner with a value for every name it binds
    refine later_untouched hw _ _ _ fun w' hstore => ⟨f, rfl, hcomplete.2.1, ?_⟩
    intro n hn
    obtain ⟨slot, hslot⟩ := Option.isSome_iff_exists.1 (hbound n hn)
    show w'.store.Assigns f n
    rw [hstore]
    exact ⟨slot, hslot, hcomplete.2.2 n slot hslot⟩
  shown := by
    rintro K _ m name v ⟨rfl, h⟩ _ _ hv
    exact h.lookupUpTo trivial name.length hv
  register := by
    rintro K _ m ⟨rfl, h⟩ _ hm
    have hknown : ∀ {m'}, (K.world.library.register m).Knows m' →
        K.world.library.Knows m' ∨ Stage.Node K (.module m') := by
      intro m' hm'
      rcases Library.knows_register hm' with hold | rfl
      · exact .inl hold
      · exact .inr hm
    have haside := h.aside (w := { K.world with library := K.world.library.register m }) rfl rfl
      hknown
    exact later_owned haside.1 haside.2 trivial
  registered := by
    rintro K _ name m ⟨rfl, h⟩ hm
    exact h.library (.inl ⟨name, hm⟩)
  kept := by
    rintro K _ p m ⟨rfl, h⟩ hm
    exact h.library (.inr ⟨p, hm⟩)
  file := by
    rintro K _ p ⟨rfl, h⟩ _ _
    have hfile := h.aside (w := { K.world with library := K.world.library.enter p }) rfl rfl .inl
    refine ⟨⟨_, K.owns⟩, ⟨rfl, hfile.2⟩, h.root, ?_, ?_⟩
    · rintro K₂ _ m hle ⟨rfl, h₂⟩ _ hm
      have hknown : ∀ {m'}, ((K₂.world.library.leave p).keep p m).Knows m' →
          K₂.world.library.Knows m' ∨ Stage.Node K₂ (.module m') := by
        intro m' hm'
        rcases Library.knows_keep hm' with hold | rfl
        · exact .inl hold
        · exact .inr hm
      have hkeep := h₂.aside
        (w := { K₂.world with library := (K₂.world.library.leave p).keep p m }) rfl rfl hknown
      have hall := Stage.inTime.le_trans _ _ _ hfile.1 hle
      have hm₃ : Stage.Node ⟨_, K₂.owns⟩ (.module m) := Stage.Node.later (K := K₂) hm hkeep.1
      exact Later.since hall (later_owned hkeep.1 hkeep.2 ⟨hm₃, id⟩)
    · rintro w₂ ⟨K₂, hle, rfl, h₂⟩
      have hleave := h₂.aside (w := { K₂.world with library := K₂.world.library.leave p }) rfl rfl
        .inl
      have hall := Stage.inTime.le_trans _ _ _ hfile.1 hle
      exact ⟨_, Stage.inTime.le_trans _ _ _ hall hleave.1, rfl, hleave.2⟩

/-! ## §3. Beginnings -/

/-- In the world that a session begins with only the outermost frame owns anything, and that
nothing yet. -/
theorem sound_unbound : Stage.Sound ⟨World.initial, fun f => f = rootFrame⟩ := by
  refine ⟨⟨?_, ?_, ?_⟩, World.Every.initial _, rfl, ?_⟩
  · rintro f rfl
    exact Nat.zero_lt_one
  · intro f name slot _ hs
    exact absurd (hs.symm.trans (World.slotIn?_initial f name)) (by simp)
  · intro f g name other slot _ _ hs _
    exact absurd (hs.symm.trans (World.slotIn?_initial f name)) (by simp)
  · exact fun hm => absurd hm Library.not_knows_initial

theorem starts_ownership : ownership.Starts where
  start := by
    let K : ownership.Stage := ⟨World.initial, fun f => f = rootFrame⟩
    have hw : ownership.Holds K World.initial := ⟨rfl, sound_unbound⟩
    exact kept_ownership.start hw rfl
  recover := by
    rintro K w hroot ⟨K', hK, hw⟩
    exact ⟨K', hw, hK.owns hroot⟩

end Invariant

/-! ## §4. The worlds of sessions -/

/-- The worlds that there can be: of a session at top level, and those in which tasks are
performed. -/
inductive World.Arises (ctx : Context) : World → Prop
  | top {s : Session} (h : s.Arises ctx) : Arises ctx s.world
  | moment {n : Nat} {t : Task} {w : World} (h : Occurs ctx n t w) : Arises ctx w

/-- In all of them owners are sound. -/
theorem World.Arises.sound {ctx : Context} {w : World} (h : w.Arises ctx) :
    ∃ K : Stage, K.world = w ∧ K.Sound := by
  cases h with
  | top h =>
    obtain ⟨K, hw, -⟩ := Invariant.kept_ownership.arises Invariant.starts_ownership h
    exact ⟨K, hw⟩
  | moment h =>
    obtain ⟨K, hw, -⟩ :=
      Invariant.kept_ownership.occurs Invariant.starts_ownership (fun hlax => hlax) h
    exact ⟨K, hw⟩

end TinyLisp
