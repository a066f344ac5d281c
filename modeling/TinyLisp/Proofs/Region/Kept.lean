import TinyLisp.Proofs.Region.Stage
import TinyLisp.Proofs.Invariant.Moment

/-!
# Every evaluation keeps to its region

Stages of work in a region, as an invariant. What a failure leaves behind is a world with some
public region; so after a failure work goes on at top level, in that region and with all that is
still to be made.
-/

namespace TinyLisp

open Region (Stage Public)
open Store (Confined)

/-! ## §1. The invariant -/

/-- The invariant of regions. -/
def Invariant.region : Invariant where
  Stage := Region.Stage
  order := Region.Stage.inTime
  Holds K w := K.world = w ∧ K.Sound
  Left _ w := (∃ R : Region, R.Public w) ∧ w.Clean
  Node K v := K.region.Node K.world v
  Frame K f := K.region.Frame K.world f
  Works K f := K.Works f
  Complete K f := f < K.world.store.frames.size ∧ ∀ name slot,
    K.world.store.slotIn? f name = some slot → (K.world.store.content slot).isSome
  Top K := K.waiting = none
  Filling K K' f slots := K.Filling K' f slots
  hollow := True
  lax := False

/-! ## §2. Libraries and forms -/

namespace Library

variable {l : Library} {m m' : Module}

theorem knows_register (h : (l.register m).Knows m') : l.Knows m' ∨ m' = m := by
  rcases h with ⟨name, hname⟩ | hfile
  · by_cases hn : name = m.name
    · rw [hn] at hname
      have hset : (l.registry.set m.name m).get? m.name = some m' := hname
      rw [Table.get?_set_self] at hset
      exact .inr (Option.some.inj hset).symm
    · have hset : (l.registry.set m.name m).get? name = some m' := hname
      rw [Table.get?_set_of_ne hn] at hset
      exact .inl (.inl ⟨name, hset⟩)
  · exact .inl (.inr hfile)

theorem knows_keep {p : Place} (h : ((l.leave p).keep p m).Knows m') : l.Knows m' ∨ m' = m := by
  rcases h with hname | ⟨q, hq⟩
  · exact .inl (.inl hname)
  · by_cases hp : q = p
    · rw [hp] at hq
      have hset : (l.files.set p m).get? p = some m' := hq
      rw [Table.get?_set_self] at hset
      exact .inr (Option.some.inj hset).symm
    · have hset : (l.files.set p m).get? q = some m' := hq
      rw [Table.get?_set_of_ne hp] at hset
      exact .inl (.inr ⟨q, hset⟩)

theorem not_knows_initial : ¬ World.initial.library.Knows m := by
  rintro (⟨name, hm⟩ | ⟨p, hm⟩)
  · cases hm
  · cases hm

end Library

/-- A datum with its tags has plain nodes and pairs only. -/
theorem Datum.tag_every {N : Value → Prop} (hplain : ∀ u, Value.Plain u → N u)
    (hpair : ∀ cell a d, N (.pair cell a d)) {v : Value} (h : Datum v) (n : Nat) :
    (v.tag n).1.Every N := by
  have hatom : ∀ {v : Value}, v.nodes = [v] → v.Plain → v.Every N :=
    fun hv hp => Value.every_atom hplain hv hp
  induction h generalizing n with
  | pair _ _ iha ihd => exact Value.every_pair.2 ⟨hpair _ _ _, iha _, ihd _⟩
  | wrapper w _ ih =>
    cases w with
    | quote => exact Value.every_quote.2 ⟨hplain _ trivial, ih n⟩
    | quasiquote => exact Value.every_quasiquote.2 ⟨hplain _ trivial, ih n⟩
    | unquote => exact Value.every_unquote.2 ⟨hplain _ trivial, ih n⟩
    | unquoteSplicing => exact Value.every_unquoteSplicing.2 ⟨hplain _ trivial, ih n⟩
  | _ => exact hatom rfl trivial

/-! ## §3. Files -/

namespace Region.Stage

variable {K K₂ : Stage} {w : World} {p : Place} {m : Module}

/-- The stage at which a file is evaluated: what is shared may be referred to, and what is made
from now on. -/
def ofFile (K : Stage) (p : Place) : Stage :=
  ⟨{ K.world with library := K.world.library.enter p }, K.shared.above K.world,
    K.shared.above K.world, none⟩

theorem Sound.ofFile (h : K.Sound) (p : Place) : (K.ofFile p).Sound := by
  have hpublic := h.shared.above
  exact ⟨⟨hpublic.closed.slot, hpublic.closed.content, hpublic.closed.body⟩,
    ⟨.inr, .inr, .inr⟩, fun hs => .inl (hpublic.filled hs), h.clean,
    ⟨⟨hpublic.closed.slot, hpublic.closed.content, hpublic.closed.body⟩, hpublic.root,
      hpublic.filled, hpublic.library⟩,
    .refl _, fun _ => rfl, fun hw => absurd rfl hw⟩

/-- When a file has been evaluated, what was made for it refers only to what was shared and to
what was made for it. The stage before goes on, one world later. -/
theorem Sound.closeFile (h : K.Sound) (hle : (K.ofFile p).Le K₂) (h₂ : K₂.Sound)
    (hconfined : Confined none K.world.store K₂.world.store)
    (hm : K₂.region.Node K₂.world (.module m)) :
    ∃ K₃, K.Le K₃ ∧
      K₃.world = { K₂.world with library := (K₂.world.library.leave p).keep p m } ∧
      K₃.Sound ∧ K₃.region.Node K₃.world (.module m) := by
  have hregion : K₂.region = K.shared.above K.world := hle.region
  have hpublic : (K.shared.above K.world).Public K₂.world := by
    rw [← hregion, ← h₂.top hle.waiting]
    exact h₂.shared
  rw [hregion] at hm
  have hinside : (K.shared.above K.world).Le K.region := by
    refine ⟨?_, ?_, ?_⟩
    · exact fun hf => hf.elim h.within.frames h.opens.frames
    · exact fun hs => hs.elim h.within.slots h.opens.slots
    · exact fun hid => hid.elim h.within.bodies h.opens.bodies
  let w : World := { K₂.world with library := (K₂.world.library.leave p).keep p m }
  have hknown : ∀ {m'}, w.library.Knows m' → (K.shared.above K.world).Node w (.module m') := by
    intro m' hm'
    rcases Library.knows_keep hm' with hold | rfl
    · exact hpublic.library hold
    · exact hm
  have hwpublic : (K.shared.above K.world).Public w :=
    ⟨⟨hpublic.closed.slot, hpublic.closed.content, hpublic.closed.body⟩, hpublic.root,
      hpublic.filled, hknown⟩
  have hg : K.world.Grows w :=
    ⟨hle.grows.store, hle.grows.bodies_le, fun hid => hle.grows.bodies_eq hid⟩
  have hgood : ∀ {v}, (K.shared.above K.world).Node w v → K.region.Node w v :=
    fun hv => hv.later hinside (.refl _)
  -- old frames, slots and bodies are as they were, and new ones belong to the file
  have hslot : ∀ {f name slot}, w.store.slotIn? f name = some slot →
      K.world.store.slotIn? f name = some slot ∨
        K.world.store.frames.size ≤ f ∧ (K.shared.above K.world).Slot w slot := by
    intro f name slot hs
    rcases Nat.lt_or_ge f K.world.store.frames.size with hlt | hge
    · refine .inl ?_
      have hs' : (K₂.world.store.frame f).get? name = some slot := hs
      rwa [hconfined.frame_eq f hlt (by simp)] at hs'
    · exact .inr ⟨hge, hwpublic.closed.slot (.inr hge) hs⟩
  have hc : K.Change w := by
    refine ⟨hg, ?_, ?_, ?_⟩
    · intro f name slot hs
      exact (hslot hs).imp_right fun hnew => hnew.2.later hinside (.refl _)
    · intro slot v hv
      rcases Nat.lt_or_ge slot K.world.store.slots.size with hlt | hge
      · have hv' : K₂.world.store.content slot = some v := hv
        rw [hconfined.content_eq slot hlt fun f hf => absurd hf (by simp)] at hv'
        exact .inl hv'
      · exact .inr ((hwpublic.closed.content (.inr hge) hv).mono fun _ hu => hgood hu)
    · intro id e he
      rcases Nat.lt_or_ge id K.world.bodies.size with hlt | hge
      · rw [hg.bodies_eq hlt] at he
        exact .inl he
      · exact .inr ((hwpublic.closed.body (.inr hge) he).mono fun _ hu => hgood hu)
  have hfilled : ∀ {slot}, K.region.Slot w slot →
      (w.store.content slot).isSome ∨ slot ∈ K.pending :=
    h.filled_later hg fun hge hs => hwpublic.filled ⟨.inr hge, hs.2⟩
  have hframe : ∀ {f}, K.region.Frame K.world f → K.region.Frame w f :=
    fun hf => hf.later (.refl _) hg
  have hmodule : K.region.Node w (.module m) := hgood hm
  cases htop : K.waiting with
  | none =>
    have hall : K.shared.above K.world = K.region := by
      have hshared := h.top htop
      unfold above
      rw [hshared]
      congr 1
      · exact funext fun f => propext ⟨fun hf => hf.elim id h.opens.frames, .inl⟩
      · exact funext fun slot => propext ⟨fun hs => hs.elim id h.opens.slots, .inl⟩
      · exact funext fun id => propext ⟨fun hid => hid.elim (fun hid => hid) h.opens.bodies, .inl⟩
    rw [hall] at hwpublic
    have hsound : Sound ⟨w, K.region, K.region, none⟩ := by
      refine h.after hc (fun hs => .inl (hwpublic.filled hs)) hwpublic (.refl _) (fun _ => rfl) ?_
      exact fun hw => absurd rfl hw
    refine ⟨⟨w, K.region, K.region, none⟩, ⟨hg, rfl, htop.symm, ?_, fun hw => absurd htop hw⟩, rfl,
      hsound, hmodule⟩
    exact fun hf => ⟨hframe hf.frame, fun hw => absurd rfl hw⟩
  | some slots =>
    have hwaits : K.waiting ≠ none := by simp [htop]
    have hbelow : ((K.shared.above K.world).below w).Le K.region :=
      ⟨fun hf => hinside.frames hf.1, fun hs => hinside.slots hs.1, fun hid => hinside.bodies hid.1⟩
    have hsound : Sound ⟨w, K.region, (K.shared.above K.world).below w, K.waiting⟩ :=
      h.after hc hfilled hwpublic.below hbelow (fun hw => absurd hw hwaits)
        fun _ => bounded_below _ w
    refine ⟨⟨w, K.region, (K.shared.above K.world).below w, K.waiting⟩, ⟨hg, rfl, rfl, ?_, ?_⟩, rfl,
      hsound, hmodule⟩
    · intro f hf
      obtain ⟨hnot, hslots⟩ := hf.hidden hwaits
      refine ⟨hframe hf.frame, fun _ => ⟨?_, ?_⟩⟩
      · exact fun hs => hs.1.elim hnot (Nat.not_le.2 hf.frame.2)
      · intro name slot hs hshared
        rcases hslot hs with hold | ⟨hge, -⟩
        · exact hshared.1.elim (hslots name slot hold)
            (Nat.not_le.2 (h.closed.slot hf.frame.1 hold).2)
        · exact absurd hf.frame.2 (Nat.not_lt.2 hge)
    · intro _ slot hlt hs
      exact hs.1.resolve_right (Nat.not_le.2 hlt)

end Region.Stage

/-! ## §4. The invariant is kept -/

namespace Invariant

variable {K : region.Stage} {w : World}

/-- A stage in a later world. -/
theorem later_moved (h : Region.Stage.Sound K) (hc : K.Change w) (hw : (K.moved w).Sound)
    {P : region.Stage → Prop} (hP : P (K.moved w)) : region.Later K w P :=
  ⟨K.moved w, h.le_moved hc.grows, ⟨rfl, hw⟩, hP⟩

/-- A stage in a world that differs in tags, fresh names and text only. -/
theorem later_aside (h : Region.Stage.Sound K) (tag : Nat) (gensym : Gensym) (output : String)
    {P : region.Stage → Prop}
    (hP : P (K.moved { K.world with nextTag := tag, gensym := gensym, output := output })) :
    region.Later K { K.world with nextTag := tag, gensym := gensym, output := output } P := by
  have haside := h.aside
    (w := { K.world with nextTag := tag, gensym := gensym, output := output }) rfl rfl rfl
  exact later_moved h haside.1 haside.2 hP

/-- The slots that a function captures are slots of its region. -/
theorem captures_slot {R : Region} (h : R.Closed w) (strategy : Strategy) {scope : Scope}
    (hs : ∀ f ∈ scope, R.Frame w f) (free : List String) :
    ∀ slot ∈ (w.store.captures strategy scope free).slots, R.Slot w slot := by
  intro slot hslot
  unfold Store.captures at hslot
  split at hslot
  · exact absurd hslot (by simp [Captures.slots])
  · exact absurd hslot (by simp [Captures.slots])
  · next f rest =>
    obtain ⟨b, hb, rfl⟩ := List.mem_map.1 hslot
    obtain ⟨name, -, hname⟩ := List.mem_filterMap.1 hb
    obtain ⟨t, ht, rfl⟩ := Option.map_eq_some_iff.1 hname
    exact h.slot (hs f (by simp)).1 ht

/-- A world with a public region and no placeholder, in which other files are being loaded. -/
theorem left_region {l : Library} (h : region.Left K w)
    (hl : ∀ {m}, l.Knows m → w.library.Knows m) : region.Left K { w with library := l } := by
  obtain ⟨⟨R, hR⟩, hclean⟩ := h
  exact ⟨⟨R, ⟨hR.closed.slot, hR.closed.content, hR.closed.body⟩, hR.root, hR.filled,
    fun hm => hR.library (hl hm)⟩, hclean⟩

theorem call_region {c : Closure} (hc : region.Node K (.closure c)) :
    region.Runs K (fun K' inner => region.Active K' inner) (Eval.callScope c)
      (Eval.callScope c) := by
  have hscope : ∀ f ∈ c.scope, K.region.Frame K.world f := hc.1
  unfold Eval.callScope
  cases hcap : c.captures with
  | scope =>
    refine .change fun w hw => ⟨_, _, rfl, ?_⟩
    obtain ⟨rfl, h⟩ := hw
    obtain ⟨hc', hsound, hworks⟩ := h.extend
    refine later_moved h hc' hsound ⟨?_, ?_, fun _ => trivial⟩
    · intro f hf
      rcases List.mem_cons.1 hf with rfl | hf
      · exact hworks.frame
      · exact (hscope f hf).later (.refl _) hc'.grows
    · rintro _ ⟨rfl⟩
      exact hworks
  | table bs =>
    refine .change fun w hw => ⟨_, _, rfl, ?_⟩
    obtain ⟨rfl, h⟩ := hw
    have hbs : ∀ b ∈ bs, K.region.Slot K.world b.2 := by
      intro b hb
      refine hc.2.1 b.2 ?_
      rw [hcap]
      exact List.mem_map_of_mem hb
    -- the frame of the captured slots, and then the frame of the parameters inside it
    obtain ⟨hc₁, h₁, hframe₁⟩ := h.newFrame bs hbs
    obtain ⟨hc₂, h₂, hworks⟩ := h₁.extend
    refine Later.since (h.le_moved hc₁.grows) (later_moved h₁ hc₂ h₂ ⟨?_, ?_, fun _ => trivial⟩)
    · intro f hf
      rcases List.mem_cons.1 hf with rfl | hf
      · exact hworks.frame
      · rcases List.mem_cons.1 hf with rfl | hf
        · exact hframe₁.later (.refl _) hc₂.grows
        · exact ((hscope f hf).later (.refl _) hc₁.grows).later (.refl _) hc₂.grows
    · rintro _ ⟨rfl⟩
      exact hworks

theorem kept_region : region.Kept where
  node_mono hK h := by
    obtain ⟨hg, hregion, -⟩ := hK
    have hlater := Region.Node.later h (.refl _) hg
    rwa [← hregion] at hlater
  frame_mono hK h := by
    obtain ⟨hg, hregion, -⟩ := hK
    have hlater := Region.Frame.later h (.refl _) hg
    rwa [← hregion] at hlater
  works_mono hK h := hK.works h
  complete_mono := by
    intro K K' f hK h
    exact ⟨Nat.lt_of_lt_of_le h.1 hK.grows.store.frames_le, hK.grows.store.filled_frame h.1 h.2⟩
  top_mono hK h := hK.waiting.trans h
  left_of_later _ h := h
  left_of_holds := by
    rintro K _ ⟨rfl, h⟩
    exact ⟨⟨K.shared, h.shared⟩, h.clean⟩
  frame_of_works h := h.frame
  top_of_root := by
    rintro K _ ⟨rfl, h⟩ hroot
    -- while slots wait no shared frame may be written to, and the outermost one is shared
    by_contra hw
    exact (hroot.hidden hw).1 h.shared.root.1
  plain h := Region.node_of_plain h
  pair := by
    rintro K _ a d ⟨rfl, h⟩ _ _
    refine later_aside h _ _ _ ?_
    trivial
  record := by
    rintro K _ name fields ⟨rfl, h⟩ _ _
    refine later_aside h _ _ _ ?_
    trivial
  updated := by
    rintro K _ cell name fields f v ⟨rfl, h⟩ _ _
    refine later_aside h _ _ _ ?_
    trivial
  form := by
    rintro K _ form ⟨rfl, h⟩ hform
    refine later_aside h _ _ _ ?_
    exact hform.tag_every (fun _ hu => Region.node_of_plain hu) (fun _ _ _ => trivial) _
  gensym := by
    rintro K _ stem ⟨rfl, h⟩
    refine later_aside h _ _ _ ?_
    trivial
  output := by
    rintro K _ text ⟨rfl, h⟩
    refine later_aside h _ _ _ ?_
    trivial
  closure := by
    rintro K _ strategy name params body scope ⟨rfl, h⟩ hs hb
    obtain ⟨hc, hsound⟩ := h.push hb
    refine later_moved h hc hsound ⟨?_, ?_, ?_⟩
    · exact fun f hf => (hs.knows f hf).later (.refl _) hc.grows
    · exact fun slot hslot =>
        (captures_slot h.closed strategy hs.knows _ slot hslot).later (.refl _) hc.grows
    · exact ⟨h.opens.bodies (Nat.le_refl _), by simp [Region.Stage.moved]⟩
  expander := by
    rintro K _ name params body scope ⟨rfl, h⟩ hs hb
    obtain ⟨hc, hsound⟩ := h.push hb
    refine later_moved h hc hsound ⟨?_, ?_⟩
    · exact fun f hf => (hs.knows f hf).later (.refl _) hc.grows
    · exact ⟨h.opens.bodies (Nat.le_refl _), by simp [Region.Stage.moved]⟩
  closure_body := by
    rintro K _ c ⟨rfl, h⟩ hc
    exact h.closed.getD hc.2.2.1
  expander_body := by
    rintro K _ m ⟨rfl, h⟩ hm
    exact h.closed.getD hm.2.1
  expander_scope h := h.1
  call h := call_region h
  extend := by
    rintro K _ ⟨rfl, h⟩
    obtain ⟨hc, hsound, hworks⟩ := h.extend
    refine later_moved h hc hsound ⟨hworks, hworks.frame.2, ?_⟩
    intro name slot hslot
    exact absurd ((Store.slotIn?_newFrame_size _ name).symm.trans hslot) (by simp)
  bind := by
    rintro K _ f name v ⟨rfl, h⟩ hf hv
    obtain ⟨hc, hsound⟩ := h.bind hf name hv
    exact later_moved h hc hsound trivial
  lookup := by
    rintro K _ scope name v ⟨rfl, h⟩ hs hv hne
    exact h.closed.lookup hs hv hne
  filling := by
    rintro K _ scope names ⟨rfl, h⟩ _
    obtain ⟨hfilling, hsound⟩ := h.open_filling names
    exact ⟨_, hfilling, rfl, hsound⟩
  filling_later h hK := h.later hK
  filling_node h hv := by
    have hlater := Region.Node.later hv (.refl _) h.grows
    rwa [← h.region] at hlater
  filling_frame h hf := by
    have hlater := Region.Frame.later hf (.refl _) h.grows
    rwa [← h.region] at hlater
  filling_works h := h.works
  fill := by
    rintro K K' _ f slot slots v hfilling ⟨rfl, h⟩ hv
    obtain ⟨hfilling', hsound⟩ := h.fill hfilling hv
    exact ⟨_, hfilling', ⟨rfl, hsound⟩, id⟩
  filled := by
    rintro K K' _ f hfilling ⟨rfl, h⟩
    obtain ⟨K'', hle, hworld, hsound, hworks⟩ := h.close_filling hfilling
    exact ⟨K'', hle, ⟨hworld, hsound⟩, hworks, id⟩
  unfilled _ h := h
  module := by
    rintro K _ f rest name exports ⟨rfl, h⟩ hs hcomplete hbound
    refine later_aside h _ _ _ ⟨hs.knows, ?_⟩
    intro n hn
    obtain ⟨slot, hslot⟩ := Option.isSome_iff_exists.1 (hbound n hn)
    exact ⟨f, rfl, slot, hslot, hcomplete.2 n slot hslot⟩
  shown := by
    rintro K _ m name v ⟨rfl, h⟩ hm hname hv
    obtain ⟨u, hu, hgood⟩ := h.closed.shown hm hname
    obtain rfl : u = v := Except.ok.inj (hu.symm.trans hv)
    exact hgood
  register := by
    rintro K _ m ⟨rfl, h⟩ htop hm
    -- names are registered at the top only, where no slots wait for their values
    have hc : K.Change { K.world with library := K.world.library.register m } :=
      Region.Stage.change_of_frames (.refl _) .inl (fun _ => rfl) rfl
    refine later_moved h hc (h.moved hc ?_ (fun hw => absurd htop hw) ?_) trivial
    · exact fun hge hslot => absurd hslot.2 (Nat.not_lt.2 hge)
    · intro m' hm'
      rcases Library.knows_register hm' with hold | rfl
      · exact .inl hold
      · exact .inr hm
  registered := by
    rintro K _ name m ⟨rfl, h⟩ hm
    exact (h.shared.library (.inl ⟨name, hm⟩)).later h.within (.refl _)
  kept := by
    rintro K _ p m ⟨rfl, h⟩ hm
    exact (h.shared.library (.inr ⟨p, hm⟩)).later h.within (.refl _)
  file := by
    rintro K _ p ⟨rfl, h⟩ _ _
    have hfile := h.ofFile p
    refine ⟨K.ofFile p, ⟨rfl, hfile⟩, ⟨h.shared.above.root, fun hw => absurd rfl hw⟩, ?_, ?_⟩
    · rintro K₂ _ m hle ⟨rfl, h₂⟩ hconfined hm
      obtain ⟨K₃, hle₃, hworld, hsound, hnode⟩ := h.closeFile hle h₂ hconfined hm
      exact ⟨K₃, hle₃, ⟨hworld, hsound⟩, hnode, id⟩
    · exact fun w₂ hleft => left_region hleft id

/-! ## §5. Beginnings -/

/-- The region of everything. -/
def everything : Region :=
  ⟨fun _ => True, fun _ => True, fun _ => True⟩

/-- Nothing is bound in the world that a session begins with. -/
theorem sound_initial :
    Region.Stage.Sound ⟨World.initial, everything, everything, none⟩ := by
  have hcontent : ∀ slot, World.initial.store.content slot = none := fun _ => rfl
  have hclosed : everything.Closed World.initial := by
    refine ⟨?_, ?_, ?_⟩
    · intro f name slot _ hs
      exact absurd (hs.symm.trans (World.slotIn?_initial f name)) (by simp)
    · intro slot v _ hv
      rw [hcontent] at hv
      exact absurd hv (by simp)
    · intro id e _ he
      exact absurd he (by simp [World.initial])
  have hfilled : ∀ {slot}, everything.Slot World.initial slot →
      (World.initial.store.content slot).isSome :=
    fun hs => absurd hs.2 (Nat.not_lt_zero _)
  refine ⟨hclosed, ⟨fun _ => trivial, fun _ => trivial, fun _ => trivial⟩,
    fun hs => .inl (hfilled hs), ?_, ⟨hclosed, ⟨trivial, Nat.zero_lt_one⟩, hfilled, ?_⟩, .refl _,
    fun _ => rfl, fun hw => absurd rfl hw⟩
  · intro slot v hv
    rw [hcontent] at hv
    exact absurd hv (by simp)
  · exact fun hm => absurd hm Library.not_knows_initial

theorem starts_region : region.Starts where
  start := by
    let K : region.Stage := ⟨World.initial, everything, everything, none⟩
    have hw : region.Holds K World.initial := ⟨rfl, sound_initial⟩
    have hroot : region.Works K rootFrame :=
      ⟨⟨trivial, Nat.zero_lt_one⟩, fun hw => absurd rfl hw⟩
    exact kept_region.start hw hroot
  recover := by
    rintro K w _ ⟨⟨R, hR⟩, hclean⟩
    have hpublic := hR.above
    refine ⟨⟨w, R.above w, R.above w, none⟩, ⟨rfl, ?_⟩, ⟨hpublic.root, fun hw => absurd rfl hw⟩⟩
    exact ⟨hpublic.closed, R.open_above w, fun hs => .inl (hpublic.filled hs), hclean, hpublic,
      .refl _, fun _ => rfl, fun hw => absurd rfl hw⟩

end Invariant

end TinyLisp
