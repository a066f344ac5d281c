import TinyLisp.Proofs.Contents
import TinyLisp.Proofs.Invariant.Moment
import Mathlib.Data.Set.Insert

/-!
# One value to a tag

A pair and a record carry a tag, and tags are handed out upwards. So in a session a tag says all of
a value: two pairs or records with one tag are the same value, wherever in the session they are met
(`Heap.housed`). The values that have tags are never changed, they are only added to; a set of
them, each with a tag of its own (`Housed`), is therefore an invariant of evaluation. That no record
has a field twice is shown along with it, for a record gets its fields together with its tag.
-/

namespace TinyLisp

open Invariant

/-! ## §1. Tagged values -/

namespace Value

/-- The tag of a pair or a record. -/
def cell? : Value → Option Nat
  | pair cell _ _ => cell
  | record cell _ _ => some cell
  | _ => none

/-- A pair or a record is one of some values. -/
def Listed (C : Set Value) : Value → Prop
  | pair cell a d => pair cell a d ∈ C
  | record cell name fields => record cell name fields ∈ C
  | _ => True

variable {C C' : Set Value} {v : Value}

theorem Listed.mono (h : v.Listed C) (hC : C ⊆ C') : v.Listed C' := by
  cases v with
  | pair cell a d => exact hC h
  | record cell name fields => exact hC h
  | _ => trivial

theorem listed_of_plain (h : v.Plain) : v.Listed C := by
  cases v with
  | pair cell a d => exact h.elim
  | record cell name fields => exact h.elim
  | _ => trivial

end Value

/-- Pairs and records that have been made while the tags up to `n` were handed out. -/
structure Housed (C : Set Value) (n : Nat) : Prop where
  tagged : ∀ v ∈ C, ∃ cell, v.cell? = some cell ∧ cell < n
  unique : ∀ u ∈ C, ∀ v ∈ C, u.cell? = v.cell? → u = v
  distinct : ∀ {cell name fields}, .record cell name fields ∈ C → (Table.keys fields).Nodup

namespace Housed

variable {C : Set Value} {n : Nat} {v : Value}

theorem empty (n : Nat) : Housed ∅ n :=
  ⟨fun _ h => absurd h (by simp), fun _ h => absurd h (by simp), fun h => absurd h (by simp)⟩

theorem mono (h : Housed C n) {m : Nat} (hnm : n ≤ m) : Housed C m := by
  refine ⟨fun v hv => ?_, h.unique, h.distinct⟩
  obtain ⟨cell, hcell, hlt⟩ := h.tagged v hv
  exact ⟨cell, hcell, Nat.lt_of_lt_of_le hlt hnm⟩

/-- The next tag is on none of the values so far. -/
theorem cell_ne (h : Housed C n) {u : Value} (hu : u ∈ C) : u.cell? ≠ some n := by
  intro heq
  obtain ⟨cell, hcell, hlt⟩ := h.tagged u hu
  rw [hcell] at heq
  have := Option.some.inj heq
  omega

/-- A value that gets the next tag. -/
theorem add (h : Housed C n) (hv : v.cell? = some n)
    (hfields : ∀ {cell name fields}, v = .record cell name fields → (Table.keys fields).Nodup) :
    Housed (insert v C) (n + 1) := by
  refine ⟨?_, ?_, ?_⟩
  · rintro u (rfl | hu)
    · exact ⟨n, hv, Nat.lt_succ_self n⟩
    · exact (h.mono (Nat.le_succ n)).tagged u hu
  · rintro u (rfl | hu) u' (rfl | hu') heq
    · rfl
    · exact absurd (heq.symm.trans hv) (h.cell_ne hu')
    · exact absurd (heq.trans hv) (h.cell_ne hu)
    · exact h.unique u hu u' hu' heq
  · rintro cell name fields (hr | hr)
    · exact hfields hr.symm
    · exact h.distinct hr

end Housed

/-- A datum that gets its tags has a tag of its own for each of its pairs. -/
theorem Datum.tag_housed {form : Value} (h : Datum form) {C : Set Value} {n : Nat}
    (hC : Housed C n) :
    ∃ C', C ⊆ C' ∧ Housed C' (form.tag n).2 ∧ (form.tag n).1.Every (Value.Listed C') := by
  have hatom : ∀ {v : Value} {C : Set Value}, v.nodes = [v] → v.Plain →
      v.Every (Value.Listed C) :=
    fun hv hp => Value.every_atom (fun _ => Value.listed_of_plain) hv hp
  induction h generalizing C n with
  | @pair a d _ _ iha ihd =>
    -- the parts first, the car before the cdr, and then the pair itself
    obtain ⟨Ca, hCa, ha, hea⟩ := iha hC
    obtain ⟨Cd, hCd, hd, hed⟩ := ihd ha
    let whole : Value := .pair (some (d.tag (a.tag n).2).2) (a.tag n).1 (d.tag (a.tag n).2).1
    have hsub : Cd ⊆ insert whole Cd := Set.subset_insert _ _
    have hhoused : Housed (insert whole Cd) ((d.tag (a.tag n).2).2 + 1) :=
      hd.add rfl fun hr => absurd hr (by simp [whole])
    refine ⟨insert whole Cd, (hCa.trans hCd).trans hsub, hhoused, ?_⟩
    refine Value.every_pair.2 ⟨Set.mem_insert _ _, ?_, ?_⟩
    · exact hea.mono fun _ hu => hu.mono (hCd.trans hsub)
    · exact hed.mono fun _ hu => hu.mono hsub
  | wrapper w _ ih =>
    obtain ⟨C', hCC, hhoused, he⟩ := ih hC
    cases w with
    | quote => exact ⟨C', hCC, hhoused, Value.every_quote.2 ⟨trivial, he⟩⟩
    | quasiquote => exact ⟨C', hCC, hhoused, Value.every_quasiquote.2 ⟨trivial, he⟩⟩
    | unquote => exact ⟨C', hCC, hhoused, Value.every_unquote.2 ⟨trivial, he⟩⟩
    | unquoteSplicing => exact ⟨C', hCC, hhoused, Value.every_unquoteSplicing.2 ⟨trivial, he⟩⟩
  | _ => exact ⟨C, subset_rfl, hC, hatom rfl trivial⟩

/-! ## §2. The invariant -/

/-- Sets of values, ordered by inclusion. -/
@[reducible] def Value.byInclusion : Preorder (Set Value) where
  le C C' := ∀ ⦃v⦄, v ∈ C → v ∈ C'
  lt C C' := (∀ ⦃v⦄, v ∈ C → v ∈ C') ∧ ¬ ∀ ⦃v⦄, v ∈ C' → v ∈ C
  lt_iff_le_not_ge _ _ := Iff.rfl
  le_refl _ _ hv := hv
  le_trans _ _ _ h h' _ hv := h' (h hv)

/-- The invariant of sharing: what is known are the pairs and records made so far. -/
def Invariant.sharing : Invariant where
  Stage := Set Value
  order := Value.byInclusion
  Holds C w := Housed C w.nextTag ∧ w.Every (Value.Listed C)
  Left C w := ∃ C', C ⊆ C' ∧ Housed C' w.nextTag ∧ w.Every (Value.Listed C')
  Node C v := v.Listed C
  Frame _ _ := True
  Works _ _ := True
  Complete _ _ := True
  Top _ := True
  Filling C C' _ _ := C ⊆ C'
  hollow := True
  lax := False

namespace Invariant

variable {C C' : Set Value} {w : World} {P : Set Value → Prop}

/-- The stage after a change that adds no pair and no record. -/
theorem later_listed (hw : sharing.Holds C w) {w' : World} (hle : w.nextTag ≤ w'.nextTag)
    (h : w.Every (Value.Listed C) → w'.Every (Value.Listed C)) (hP : P C) :
    sharing.Later C w' P :=
  ⟨C, Value.byInclusion.le_refl C, ⟨hw.1.mono hle, h hw.2⟩, hP⟩

/-- The stage after one that adds some. -/
theorem later_housed (hw : sharing.Holds C w) (hC : C ⊆ C') {n : Nat} (h : Housed C' n)
    (hP : P C') : sharing.Later C { w with nextTag := n } P := by
  have hkept : w.Every (Value.Listed C') := hw.2.mono fun _ hu => hu.mono hC
  exact ⟨C', hC, ⟨h, hkept.content, hkept.body⟩, hP⟩

/-- The stage at which one value more has the next tag. -/
theorem later_added (hw : sharing.Holds C w) {v : Value} (hv : v.cell? = some w.nextTag)
    (hfields : ∀ {cell name fields}, v = .record cell name fields → (Table.keys fields).Nodup)
    (hP : P (insert v C)) : sharing.Later C { w with nextTag := w.nextTag + 1 } P :=
  later_housed hw (Set.subset_insert v C) (hw.1.add hv hfields) hP

theorem active_sharing (C : Set Value) (scope : Scope) : sharing.Active C scope :=
  ⟨fun _ _ => trivial, fun _ _ => trivial, fun _ => trivial⟩

theorem kept_sharing : sharing.Kept where
  node_mono hC h := Value.Listed.mono h hC
  frame_mono _ _ := trivial
  works_mono _ _ := trivial
  complete_mono _ _ := trivial
  top_mono _ _ := trivial
  left_of_later := by
    rintro C C' w hC ⟨C'', hC', h⟩
    exact ⟨C'', subset_trans hC hC', h⟩
  left_of_holds h := ⟨_, subset_rfl, h⟩
  frame_of_works _ := trivial
  top_of_root _ _ := trivial
  plain h := Value.listed_of_plain h
  pair hw _ _ := later_added hw rfl (fun hr => absurd hr (by simp)) (Set.mem_insert _ _)
  record name fields hw _ hnodup :=
    later_added hw rfl (fun hr => by cases hr; exact hnodup) (Set.mem_insert _ _)
  updated := by
    intro C w cell name fields f v hw hr _
    have hold : (Table.keys fields).Nodup := hw.1.distinct hr.self
    exact later_added hw rfl (fun heq => by cases heq; exact Table.nodup_keys_set hold)
      (Set.mem_insert _ _)
  form := by
    intro C w form hw hform
    obtain ⟨C', hC, hhoused, he⟩ := hform.tag_housed hw.1
    exact later_housed hw hC hhoused he
  gensym _ hw := later_listed hw (Nat.le_refl _) (fun h => ⟨h.content, h.body⟩) trivial
  output _ hw := later_listed hw (Nat.le_refl _) (fun h => ⟨h.content, h.body⟩) trivial
  closure _ _ _ _ _ hw _ hb := later_listed hw (Nat.le_refl _) (fun h => h.push hb) trivial
  expander _ _ _ _ hw _ hb := later_listed hw (Nat.le_refl _) (fun h => h.push hb) trivial
  closure_body hw _ := hw.2.getD trivial _
  expander_body hw _ := hw.2.getD trivial _
  expander_scope _ := fun _ _ => trivial
  call := by
    intro C c _
    unfold Eval.callScope
    cases c.captures with
    | scope =>
      exact .change fun w hw => ⟨_, _, rfl,
        later_listed hw (Nat.le_refl _) (fun h => h.withStore .inl) (active_sharing C _)⟩
    | table slots =>
      refine .change fun w hw => ⟨_, _, rfl, ?_⟩
      refine later_listed hw (Nat.le_refl _) (fun h => ?_) (active_sharing C _)
      exact (h.newSlots w.store.frames.size [] slots).withStore .inl
  extend hw := later_listed hw (Nat.le_refl _) (fun h => h.withStore .inl) ⟨trivial, trivial⟩
  bind name _ hw _ hv := later_listed hw (Nat.le_refl _) (fun h => h.bind _ name hv) trivial
  lookup hw _ hv _ := hw.2.lookupUpTo trivial _ hv
  filling names hw _ := ⟨_, subset_rfl, hw.1, hw.2.newSlots _ names _⟩
  filling_later h hC := subset_trans h hC
  filling_node h hv := Value.Listed.mono hv h
  filling_frame _ _ := trivial
  filling_works _ := trivial
  fill h hw hv := ⟨_, h, ⟨hw.1, hw.2.fill _ hv⟩, id⟩
  filled h hw := ⟨_, h, hw, trivial, id⟩
  unfilled := by
    rintro C C' w f slots h ⟨C'', hC', hw⟩
    exact ⟨C'', subset_trans h hC', hw⟩
  module _ _ hw _ _ _ :=
    later_listed hw (Nat.le_succ _) (fun h => ⟨h.content, h.body⟩) trivial
  shown hw _ _ hv := hw.2.lookupUpTo trivial _ hv
  register hw _ _ := later_listed hw (Nat.le_refl _) (fun h => ⟨h.content, h.body⟩) trivial
  registered _ _ := trivial
  kept _ _ := trivial
  file := by
    intro C w p hw _ _
    refine ⟨C, ⟨hw.1, hw.2.content, hw.2.body⟩, trivial, ?_, ?_⟩
    · intro C₂ w₂ m hC hw₂ _ _
      exact ⟨C₂, hC, ⟨hw₂.1, hw₂.2.content, hw₂.2.body⟩, trivial, id⟩
    · rintro w₂ ⟨C₂, hC, hw₂, hkept⟩
      exact ⟨C₂, hC, hw₂, hkept.content, hkept.body⟩

theorem starts_sharing : sharing.Starts where
  start := by
    have hw : sharing.Holds (∅ : Set Value) World.initial := ⟨.empty _, .initial _⟩
    exact kept_sharing.start hw trivial
  recover := by
    rintro C w _ ⟨C', -, hw⟩
    exact ⟨C', hw, trivial⟩

end Invariant

/-! ## §3. Heaps -/

/-- A value is a node of one of the values that a task contains. -/
def Task.Contains (u : Value) : Task → Prop
  | .eval e _ => ∃ v ∈ e.values, u ∈ v.nodes
  | .apply f args => u ∈ f.nodes ∨ ∃ v ∈ args, u ∈ v.nodes

/-- The values that are about together at some moment: while a session is at top level, when a
task begins, and when it has succeeded or failed. -/
inductive Heap (ctx : Context) : Set Value → Prop
  | rest {s : Session} (h : s.Arises ctx) : Heap ctx {u | s.world.Keeps u}
  | begun {n : Nat} {t : Task} {w : World} (h : Occurs ctx n t w) :
    Heap ctx {u | w.Keeps u ∨ t.Contains u}
  | done {n : Nat} {t : Task} {w w' : World} {v : Value} (h : Occurs ctx n t w)
    (hrun : (Engine.ofDepth ctx n).perform t w = .ok v w') :
    Heap ctx {u | w'.Keeps u ∨ u ∈ v.nodes}
  | failed {n : Nat} {t : Task} {w w' : World} {e : Halt} (h : Occurs ctx n t w)
    (hrun : (Engine.ofDepth ctx n).perform t w = .error e w') : Heap ctx {u | w'.Keeps u}

namespace Invariant

variable {C : Set Value} {t : Task} {u : Value}

theorem listed_of_ready (h : sharing.Ready C t) (hu : t.Contains u) : u.Listed C := by
  cases t with
  | eval e scope =>
    obtain ⟨v, hv, hu⟩ := hu
    exact h.1 v hv u hu
  | apply f args =>
    rcases hu with hu | ⟨v, hv, hu⟩
    · exact h.1 u hu
    · exact h.2 v hv u hu

end Invariant

namespace Heap

variable {ctx : Context} {H : Set Value}

/-- At every moment a tag says all of a pair or a record. -/
theorem housed (h : Heap ctx H) : ∃ C n, Housed C n ∧ ∀ v ∈ H, v.Listed C := by
  have hoccurs : ∀ {n t w}, Occurs ctx n t w →
      ∃ C : Set Value, sharing.Holds C w ∧ sharing.Ready C t :=
    fun ht => kept_sharing.occurs starts_sharing (fun hlax => hlax) ht
  cases h with
  | rest h =>
    obtain ⟨C, ⟨hC, hw⟩, -⟩ := kept_sharing.arises starts_sharing h
    exact ⟨C, _, hC, fun v hv => hw.keeps hv⟩
  | begun h =>
    obtain ⟨C, ⟨hC, hw⟩, ht⟩ := hoccurs h
    exact ⟨C, _, hC, fun v hv => hv.elim hw.keeps (listed_of_ready ht)⟩
  | @done n _ _ _ _ h hrun =>
    obtain ⟨C, hw, ht⟩ := hoccurs h
    have hends := kept_sharing.ends hw ht ctx n
    rw [hrun] at hends
    obtain ⟨C', -, ⟨hC', hw'⟩, hv⟩ := hends
    exact ⟨C', _, hC', fun u hu => hu.elim hw'.keeps (hv u)⟩
  | @failed n _ _ _ _ h hrun =>
    obtain ⟨C, hw, ht⟩ := hoccurs h
    have hends := kept_sharing.ends hw ht ctx n
    rw [hrun] at hends
    obtain ⟨C', -, hC', hw'⟩ := hends
    exact ⟨C', _, hC', fun v hv => hw'.keeps hv⟩

/-- Pairs that have one tag are one. -/
theorem pair_eq (h : Heap ctx H) {cell : Option Nat} {a d a' d' : Value}
    (hp : .pair cell a d ∈ H) (hp' : .pair cell a' d' ∈ H) : a = a' ∧ d = d' := by
  obtain ⟨C, n, hC, hH⟩ := h.housed
  have heq := hC.unique _ (hH _ hp) _ (hH _ hp') rfl
  simpa using heq

/-- So are records. -/
theorem record_eq (h : Heap ctx H) {cell : Nat} {name name' : String} {fields fields' : Fields}
    (hr : .record cell name fields ∈ H) (hr' : .record cell name' fields' ∈ H) :
    name = name' ∧ fields = fields' := by
  obtain ⟨C, n, hC, hH⟩ := h.housed
  have heq := hC.unique _ (hH _ hr) _ (hH _ hr') rfl
  simpa using heq

/-- No record has a field twice. -/
theorem nodup_keys (h : Heap ctx H) {cell : Nat} {name : String} {fields : Fields}
    (hr : .record cell name fields ∈ H) : fields.keys.Nodup := by
  obtain ⟨C, n, hC, hH⟩ := h.housed
  exact hC.distinct (hH _ hr)

end Heap

end TinyLisp
