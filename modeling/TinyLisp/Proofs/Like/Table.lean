import TinyLisp.Table
import Mathlib.Data.List.Forall2

/-!
# Tables alike

Two tables are alike under a relation if they have the same keys in the same order and what
stands under a key is related. Looking up and setting keep this.
-/

namespace TinyLisp

/-- Entries with the same key, under which related things stand. -/
def EntryLike {κ α β : Type} (R : α → β → Prop) (e : κ × α) (e' : κ × β) : Prop :=
  e.1 = e'.1 ∧ R e.2 e'.2

/-- Tables with the same keys in the same order, whose entries are related. -/
def TableLike {κ α β : Type} (R : α → β → Prop) : Table κ α → Table κ β → Prop :=
  List.Forall₂ (EntryLike R)

theorem optionRel_mono {α β : Type} {R S : α → β → Prop} (h : ∀ a b, R a b → S a b)
    {x : Option α} {y : Option β} (hxy : Option.Rel R x y) : Option.Rel S x y := by
  cases hxy with
  | some hr => exact .some (h _ _ hr)
  | none => exact .none

theorem isSome_eq_of_optionRel {α β : Type} {R : α → β → Prop} {x : Option α} {y : Option β}
    (hxy : Option.Rel R x y) : x.isSome = y.isSome := by
  cases hxy with
  | some _ => rfl
  | none => rfl

namespace TableLike

variable {κ α β : Type} {R S : α → β → Prop} {t : Table κ α} {t' : Table κ β}

theorem of_maps (hk : t.map Prod.fst = t'.map Prod.fst)
    (he : List.Forall₂ R (t.map Prod.snd) (t'.map Prod.snd)) : TableLike R t t' := by
  induction t generalizing t' with
  | nil =>
    cases t' with
    | nil => exact .nil
    | cons e' t' => exact absurd hk (by simp)
  | cons e t ih =>
    cases t' with
    | nil => exact absurd hk (by simp)
    | cons e' t' =>
      simp only [List.map_cons, List.cons.injEq] at hk
      simp only [List.map_cons, List.forall₂_cons] at he
      exact .cons ⟨hk.1, he.1⟩ (ih hk.2 he.2)

theorem keys_eq (h : TableLike R t t') : t.map Prod.fst = t'.map Prod.fst := by
  induction h with
  | nil => rfl
  | cons he _ ih => rw [List.map_cons, List.map_cons, he.1, ih]

theorem entries (h : TableLike R t t') :
    List.Forall₂ R (t.map Prod.snd) (t'.map Prod.snd) := by
  induction h with
  | nil => exact .nil
  | cons he _ ih => exact .cons he.2 ih

theorem mono (hRS : ∀ a b, R a b → S a b) (h : TableLike R t t') : TableLike S t t' :=
  List.Forall₂.imp (fun _ _ he => ⟨he.1, hRS _ _ he.2⟩) h

variable [DecidableEq κ]

theorem get? (h : TableLike R t t') (k : κ) :
    Option.Rel R (Table.get? k t) (Table.get? k t') := by
  induction h with
  | nil => exact .none
  | @cons e e' t t' he _ ih =>
    obtain ⟨j, a⟩ := e
    obtain ⟨j', b⟩ := e'
    obtain ⟨rfl, hab⟩ := he
    simp only [Table.get?]
    split
    · exact .some hab
    · exact ih

theorem set (h : TableLike R t t') (k : κ) {a : α} {b : β} (hab : R a b) :
    TableLike R (Table.set k a t) (Table.set k b t') := by
  induction h with
  | nil => exact .cons ⟨rfl, hab⟩ .nil
  | @cons e e' t t' he ht ih =>
    obtain ⟨j, c⟩ := e
    obtain ⟨j', d⟩ := e'
    obtain ⟨rfl, hcd⟩ := he
    simp only [Table.set]
    split
    · exact .cons ⟨rfl, hab⟩ ht
    · exact .cons ⟨rfl, hcd⟩ ih

end TableLike

end TinyLisp
