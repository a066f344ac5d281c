import TinyLisp.Proofs.Like.Build
import TinyLisp.Primitive.Record
import TinyLisp.Primitive.Number
import Mathlib.Data.List.Induction

/-!
# Failures alike

A failure may hold values, but only to show them. Failures are alike if they are of one kind and
are put in the same words; so the accessors of primitive operations, run on arguments alike, give
alike results.
-/

namespace TinyLisp

variable {L : Leaves}

/-! ## §1. Failures -/

/-- The kinds of failures of evaluation. -/
inductive EvalError.Kind
  | unbound | unassigned | arity | notAnExpander | notAModule | unavailable | type
  | expansionLimit
  | form (kind : FormError.Kind)
  | primitive (op : Primitive)
  deriving Repr, DecidableEq

/-- The kind of a failure. -/
def EvalError.kind : EvalError → EvalError.Kind
  | unbound _ => .unbound
  | unassigned _ => .unassigned
  | arity _ => .arity
  | notAnExpander _ => .notAnExpander
  | notAModule _ => .notAModule
  | unavailable .. => .unavailable
  | type _ => .type
  | expansionLimit .. => .expansionLimit
  | form e => .form e.kind
  | primitive op _ => .primitive op

/-- Failures alike: of one kind, in the same words. -/
structure EvalError.Alike (e e' : EvalError) : Prop where
  kind : e.kind = e'.kind
  message : e.message = e'.message

namespace EvalError.Alike

theorem refl (e : EvalError) : EvalError.Alike e e := ⟨rfl, rfl⟩

theorem form {e e' : FormError} (h : FormError.Alike e e') :
    EvalError.Alike (.form e) (.form e') :=
  ⟨congrArg EvalError.Kind.form h.kind, congrArg (fun t => "syntax error: " ++ t) h.message⟩

theorem type {fault fault' : TypeFault} (h : fault.message = fault'.message) :
    EvalError.Alike (.type fault) (.type fault') :=
  ⟨rfl, congrArg (fun t => "type error: " ++ t) h⟩

end EvalError.Alike

/-- Type faults alike: in the same words. -/
def TypeFault.Alike (fault fault' : TypeFault) : Prop :=
  fault.message = fault'.message

/-! ## §2. Arguments of primitive operations -/

/-- Results of looking at arguments that are alike. -/
abbrev ArgumentLike {α β : Type} (R : α → β → Prop) :
    Except TypeFault α → Except TypeFault β → Prop :=
  ResultLike TypeFault.Alike R

namespace Value

variable {v v' : Value} {vs vs' : List Value}

theorem mismatch_like (expected : String) (h : Like L v v') :
    TypeFault.Alike (v.mismatch expected) (v'.mismatch expected) := by
  unfold mismatch
  rw [h.typeName_eq]
  exact rfl

theorem expectInt_like (h : Like L v v') : ArgumentLike Eq v.expectInt v'.expectInt := by
  have hm := mismatch_like "an integer" h
  cases h with
  | int n => exact .ok rfl
  | _ => exact .error hm

theorem expectSymbol_like (h : Like L v v') :
    ArgumentLike Eq v.expectSymbol v'.expectSymbol := by
  have hm := mismatch_like "a symbol" h
  cases h with
  | symbol s => exact .ok rfl
  | _ => exact .error hm

theorem expectString_like (h : Like L v v') :
    ArgumentLike Eq v.expectString v'.expectString := by
  have hm := mismatch_like "a string" h
  cases h with
  | string s => exact .ok rfl
  | _ => exact .error hm

theorem expectName_like (h : Like L v v') : ArgumentLike Eq v.expectName v'.expectName := by
  have hm := mismatch_like "a string or symbol" h
  cases h with
  | string s => exact .ok rfl
  | symbol s => exact .ok rfl
  | _ => exact .error hm

theorem expectPair_like (h : Like L v v') :
    ArgumentLike (fun p p' => Like L p.1 p'.1 ∧ Like L p.2 p'.2) v.expectPair v'.expectPair := by
  have hm := mismatch_like "a pair" h
  cases h with
  | pair _ ha hd => exact .ok ⟨ha, hd⟩
  | _ => exact .error hm

theorem expectList_like (h : Like L v v') :
    ArgumentLike (List.Forall₂ (Like L)) v.expectList v'.expectList := by
  have hitems := h.elements?
  have hm := mismatch_like "a proper list" h
  unfold expectList
  generalize v.elements? = items, v'.elements? = items' at hitems
  cases hitems with
  | none => exact .error hm
  | some hs => exact .ok hs

theorem expectRecord_like (h : Like L v v') :
    ArgumentLike (fun r r' => r.1 = r'.1 ∧ FieldsLike L r.2 r'.2) v.expectRecord
      v'.expectRecord := by
  have hm := mismatch_like "a record" h
  cases h with
  | record cell name hn hv => exact .ok ⟨rfl, .of_maps hn hv⟩
  | _ => exact .error hm

theorem expectLists_like (h : List.Forall₂ (Like L) vs vs') :
    ArgumentLike (List.Forall₂ (Like L)) (expectLists vs) (expectLists vs') := by
  induction h with
  | nil => exact .ok .nil
  | cons hv _ ih =>
    refine (expectList_like hv).bind fun xs xs' hxs => ?_
    exact ih.bind fun ys ys' hys => .ok (List.rel_append hxs hys)

theorem expectStrings_like (h : List.Forall₂ (Like L) vs vs') :
    ArgumentLike Eq (expectStrings vs) (expectStrings vs') := by
  induction h with
  | nil => exact .ok rfl
  | cons hv _ ih =>
    refine (expectString_like hv).bind ?_
    rintro x _ rfl
    refine ih.bind ?_
    rintro xs _ rfl
    exact .ok rfl

end Value

/-! ## §3. Numbers and fields -/

theorem Number.ofValue_like (hL : L.Faithful) {v v' : Value} (h : Value.Like L v v') :
    ArgumentLike Eq (Number.ofValue v) (Number.ofValue v') := by
  have hm : TypeFault.Alike (.notANumber v) (.notANumber v') := by
    show "expected a number, got " ++ v.text ++ " of type " ++ v.typeName =
      "expected a number, got " ++ v'.text ++ " of type " ++ v'.typeName
    rw [h.text_eq hL, h.typeName_eq]
  cases h with
  | int n => exact .ok rfl
  | float x => exact .ok rfl
  | _ => exact .error hm

theorem Number.ofValues_like (hL : L.Faithful) {vs vs' : List Value}
    (h : List.Forall₂ (Value.Like L) vs vs') :
    ArgumentLike Eq (Number.ofValues vs) (Number.ofValues vs') := by
  induction h with
  | nil => exact .ok rfl
  | cons hv _ ih =>
    refine (Number.ofValue_like hL hv).bind ?_
    rintro x _ rfl
    refine ih.bind ?_
    rintro xs _ rfl
    exact .ok rfl

/-- Faults of fields alike. -/
inductive Fields.Fault.Alike : Fields.Fault → Fields.Fault → Prop
  | type {fault fault' : TypeFault} :
      TypeFault.Alike fault fault' → Alike (.type fault) (.type fault')
  | twice (field : String) : Alike (.twice field) (.twice field)

theorem Fields.addAll_like {fs fs' : Fields} (hfs : FieldsLike L fs fs') {vs vs' : List Value}
    (h : List.Forall₂ (Value.Like L) vs vs') :
    ResultLike Fields.Fault.Alike (FieldsLike L) (Fields.addAll fs vs)
      (Fields.addAll fs' vs') := by
  -- names and values come in turn, so the induction takes two arguments at a time
  induction vs using List.twoStepInduction generalizing vs' fs fs' with
  | nil =>
    cases h
    exact .ok hfs
  | singleton v =>
    cases h with
    | cons hv hs =>
      cases hs
      exact .ok hfs
  | cons_cons n v vs ih _ =>
    cases h with
    | @cons _ n' _ _ hn hs =>
      cases hs with
      | cons hv hs =>
        have hname := Value.expectName_like hn
        simp only [Fields.addAll]
        generalize n.expectName = x, n'.expectName = x' at hname
        cases hname with
        | error he => exact .error (.type he)
        | @ok f _ hf =>
          cases hf
          simp only [isSome_eq_of_optionRel (hfs.get? f)]
          split
          · exact .error (.twice f)
          · exact ih (hfs.set f hv) hs

theorem Fields.ofArguments_like {vs vs' : List Value} (h : List.Forall₂ (Value.Like L) vs vs') :
    ResultLike Fields.Fault.Alike (FieldsLike L) (Fields.ofArguments vs)
      (Fields.ofArguments vs') :=
  Fields.addAll_like .nil h

end TinyLisp
