import TinyLisp.Value.Equality
import TinyLisp.Value.Tag
import TinyLisp.Value.Print
import TinyLisp.Proofs.Like.Table

/-!
# Values alike

Two runs of one program make the same data but number their frames and keep their scopes in
different ways. `Value.Like L` relates the values of one run to those of the other: data are
alike part by part, and for functions, expanders and modules a relation `L` decides.

Whatever a program can see of a value by printing, testing and taking apart is the same for
values alike, as long as `L` is `Faithful`: it keeps names, and it keeps numbers apart.
-/

namespace TinyLisp

/-- When functions, expanders and modules of two runs count as alike. -/
structure Leaves where
  closure : Closure → Closure → Prop
  expander : Expander → Expander → Prop
  module : Module → Module → Prop

namespace Leaves

/-- One relation is part of another. -/
structure Le (L M : Leaves) : Prop where
  closure : ∀ c c', L.closure c c' → M.closure c c'
  expander : ∀ m m', L.expander m m' → M.expander m m'
  module : ∀ m m', L.module m m' → M.module m m'

/-- What is alike prints alike, and is one with the same things. -/
structure Faithful (L : Leaves) : Prop where
  label : ∀ c c', L.closure c c' → c.label = c'.label
  expander_name : ∀ m m', L.expander m m' → m.name = m'.name
  module_name : ∀ m m', L.module m m' → m.name = m'.name
  closure_id : ∀ c c' d d', L.closure c c' → L.closure d d' → (c.id = d.id ↔ c'.id = d'.id)
  expander_id : ∀ c c' d d', L.expander c c' → L.expander d d' →
    (c.id = d.id ↔ c'.id = d'.id)
  module_id : ∀ c c' d d', L.module c c' → L.module d d' → (c.id = d.id ↔ c'.id = d'.id)

end Leaves

/-! ## §1. The relation -/

/-- Values alike: the same data, up to the functions, expanders and modules in them. -/
inductive Value.Like (L : Leaves) : Value → Value → Prop
  | nil : Like L nil nil
  | unspecified : Like L unspecified unspecified
  | int (n : Int64) : Like L (int n) (int n)
  | float (x : Float) : Like L (float x) (float x)
  | bool (b : Bool) : Like L (bool b) (bool b)
  | symbol (name : String) : Like L (symbol name) (symbol name)
  | string (text : String) : Like L (string text) (string text)
  | pair (cell : Option Nat) {a a' d d' : Value} :
      Like L a a' → Like L d d' → Like L (pair cell a d) (pair cell a' d')
  | record (cell : Nat) (name : String) {fs fs' : List (String × Value)} :
      fs.map Prod.fst = fs'.map Prod.fst →
      List.Forall₂ (Like L) (fs.map Prod.snd) (fs'.map Prod.snd) →
      Like L (record cell name fs) (record cell name fs')
  | primitive (op : Primitive) : Like L (primitive op) (primitive op)
  | quote {v v' : Value} : Like L v v' → Like L (quote v) (quote v')
  | quasiquote {v v' : Value} : Like L v v' → Like L (quasiquote v) (quasiquote v')
  | unquote {v v' : Value} : Like L v v' → Like L (unquote v) (unquote v')
  | unquoteSplicing {v v' : Value} :
      Like L v v' → Like L (unquoteSplicing v) (unquoteSplicing v')
  | closure {c c' : Closure} : L.closure c c' → Like L (closure c) (closure c')
  | expander {m m' : Expander} : L.expander m m' → Like L (expander m) (expander m')
  | module {m m' : Module} : L.module m m' → Like L (module m) (module m')

/-- Fields alike: the same names, in the same order, with values alike. -/
abbrev FieldsLike (L : Leaves) : List (String × Value) → List (String × Value) → Prop :=
  TableLike (Value.Like L)

namespace Value.Like

variable {L M : Leaves} {v v' u u' : Value}

theorem record_of_fields (cell : Nat) (name : String) {fs fs' : List (String × Value)}
    (h : FieldsLike L fs fs') : Like L (.record cell name fs) (.record cell name fs') :=
  .record cell name h.keys_eq h.entries

theorem mono (hLM : L.Le M) (h : Like L v v') : Like M v v' := by
  induction v generalizing v' with
  | pair cell a d iha ihd =>
    cases h with
    | pair _ ha hd => exact .pair cell (iha ha) (ihd hd)
  | record cell name fs ih =>
    cases h with
    | record _ _ hn hv =>
      refine record_of_fields cell name ?_
      -- the fields come as two lists, of names and of values; here they are taken together
      have hfs := TableLike.of_maps hn hv
      clear hn hv
      induction hfs with
      | nil => exact .nil
      | @cons f f' fs fs' hf _ ihf =>
        exact .cons ⟨hf.1, ih f (by simp) hf.2⟩ (ihf fun g hg => ih g (by simp [hg]))
  | quote v ih =>
    cases h with
    | quote hv => exact .quote (ih hv)
  | quasiquote v ih =>
    cases h with
    | quasiquote hv => exact .quasiquote (ih hv)
  | unquote v ih =>
    cases h with
    | unquote hv => exact .unquote (ih hv)
  | unquoteSplicing v ih =>
    cases h with
    | unquoteSplicing hv => exact .unquoteSplicing (ih hv)
  | closure c =>
    cases h with
    | closure hc => exact .closure (hLM.closure _ _ hc)
  | expander m =>
    cases h with
    | expander hm => exact .expander (hLM.expander _ _ hm)
  | module m =>
    cases h with
    | module hm => exact .module (hLM.module _ _ hm)
  | _ =>
    cases h
    constructor

/-! ## §2. What is seen of a value -/

theorem typeName_eq (h : Like L v v') : v.typeName = v'.typeName := by
  cases h <;> rfl

theorem isTrue_eq (h : Like L v v') : v.isTrue = v'.isTrue := by
  cases h <;> rfl

theorem isProcedure_eq (h : Like L v v') : v.isProcedure = v'.isProcedure := by
  cases h <;> rfl

theorem height_eq (h : Like L v v') : v.height = v'.height := by
  induction v generalizing v' with
  | pair cell a d iha ihd =>
    cases h with
    | pair _ ha hd => rw [height, height, iha ha, ihd hd]
  | quote v ih =>
    cases h with
    | quote hv => rw [height, height, ih hv]
  | quasiquote v ih =>
    cases h with
    | quasiquote hv => rw [height, height, ih hv]
  | unquote v ih =>
    cases h with
    | unquote hv => rw [height, height, ih hv]
  | unquoteSplicing v ih =>
    cases h with
    | unquoteSplicing hv => rw [height, height, ih hv]
  | _ =>
    cases h
    rfl

theorem elements? (h : Like L v v') :
    Option.Rel (List.Forall₂ (Like L)) v.elements? v'.elements? := by
  induction v generalizing v' with
  | pair cell a d _ ihd =>
    cases h with
    | @pair _ _ a' _ d' ha hd =>
      have hrest := ihd hd
      simp only [Value.elements?]
      generalize d.elements? = ds, d'.elements? = ds' at hrest
      cases hrest with
      | some hds => exact .some (.cons ha hds)
      | none => exact .none
  | nil =>
    cases h
    exact .some .nil
  | _ =>
    cases h
    exact .none

theorem tag {n : Nat} (h : Like L v v') :
    Like L (v.tag n).1 (v'.tag n).1 ∧ (v.tag n).2 = (v'.tag n).2 := by
  induction v generalizing v' n with
  | pair cell a d iha ihd =>
    cases h with
    | pair _ ha hd =>
      cases cell with
      | some c => exact ⟨.pair (some c) ha hd, rfl⟩
      | none =>
        obtain ⟨ha1, ha2⟩ := iha (n := n) ha
        obtain ⟨hd1, hd2⟩ := ihd (n := (a.tag n).2) hd
        simp only [Value.tag]
        rw [← ha2, ← hd2]
        exact ⟨.pair _ ha1 hd1, rfl⟩
  | quote v ih =>
    cases h with
    | quote hv => exact ⟨.quote (ih hv).1, (ih hv).2⟩
  | quasiquote v ih =>
    cases h with
    | quasiquote hv => exact ⟨.quasiquote (ih hv).1, (ih hv).2⟩
  | unquote v ih =>
    cases h with
    | unquote hv => exact ⟨.unquote (ih hv).1, (ih hv).2⟩
  | unquoteSplicing v ih =>
    cases h with
    | unquoteSplicing hv => exact ⟨.unquoteSplicing (ih hv).1, (ih hv).2⟩
  | record cell name fs =>
    cases h with
    | record _ _ hn hv => exact ⟨.record cell name hn hv, rfl⟩
  | closure c =>
    cases h with
    | closure hc => exact ⟨.closure hc, rfl⟩
  | expander m =>
    cases h with
    | expander hm => exact ⟨.expander hm, rfl⟩
  | module m =>
    cases h with
    | module hm => exact ⟨.module hm, rfl⟩
  | _ =>
    cases h
    exact ⟨by constructor, rfl⟩

/-! ## §3. Printing -/

theorem writeFields_eq {style : Style} {fs fs' : List (String × Value)}
    (h : List.Forall₂ (fun f f' => f.1 = f'.1 ∧ f.2.write style false = f'.2.write style false)
      fs fs') : writeFields style fs = writeFields style fs' := by
  induction h with
  | nil => rfl
  | @cons f f' fs fs' hf _ ih =>
    obtain ⟨n, v⟩ := f
    obtain ⟨n', v'⟩ := f'
    obtain ⟨rfl, hv⟩ := hf
    simp only [writeFields]
    rw [hv, ih]

theorem write_eq (hL : L.Faithful) (style : Style) (rest : Bool) (h : Like L v v') :
    v.write style rest = v'.write style rest := by
  induction v generalizing v' rest with
  | pair cell a d iha ihd =>
    cases h with
    | pair _ ha hd =>
      simp only [write]
      rw [iha false ha, ihd true hd]
  | record cell name fs ih =>
    cases h with
    | @record _ _ _ fs' hn hv =>
      have hfields : writeFields style fs = writeFields style fs' := by
        refine writeFields_eq ?_
        have hfs := TableLike.of_maps hn hv
        clear hn hv
        induction hfs with
        | nil => exact .nil
        | @cons f f' fs fs' hf _ ihf =>
          exact .cons ⟨hf.1, ih f (by simp) false hf.2⟩ (ihf fun g hg => ih g (by simp [hg]))
      simp only [write]
      rw [hfields]
  | quote v ih =>
    cases h with
    | quote hv => simp only [write, ih false hv]
  | quasiquote v ih =>
    cases h with
    | quasiquote hv => simp only [write, ih false hv]
  | unquote v ih =>
    cases h with
    | unquote hv => simp only [write, ih false hv]
  | unquoteSplicing v ih =>
    cases h with
    | unquoteSplicing hv => simp only [write, ih false hv]
  | closure c =>
    cases h with
    | closure hc => simp only [write, hL.label _ _ hc]
  | expander m =>
    cases h with
    | expander hm => simp only [write, hL.expander_name _ _ hm]
  | module m =>
    cases h with
    | module hm => simp only [write, hL.module_name _ _ hm]
  | _ =>
    cases h
    rfl

theorem print_eq (hL : L.Faithful) (style : Style) (h : Like L v v') :
    v.print style = v'.print style := by
  unfold print
  rw [h.write_eq hL]

theorem text_eq (hL : L.Faithful) (h : Like L v v') : v.text = v'.text :=
  h.print_eq hL .readable

/-! ## §4. Equality -/

theorem equalFields_eq {fs fs' gs gs' : List (String × Value)}
    (h : List.Forall₂ (fun f f' => f.1 = f'.1 ∧
      ∀ {u u' : Value}, Like L u u' → f.2.equal u = f'.2.equal u') fs fs')
    (hg : FieldsLike L gs gs') : equalFields fs gs = equalFields fs' gs' := by
  induction h generalizing gs gs' with
  | nil =>
    cases hg with
    | nil => rfl
    | cons _ _ => rfl
  | @cons f f' fs fs' hf _ ih =>
    obtain ⟨n, v⟩ := f
    obtain ⟨n', v'⟩ := f'
    obtain ⟨rfl, hv⟩ := hf
    cases hg with
    | nil => rfl
    | @cons g g' gs gs' hgv hgs =>
      obtain ⟨m, u⟩ := g
      obtain ⟨m', u'⟩ := g'
      obtain ⟨rfl, hu⟩ := hgv
      simp only [equalFields]
      rw [hv hu, ih hgs]

theorem equal_eq (hL : L.Faithful) (h : Like L v v') (hu : Like L u u') :
    v.equal u = v'.equal u' := by
  induction v generalizing v' u u' with
  | pair cell a d iha ihd =>
    cases h with
    | pair _ ha hd =>
      cases hu with
      | pair _ hua hud =>
        simp only [equal]
        rw [iha ha hua, ihd hd hud]
      | _ => rfl
  | record cell name fs ih =>
    cases h with
    | @record _ _ _ fs' hn hv =>
      cases hu with
      | @record _ _ gs gs' hgn hgv =>
        have hfields : equalFields fs gs = equalFields fs' gs' := by
          refine equalFields_eq ?_ (TableLike.of_maps hgn hgv)
          have hfs := TableLike.of_maps hn hv
          clear hn hv
          induction hfs with
          | nil => exact .nil
          | @cons f f' fs fs' hf _ ihf =>
            exact .cons ⟨hf.1, fun hw => ih f (by simp) hf.2 hw⟩
              (ihf fun g hg => ih g (by simp [hg]))
        simp only [equal]
        rw [hfields]
      | _ => rfl
  | quote v ih =>
    cases h with
    | quote hv =>
      cases hu with
      | quote hw => simp only [equal, ih hv hw]
      | _ => rfl
  | quasiquote v ih =>
    cases h with
    | quasiquote hv =>
      cases hu with
      | quasiquote hw => simp only [equal, ih hv hw]
      | _ => rfl
  | unquote v ih =>
    cases h with
    | unquote hv =>
      cases hu with
      | unquote hw => simp only [equal, ih hv hw]
      | _ => rfl
  | unquoteSplicing v ih =>
    cases h with
    | unquoteSplicing hv =>
      cases hu with
      | unquoteSplicing hw => simp only [equal, ih hv hw]
      | _ => rfl
  | closure c =>
    cases h with
    | closure hc =>
      cases hu with
      | closure hd =>
        simp only [equal]
        -- closures are equal by number, and likeness relates numbers one to one
        rw [Bool.eq_iff_iff, beq_iff_eq, beq_iff_eq]
        exact hL.closure_id _ _ _ _ hc hd
      | _ => rfl
  | expander m =>
    cases h with
    | expander hm =>
      cases hu with
      | expander hn =>
        simp only [equal]
        rw [Bool.eq_iff_iff, beq_iff_eq, beq_iff_eq]
        exact hL.expander_id _ _ _ _ hm hn
      | _ => rfl
  | module m =>
    cases h with
    | module hm =>
      cases hu with
      | module hn =>
        simp only [equal]
        rw [Bool.eq_iff_iff, beq_iff_eq, beq_iff_eq]
        exact hL.module_id _ _ _ _ hm hn
      | _ => rfl
  | _ =>
    cases h
    cases hu <;> rfl

theorem identical_eq (hL : L.Faithful) (h : Like L v v') (hu : Like L u u') :
    v.identical u = v'.identical u' := by
  have heq := h.equal_eq hL hu
  cases h with
  | pair cell _ _ =>
    cases hu with
    | pair cell' _ _ => rfl
    | _ => exact heq
  | record cell name _ _ =>
    cases hu with
    | record cell' name' _ _ => rfl
    | _ => exact heq
  | string text =>
    cases hu with
    | string text' => rfl
    | _ => exact heq
  | _ => cases hu <;> exact heq

end Value.Like

end TinyLisp
