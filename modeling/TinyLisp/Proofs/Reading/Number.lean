import TinyLisp.Proofs.Reading.Datum
import TinyLisp.Value.Print

/-!
# The texts of numbers

The text of an integer is read back as that integer. The text of a finite float is a run of plain
characters that only `readFloat?` takes for a number, and the text of an infinite one is taken for
a symbol.
-/

namespace TinyLisp

open Decimal

/-! ## §1. Digits -/

/-- No digit ends a run of plain characters. -/
theorem isDelimiter_of_isDigit {c : Char} (h : c.isDigit = true) :
    Token.isDelimiter c = false := by
  have hall : ∀ n : Fin 10, Token.isDelimiter (Char.ofNat (48 + n)) = false := by decide
  have hrange : 48 ≤ c.toNat ∧ c.toNat ≤ 57 := by
    simp only [Char.isDigit, Bool.and_eq_true, decide_eq_true_eq] at h
    exact ⟨UInt32.le_iff_toNat_le.1 h.1, UInt32.le_iff_toNat_le.1 h.2⟩
  have hc := hall ⟨c.toNat - 48, by omega⟩
  have heq : 48 + (c.toNat - 48) = c.toNat := by omega
  simp only [heq, Char.ofNat_toNat] at hc
  exact hc

/-- A character that the text of a finite number may hold: a digit, a point or a minus. -/
def IsNumeral (c : Char) : Prop :=
  c.isDigit = true ∨ c = '.' ∨ c = '-'

theorem isDelimiter_of_isNumeral {c : Char} (h : IsNumeral c) : Token.isDelimiter c = false := by
  rcases h with h | rfl | rfl
  · exact isDelimiter_of_isDigit h
  · decide
  · decide

theorem isDigit_toDigits {n : Nat} : ∀ c ∈ Nat.toDigits 10 n, c.isDigit = true :=
  fun _ hc => Nat.isDigit_of_mem_toDigits (by decide) (by decide) hc

theorem ofDigits_toDigits (n : Nat) : ofDigits (Nat.toDigits 10 n) = n :=
  Nat.ofDigitChars_ten_toDigits

theorem takeSign_of_isDigit {c : Char} (hc : c.isDigit = true) (cs : List Char) :
    takeSign (c :: cs) = (false, c :: cs) := by
  unfold takeSign
  split
  · next h =>
    cases h
    exact absurd hc (by decide)
  · next h =>
    cases h
    exact absurd hc (by decide)
  · rfl

/-- A minus or nothing. -/
def signChars (negative : Bool) : List Char :=
  if negative then ['-'] else []

theorem isNumeral_signChars (negative : Bool) : ∀ c ∈ signChars negative, IsNumeral c := by
  intro c hc
  cases negative with
  | true => exact .inr (.inr (List.mem_singleton.1 hc))
  | false => exact absurd hc (by simp [signChars])

theorem takeSign_signChars (negative : Bool) {c : Char} (hc : c.isDigit = true) (cs : List Char) :
    takeSign (signChars negative ++ c :: cs) = (negative, c :: cs) := by
  cases negative with
  | true => rfl
  | false => exact takeSign_of_isDigit hc cs

theorem startsLikeNumber_signChars (negative : Bool) {c : Char} (hc : c.isDigit = true)
    (cs : List Char) : startsLikeNumber (signChars negative ++ c :: cs) = true := by
  unfold startsLikeNumber
  rw [takeSign_signChars negative hc]
  exact hc

/-- What starts like a number is read as one. -/
theorem atomValue_of_startsLikeNumber {cs : List Char} (h : startsLikeNumber cs = true) :
    atomValue cs = match Literal.read? cs with
      | some (.int n) => .ok (.int n)
      | some (.float x) => .ok (.float x)
      | none => .error (.notANumber (String.ofList cs)) := by
  have hne : ∀ ds : List Char, startsLikeNumber ds = false → cs ≠ ds := by
    rintro ds hds rfl
    rw [h] at hds
    exact absurd hds (by simp)
  unfold atomValue
  refine (if_neg (hne _ (by decide))).trans ?_
  refine (if_neg (hne _ (by decide))).trans ?_
  refine (if_neg (hne _ (by decide))).trans ?_
  refine (if_neg (hne _ (by decide))).trans ?_
  refine (if_pos h).trans ?_
  cases Literal.read? cs with
  | none => rfl
  | some l => cases l <;> rfl

/-! ## §2. Integers -/

/-- The sign and the digits of an integer. -/
theorem intChars_eq (n : Int64) :
    Value.intChars n = signChars (decide (n.toInt < 0)) ++ Nat.toDigits 10 n.toInt.natAbs := by
  unfold Value.intChars
  rw [Int.toString_eq_repr, Int.repr_eq_if]
  by_cases hn : 0 ≤ n.toInt
  · have hneg : decide (n.toInt < 0) = false := by simpa using hn
    have habs : n.toInt.toNat = n.toInt.natAbs := by omega
    rw [if_pos hn, hneg, habs, Nat.toList_repr]
    rfl
  · have hneg : decide (n.toInt < 0) = true := by simpa using hn
    have habs : (-n.toInt).toNat = n.toInt.natAbs := by omega
    rw [if_neg hn, hneg, habs, String.toList_append, Nat.toList_repr]
    rfl

theorem readInteger?_intChars (n : Int64) : readInteger? (Value.intChars n) = some n.toInt := by
  rw [intChars_eq]
  obtain ⟨c, cs, hcs⟩ := List.exists_cons_of_ne_nil (Nat.toDigits_ne_nil (n := n.toInt.natAbs) (b := 10))
  have hc : c.isDigit = true := isDigit_toDigits c (by rw [hcs]; simp)
  have hall : (Nat.toDigits 10 n.toInt.natAbs).all Char.isDigit = true :=
    List.all_eq_true.2 isDigit_toDigits
  unfold readInteger?
  rw [hcs] at hall ⊢
  rw [takeSign_signChars _ hc]
  simp only [hall, List.isEmpty_cons, Bool.not_true, Bool.or_false, Bool.false_eq_true, if_false]
  rw [← hcs, ofDigits_toDigits]
  refine congrArg some ?_
  by_cases hn : n.toInt < 0
  · rw [decide_eq_true hn, if_pos rfl]
    omega
  · rw [decide_eq_false hn, if_neg Bool.false_ne_true]
    omega

/-- An integer is read back from its text. -/
theorem atomValue_intChars (n : Int64) : atomValue (Value.intChars n) = .ok (.int n) := by
  have hstart : startsLikeNumber (Value.intChars n) = true := by
    rw [intChars_eq]
    obtain ⟨c, cs, hcs⟩ := List.exists_cons_of_ne_nil (Nat.toDigits_ne_nil (n := n.toInt.natAbs) (b := 10))
    rw [hcs]
    exact startsLikeNumber_signChars _ (isDigit_toDigits c (by rw [hcs]; simp)) cs
  have hfit : fit? n.toInt = some n := by
    have hlow := n.le_toInt
    have hhigh := n.toInt_lt
    unfold fit?
    have hbounds : (-0x8000000000000000 ≤ n.toInt && n.toInt < 0x8000000000000000) = true := by
      rw [Bool.and_eq_true, decide_eq_true_eq, decide_eq_true_eq]
      exact ⟨hlow, hhigh⟩
    rw [if_pos hbounds, Int64.ofInt_toInt]
  have hread : Literal.read? (Value.intChars n) = some (.int n) := by
    unfold Literal.read?
    rw [readInteger?_intChars, Option.bind_some, hfit]
  rw [atomValue_of_startsLikeNumber hstart, hread]

theorem isNumeral_intChars (n : Int64) : ∀ c ∈ Value.intChars n, IsNumeral c := by
  intro c hc
  rw [intChars_eq] at hc
  rcases List.mem_append.1 hc with hc | hc
  · exact isNumeral_signChars _ c hc
  · exact .inl (isDigit_toDigits c hc)

/-! ## §3. Floats -/

/-- Digits, a point and perhaps further digits. -/
def IsFixedPoint (cs : List Char) : Prop :=
  ∃ c whole fraction, cs = c :: (whole ++ '.' :: fraction) ∧ c.isDigit = true ∧
    (∀ d ∈ whole, d.isDigit = true) ∧ ∀ d ∈ fraction, d.isDigit = true

theorem isFixedPoint_repr (n : Nat) {fraction : List Char}
    (h : ∀ d ∈ fraction, d.isDigit = true) :
    IsFixedPoint ((Nat.repr n).toList ++ '.' :: fraction) := by
  rw [Nat.toList_repr]
  have hdigits := isDigit_toDigits (n := n)
  obtain ⟨c, cs, hcs⟩ := List.exists_cons_of_ne_nil (Nat.toDigits_ne_nil (n := n) (b := 10))
  rw [hcs] at hdigits ⊢
  exact ⟨c, cs, fraction, rfl, hdigits c (by simp), fun d hd => hdigits d (by simp [hd]), h⟩

theorem isFixedPoint_text (x : DecimalFraction) : IsFixedPoint x.text.toList := by
  have hpoint : ".".toList = ['.'] := rfl
  unfold DecimalFraction.text
  simp only [String.toList_append, hpoint, String.toList_ofList]
  rw [List.append_assoc, List.append_assoc, List.singleton_append]
  refine isFixedPoint_repr _ ?_
  intro d hd
  rcases List.mem_append.1 hd with hd | hd
  · -- the zeros between the point and the first digit behind it
    rw [List.eq_of_mem_replicate hd]
    decide
  · rw [Nat.toList_repr] at hd
    exact isDigit_toDigits d hd

theorem isFixedPoint_magnitudeText (m : Nat) (e : Int) (lowest : Bool) :
    IsFixedPoint (magnitudeText m e lowest).toList := by
  have hpoint : ".0".toList = ['.', '0'] := rfl
  have hwhole : ∀ n : Nat, IsFixedPoint (Nat.repr n ++ ".0").toList := by
    intro n
    rw [String.toList_append, hpoint]
    refine isFixedPoint_repr n ?_
    intro d hd
    rw [List.mem_singleton.1 hd]
    rfl
  unfold magnitudeText
  split
  · exact hwhole _
  · simp only
    split
    · exact hwhole _
    · exact isFixedPoint_text _

/-- The text of a finite float: a minus or nothing, and digits with a point. -/
theorem floatText_of_finite {x : Float} (hinf : x.isInf = false) (hnan : x.isNaN = false) :
    ∃ negative ds, (floatText x).toList = signChars negative ++ ds ∧ IsFixedPoint ds := by
  obtain ⟨negative, m, e, lowest, hx⟩ := Decoded.ofBits_of_finite hinf hnan
  refine ⟨negative, (magnitudeText m e lowest).toList, ?_, isFixedPoint_magnitudeText m e lowest⟩
  unfold floatText
  rw [hx]
  unfold Decoded.text
  rw [String.toList_append]
  cases negative <;> rfl

/-- The texts of infinite floats. -/
theorem floatText_of_isInf {x : Float} (h : x.isInf = true) :
    floatText x = "inf" ∨ floatText x = "-inf" := by
  obtain ⟨negative, hx⟩ := Decoded.ofBits_of_isInf h
  unfold floatText
  rw [hx]
  cases negative with
  | true => exact .inr rfl
  | false => exact .inl rfl

theorem isNumeral_of_isFixedPoint {cs : List Char} (h : IsFixedPoint cs) :
    ∀ c ∈ cs, IsNumeral c := by
  obtain ⟨c, whole, fraction, rfl, hc, hwhole, hfraction⟩ := h
  intro d hd
  rcases List.mem_cons.1 hd with rfl | hd
  · exact .inl hc
  · rcases List.mem_append.1 hd with hd | hd
    · exact .inl (hwhole d hd)
    · rcases List.mem_cons.1 hd with rfl | hd
      · exact .inr (.inl rfl)
      · exact .inl (hfraction d hd)

/-- Digits with a point are no integer, so what they are read to is up to `readFloat?`. -/
theorem atomValue_of_isFixedPoint (negative : Bool) {ds : List Char} (hds : IsFixedPoint ds)
    {x : Float} (h : readFloat? (signChars negative ++ ds) = some x) :
    atomValue (signChars negative ++ ds) = .ok (.float x) := by
  obtain ⟨c, whole, fraction, rfl, hc, -, -⟩ := hds
  have hinteger : readInteger? (signChars negative ++ c :: (whole ++ '.' :: fraction)) = none := by
    unfold readInteger?
    rw [takeSign_signChars negative hc]
    have hpoint : (c :: (whole ++ '.' :: fraction)).all Char.isDigit = false := by
      rw [List.all_eq_false]
      exact ⟨'.', by simp, by decide⟩
    simp only [hpoint, Bool.not_false, Bool.or_true, if_true]
  rw [atomValue_of_startsLikeNumber (startsLikeNumber_signChars negative hc _)]
  unfold Literal.read?
  rw [hinteger, h]
  rfl

/-- A finite float is read back from its text if `readFloat?` gives it back. -/
theorem atomValue_floatText {x : Float} (hinf : x.isInf = false) (hnan : x.isNaN = false)
    (h : readFloat? (floatText x).toList = some x) :
    atomValue (floatText x).toList = .ok (.float x) := by
  obtain ⟨negative, ds, htext, hds⟩ := floatText_of_finite hinf hnan
  rw [htext] at h ⊢
  exact atomValue_of_isFixedPoint negative hds h

/-! ## §4. Runs of plain characters -/

theorem plainRun_of_isNumeral {cs : List Char} (hne : cs ≠ []) (h : ∀ c ∈ cs, IsNumeral c) :
    Token.PlainRun cs :=
  ⟨hne, fun c hc => isDelimiter_of_isNumeral (h c hc)⟩

theorem plainRun_intChars (n : Int64) : Token.PlainRun (Value.intChars n) := by
  refine plainRun_of_isNumeral ?_ (isNumeral_intChars n)
  rw [intChars_eq]
  exact List.append_ne_nil_of_right_ne_nil _ Nat.toDigits_ne_nil

theorem isNumeral_floatText {x : Float} (hinf : x.isInf = false) (hnan : x.isNaN = false) :
    ∀ c ∈ (floatText x).toList, IsNumeral c := by
  obtain ⟨negative, ds, htext, hds⟩ := floatText_of_finite hinf hnan
  intro c hc
  rw [htext] at hc
  rcases List.mem_append.1 hc with hc | hc
  · exact isNumeral_signChars negative c hc
  · exact isNumeral_of_isFixedPoint hds c hc

theorem plainRun_floatText {x : Float} (hnan : x.isNaN = false) :
    Token.PlainRun (floatText x).toList := by
  cases hinf : x.isInf with
  | true =>
    rcases floatText_of_isInf hinf with h | h
    · rw [h]
      exact .of_all rfl
    · rw [h]
      exact .of_all rfl
  | false =>
    refine plainRun_of_isNumeral ?_ (isNumeral_floatText hinf hnan)
    obtain ⟨negative, ds, htext, c, whole, fraction, rfl, -⟩ := floatText_of_finite hinf hnan
    rw [htext]
    exact List.append_ne_nil_of_right_ne_nil _ (List.cons_ne_nil _ _)

theorem ne_at_of_isNumeral {c : Char} (h : IsNumeral c) : c ≠ '@' := by
  rintro rfl
  rcases h with h | h | h
  · exact absurd h (by decide)
  · exact absurd h (by decide)
  · exact absurd h (by decide)

/-- No text of a float holds an at sign. -/
theorem floatText_ne_at {x : Float} (hnan : x.isNaN = false) :
    ∀ c ∈ (floatText x).toList, c ≠ '@' := by
  intro c hc
  cases hinf : x.isInf with
  | true =>
    rcases floatText_of_isInf hinf with h | h
    · rw [h] at hc
      have hall : "inf".toList.all (· != '@') = true := rfl
      exact bne_iff_ne.1 (List.all_eq_true.1 hall c hc)
    · rw [h] at hc
      have hall : "-inf".toList.all (· != '@') = true := rfl
      exact bne_iff_ne.1 (List.all_eq_true.1 hall c hc)
  | false =>
    exact ne_at_of_isNumeral (isNumeral_floatText hinf hnan c hc)

/-- The text of an infinite float is read as a symbol. -/
theorem atomValue_floatText_of_isInf {x : Float} (h : x.isInf = true) :
    ∃ name, atomValue (floatText x).toList = .ok (.symbol name) := by
  rcases floatText_of_isInf h with h | h
  · rw [h]
    exact ⟨_, rfl⟩
  · rw [h]
    exact ⟨_, rfl⟩

end TinyLisp
