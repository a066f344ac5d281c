import TinyLisp.Decimal.Notation
import TinyLisp.Decimal.Literal
import Mathlib.Logic.Basic

/-!
# Floats that literals denote

A literal denotes a finite float or, if it is too large, an infinite one, but never one that is
not a number: rounding does not give that, nor does dividing by a power of ten or multiplying
with one (`Literal.isNaN_of_read?`). What the bits of a float stand for agrees with what the
float itself says (`Decoded.ofBits_of_isInf`, `Decoded.ofBits_of_finite`).
-/

namespace TinyLisp.Decimal

open Float.Model Float.Model.UnpackedFloat

/-! ## §1. What the bits stand for -/

theorem toNat_unpackExponent (b : BitVec 64) :
    (@unpackExponent Format.binary64 b).toNat = b.toNat / Nat.pow 2 52 % Nat.pow 2 11 := by
  unfold unpackExponent
  rw [BitVec.toNat_cast, BitVec.extractLsb_toNat, Nat.shiftRight_eq_div_pow]
  rfl

theorem toNat_unpackMantissa (b : BitVec 64) :
    (@unpackMantissa Format.binary64 b).toNat = b.toNat % Nat.pow 2 52 := by
  unfold unpackMantissa
  rw [BitVec.toNat_cast, BitVec.extractLsb_toNat, Nat.shiftRight_zero]
  rfl

/-- The bits stand for an infinite float if the exponent is all ones and the fraction is zero,
and for one that is not a number if the exponent is all ones and the fraction is not zero. -/
theorem unpack_cases (b : BitVec 64) :
    (b.toNat / Nat.pow 2 52 % Nat.pow 2 11 = 2047 → b.toNat % Nat.pow 2 52 = 0 →
      ∃ s, UnpackedFloat.unpack Format.binary64 b = .infinity s) ∧
    (b.toNat / Nat.pow 2 52 % Nat.pow 2 11 = 2047 → ¬ b.toNat % Nat.pow 2 52 = 0 →
      UnpackedFloat.unpack Format.binary64 b = .notANumber) ∧
    (¬ b.toNat / Nat.pow 2 52 % Nat.pow 2 11 = 2047 →
      (UnpackedFloat.unpack Format.binary64 b).isInf = false ∧
        (UnpackedFloat.unpack Format.binary64 b).isNaN = false) := by
  have hexp : @unpackExponent Format.binary64 b = -1#_ ↔
      b.toNat / Nat.pow 2 52 % Nat.pow 2 11 = 2047 := by
    rw [← toNat_unpackExponent, BitVec.toNat_eq]
    exact Iff.rfl
  have hfrac : @unpackMantissa Format.binary64 b = 0#_ ↔ b.toNat % Nat.pow 2 52 = 0 := by
    rw [← toNat_unpackMantissa, BitVec.toNat_eq]
    exact Iff.rfl
  rw [← hexp, ← hfrac]
  unfold UnpackedFloat.unpack
  refine ⟨fun he hf => ?_, fun he hf => ?_, fun he => ?_⟩
  · exact ⟨_, (if_pos he).trans (if_pos hf)⟩
  · exact (if_pos he).trans (if_neg hf)
  · rw [if_neg he]
    -- a zero, a subnormal or a normal float, none of which is infinite
    by_cases hz : @unpackExponent Format.binary64 b = 0#_
    · rw [if_pos hz]
      by_cases hm : @unpackMantissa Format.binary64 b = 0#_
      · rw [dif_pos hm]
        exact ⟨rfl, rfl⟩
      · rw [dif_neg hm]
        exact ⟨rfl, rfl⟩
    · rw [if_neg hz]
      exact ⟨rfl, rfl⟩

/-- An infinite float is decoded as such. -/
theorem Decoded.ofBits_of_isInf {x : Float} (h : x.isInf = true) :
    ∃ negative, Decoded.ofBits x.toBits.toNat = .infinite negative := by
  obtain ⟨-, hnan, hfinite⟩ := unpack_cases x.toModel.toBits.toBitVec
  change (UnpackedFloat.unpack Format.binary64 x.toModel.toBits.toBitVec).isInf = true at h
  have hexp : x.toBits.toNat / Nat.pow 2 52 % Nat.pow 2 11 = 2047 := by
    refine Classical.byContradiction fun he => ?_
    rw [(hfinite he).1] at h
    exact absurd h (by simp)
  have hfrac : x.toBits.toNat % Nat.pow 2 52 = 0 := by
    refine Classical.byContradiction fun hf => ?_
    rw [hnan hexp hf] at h
    exact absurd h (by decide)
  refine ⟨x.toBits.toNat / Nat.pow 2 63 % 2 == 1, ?_⟩
  unfold Decoded.ofBits
  simp only [hexp, hfrac]
  rfl

/-- A float that is finite is decoded as such. -/
theorem Decoded.ofBits_of_finite {x : Float} (hinf : x.isInf = false) (hnan : x.isNaN = false) :
    ∃ negative mantissa exponent lowest,
      Decoded.ofBits x.toBits.toNat = .finite negative mantissa exponent lowest := by
  obtain ⟨hi, hn, -⟩ := unpack_cases x.toModel.toBits.toBitVec
  change (UnpackedFloat.unpack Format.binary64 x.toModel.toBits.toBitVec).isInf = false at hinf
  change (UnpackedFloat.unpack Format.binary64 x.toModel.toBits.toBitVec).isNaN = false at hnan
  have hexp : ¬ x.toBits.toNat / Nat.pow 2 52 % Nat.pow 2 11 = 2047 := by
    intro he
    by_cases hf : x.toBits.toNat % Nat.pow 2 52 = 0
    · obtain ⟨s, hs⟩ := hi he hf
      rw [hs] at hinf
      exact absurd hinf (by simp [UnpackedFloat.isInf])
    · rw [hn he hf] at hnan
      exact absurd hnan (by decide)
  unfold Decoded.ofBits
  simp only [beq_iff_eq, hexp, if_false]
  split
  · exact ⟨_, _, _, _, rfl⟩
  · exact ⟨_, _, _, _, rfl⟩

/-! ## §2. Operations that give numbers -/

/-- Packing what is a number gives a number. -/
theorem isNaN_pack {f : UnpackedFloat} (hf : f ≠ .notANumber) :
    (Float.ofModel (Float.Model.pack f)).isNaN = false := by
  have hcomponents : ∀ (sign : Sign) (e : BitVec 11) (m : BitVec 52), (e = -1#_ → m = 0#_) →
      (UnpackedFloat.unpack Format.binary64
        (packComponents Format.binary64 sign e m)).isNaN = false := by
    intro sign e m h
    obtain ⟨hinf, -, hfinite⟩ := unpack_cases (packComponents Format.binary64 sign e m)
    rw [← toNat_unpackExponent, unpackExponent_packComponents] at hinf hfinite
    rw [← toNat_unpackMantissa, unpackMantissa_packComponents] at hinf
    by_cases he : e = -1#_
    · obtain ⟨s, hs⟩ := hinf (by rw [he]; rfl) (by rw [h he]; rfl)
      rw [hs]
      rfl
    · exact (hfinite fun hval => he (BitVec.eq_of_toNat_eq hval)).2
  show (UnpackedFloat.unpack Format.binary64 (UnpackedFloat.pack Format.binary64 f)).isNaN = false
  -- the exponent is all ones only for an infinite float, whose fraction is zero
  cases f with
  | notANumber => exact absurd rfl hf
  | infinity s => exact hcomponents s _ _ fun _ => rfl
  | zero s => exact hcomponents s _ _ fun _ => rfl
  | finite s m e hm =>
    unfold UnpackedFloat.pack
    dsimp only
    split
    · exact hcomponents s _ _ fun _ => rfl
    · next hsmall =>
      split
      · refine hcomponents s _ _ fun he => ?_
        -- a biased exponent of all ones would not have fitted
        have hlt : (e + Format.binary64.exponentBias +
            Format.binary64.mantissaBitsWithoutImplicit).toNat + 1 < 2 ^ 11 := Nat.lt_of_not_le hsmall
        have hval := congrArg BitVec.toNat he
        rw [BitVec.toNat_ofNat, Nat.mod_eq_of_lt (by exact Nat.lt_of_succ_lt hlt)] at hval
        rw [hval] at hlt
        exact absurd hlt (by decide)
      · exact hcomponents s _ _ fun he => absurd he (by decide)

theorem finite_ne_notANumber (s : Sign) (m : Nat) (e : Int) (hm : 0 < m) :
    UnpackedFloat.finite s m e hm ≠ .notANumber := by
  intro h
  cases h

theorem roundWithAccuracy_ne_notANumber (spec : Format) (sign : Sign) (m : Nat) (e : Int)
    (acc : Accuracy) : roundWithAccuracy spec sign m e acc ≠ .notANumber := by
  intro h
  unfold roundWithAccuracy at h
  obtain ⟨_, h⟩ | ⟨_, h⟩ := dite_eq_iff.1 h
  · cases h
  · exact finite_ne_notANumber _ _ _ _ h

theorem ofInt_ne_notANumber (spec : Format) (n : Int) :
    UnpackedFloat.ofInt spec n ≠ .notANumber := by
  unfold UnpackedFloat.ofInt UnpackedFloat.normalize
  split
  · exact roundWithAccuracy_ne_notANumber _ _ _ _ _
  · simp
  · exact roundWithAccuracy_ne_notANumber _ _ _ _ _

/-- Dividing a number by a finite one that is not zero gives a number. -/
theorem div_ne_notANumber (spec : Format) {f : UnpackedFloat} (hf : f ≠ .notANumber) (s : Sign)
    (m : Nat) (e : Int) (hm : 0 < m) : UnpackedFloat.div spec f (.finite s m e hm) ≠ .notANumber := by
  cases f with
  | notANumber => exact absurd rfl hf
  | finite s' m' e' hm' => exact roundWithAccuracy_ne_notANumber _ _ _ _ _
  | _ =>
    intro h
    cases h

/-- Multiplying a number with a finite one that is not zero gives a number. -/
theorem mul_ne_notANumber (spec : Format) {f : UnpackedFloat} (hf : f ≠ .notANumber) (s : Sign)
    (m : Nat) (e : Int) (hm : 0 < m) : UnpackedFloat.mul spec f (.finite s m e hm) ≠ .notANumber := by
  cases f with
  | notANumber => exact absurd rfl hf
  | finite s' m' e' hm' => exact roundWithAccuracy_ne_notANumber _ _ _ _ _
  | _ =>
    intro h
    cases h

theorem unpack_ne_notANumber {x : Float} (h : x.isNaN = false) :
    x.toModel.unpack ≠ .notANumber := by
  intro hx
  change x.toModel.unpack.isNaN = false at h
  rw [hx] at h
  exact absurd h (by decide)

theorem isNaN_toFloat (n : UInt64) : n.toFloat.isNaN = false :=
  isNaN_pack (ofInt_ne_notANumber _ _)

theorem isNaN_neg {x : Float} (h : x.isNaN = false) : (-x).isNaN = false := by
  have hx := unpack_ne_notANumber h
  refine isNaN_pack (f := x.toModel.unpack.neg) fun hneg => ?_
  cases hu : x.toModel.unpack with
  | notANumber => exact hx hu
  | _ =>
    rw [hu] at hneg
    cases hneg

/-- A float that is finite and not zero. -/
def IsUnit (x : Float) : Prop :=
  ∃ s m e hm, x.toModel.unpack = .finite s m e hm

theorem isNaN_div {x y : Float} (h : x.isNaN = false) (hy : IsUnit y) : (x / y).isNaN = false := by
  obtain ⟨s, m, e, hm, hu⟩ := hy
  refine isNaN_pack ?_
  rw [hu]
  exact div_ne_notANumber _ (unpack_ne_notANumber h) s m e hm

theorem isNaN_mul {x y : Float} (h : x.isNaN = false) (hy : IsUnit y) : (x * y).isNaN = false := by
  obtain ⟨s, m, e, hm, hu⟩ := hy
  refine isNaN_pack ?_
  rw [hu]
  exact mul_ne_notANumber _ (unpack_ne_notANumber h) s m e hm

/-! ## §3. Literals -/

theorem ofScientific_ne_notANumber (spec : Format) (m : Nat) (e : Int) :
    UnpackedFloat.ofScientific spec m e ≠ .notANumber := by
  intro h
  unfold UnpackedFloat.ofScientific at h
  obtain ⟨_, h⟩ | ⟨_, h⟩ := dite_eq_iff.1 h
  · cases h
  obtain ⟨_, h⟩ | ⟨_, h⟩ := ite_eq_iff.1 h
  · cases h
  obtain ⟨_, h⟩ | ⟨_, h⟩ := ite_eq_iff.1 h
  · cases h
  obtain ⟨_, h⟩ | ⟨_, h⟩ := ite_eq_iff.1 h
  · exact mul_ne_notANumber spec (finite_ne_notANumber _ _ _ _) _ _ _ _ h
  · exact div_ne_notANumber spec (finite_ne_notANumber _ _ _ _) _ _ _ _ h

/-- The powers of ten up to `10^22` as floats are finite and not zero. -/
theorem isUnit_power (e : Fin 23) : IsUnit Float.exactlyRepresentablePowersOfTen[e] := by
  have hall : ∀ e : Fin 23, (match Float.exactlyRepresentablePowersOfTen[e].toModel.unpack with
    | .finite .. => true
    | _ => false) = true := by decide
  have he := hall e
  cases hu : Float.exactlyRepresentablePowersOfTen[e].toModel.unpack with
  | finite s m k hm => exact ⟨s, m, k, hm, hu⟩
  | _ =>
    rw [hu] at he
    cases he

theorem isNaN_ofScientific (m : Nat) (s : Bool) (e : Nat) :
    (Float.ofScientific m s e).isNaN = false := by
  unfold Float.ofScientific
  split
  · next h =>
    have hpower := isUnit_power ⟨e, Nat.lt_succ_of_le h.2⟩
    simp only
    split
    · exact isNaN_div (isNaN_toFloat _) hpower
    · exact isNaN_mul (isNaN_toFloat _) hpower
  · exact isNaN_pack (ofScientific_ne_notANumber _ _ _)

theorem isNaN_nearest (m : Nat) (e : Int) : (nearest m e).isNaN = false := by
  unfold nearest
  simp only
  split
  · exact isNaN_ofScientific _ _ _
  · split
    · decide
    · split
      · exact isNaN_ofScientific _ _ _
      · exact isNaN_ofScientific _ _ _

theorem isNaN_of_readFloat? {cs : List Char} {x : Float} (h : readFloat? cs = some x) :
    x.isNaN = false := by
  have hend : ∀ (negative : Bool) (m k : Nat) (exponent : Option Int),
      (exponent.map fun e => if negative then -nearest m (e - k) else nearest m (e - k)) = some x →
        x.isNaN = false := by
    intro negative m k exponent hx
    obtain ⟨e, -, rfl⟩ := Option.map_eq_some_iff.1 hx
    cases negative with
    | true => exact isNaN_neg (isNaN_nearest _ _)
    | false => exact isNaN_nearest _ _
  unfold readFloat? at h
  simp only at h
  split at h
  · split at h
    · exact absurd h (by simp)
    · exact hend _ _ _ _ h
  · split at h
    · exact absurd h (by simp)
    · exact hend _ _ _ _ h

/-- No literal denotes a float that is not a number. -/
theorem Literal.isNaN_of_read? {cs : List Char} {x : Float} (h : Literal.read? cs = some (.float x)) :
    x.isNaN = false := by
  unfold Literal.read? at h
  split at h
  · exact absurd h (by simp)
  · obtain ⟨y, hy, hyx⟩ := Option.map_eq_some_iff.1 h
    cases hyx
    exact isNaN_of_readFloat? hy

end TinyLisp.Decimal
