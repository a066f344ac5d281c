import TinyLisp.Proofs.EvalLaws
import Mathlib.Data.Int.ModEq
import Mathlib.Algebra.Order.Group.Int
import Mathlib.Algebra.Order.Group.Abs
import Mathlib.Algebra.BigOperators.Group.List.Basic

/-!
# Arithmetic on integers

An operation on integers gives the exact number, reduced modulo `2 ^ 64` into the range of the
integers of the language (`Reduced`). Reduction goes together with sums, differences and products, so
that a long sum may wrap anywhere on the way and still comes out as if it were reduced at the end. Nor
does it matter in which order the integers are taken, and whether groups of them are added up before
(`Primitive.Regroups`). A quotient is truncated toward zero and a remainder is never negative, also at
the ends of the range (`Primitive.arithmetic_exact`).
-/

namespace TinyLisp

/-! ## §1. Reduced integers -/

/-- An exact number, reduced into the range of the integers of the language. -/
structure Reduced (exact : Int) (n : Int64) : Prop where
  le : -2 ^ 63 ≤ n.toInt
  lt : n.toInt < 2 ^ 63
  modEq : n.toInt ≡ exact [ZMOD 2 ^ 64]

theorem reduced_of_toInt {exact : Int} {n : Int64} (h : n.toInt = exact.bmod (2 ^ 64)) :
    Reduced exact n := by
  refine ⟨n.le_toInt, n.toInt_lt, ?_⟩
  rw [h]
  exact Int.bmod_emod

theorem reduced_ofInt (exact : Int) : Reduced exact (Int64.ofInt exact) :=
  reduced_of_toInt Int64.toInt_ofInt

/-! ## §2. Folds over integers -/

/-- Reduction at every step is reduction at the end. -/
theorem foldl_ofInt {exactly : Int → Int → Int} {wrapping : Int64 → Int64 → Int64}
    (h : ∀ a b, Int64.ofInt (exactly a b) = wrapping (Int64.ofInt a) (Int64.ofInt b)) (a : Int)
    (ns : List Int64) :
    ns.foldl wrapping (Int64.ofInt a) = Int64.ofInt ((ns.map Int64.toInt).foldl exactly a) := by
  induction ns generalizing a with
  | nil => rfl
  | cons n ns ih =>
    have hstep : wrapping (Int64.ofInt a) n = Int64.ofInt (exactly a n.toInt) := by
      rw [h, Int64.ofInt_toInt]
    rw [List.foldl_cons, hstep, ih]
    rfl

theorem foldl_sub (a : Int) (xs : List Int) : xs.foldl (· - ·) a = a - xs.sum := by
  induction xs generalizing a with
  | nil => simp
  | cons x xs ih =>
    rw [List.foldl_cons, ih, List.sum_cons]
    omega

section Groups

variable {op : Int64 → Int64 → Int64} {e : Int64} [Std.Associative op] [Std.LawfulIdentity op e]

/-- To go on from a result is to combine it with the result of the rest. -/
theorem foldl_from (n : Int64) (ns : List Int64) : ns.foldl op n = op n (ns.foldl op e) := by
  have hassoc : ns.foldl op (op n e) = op n (ns.foldl op e) := List.foldl_assoc
  have hright : op n e = n := Std.LawfulRightIdentity.right_id n
  rwa [hright] at hassoc

/-- The results of some groups, combined, are the result of all that is in the groups. -/
theorem foldl_groups (groups : List (List Int64)) :
    (groups.map (List.foldl op e)).foldl op e = groups.flatten.foldl op e := by
  induction groups with
  | nil => rfl
  | cons group groups ih =>
    have hleft : op e (group.foldl op e) = group.foldl op e := Std.LawfulLeftIdentity.left_id _
    calc ((group :: groups).map (List.foldl op e)).foldl op e
        = (groups.map (List.foldl op e)).foldl op (op e (group.foldl op e)) := rfl
      _ = (groups.map (List.foldl op e)).foldl op (group.foldl op e) := by
          rw [hleft]
      _ = op (group.foldl op e) (groups.flatten.foldl op e) := by
          rw [foldl_from (e := e), ih]
      _ = groups.flatten.foldl op (group.foldl op e) := (foldl_from _ _).symm
      _ = (group :: groups).flatten.foldl op e := by
          rw [List.flatten_cons, List.foldl_append]

end Groups

namespace Number

/-- Integers are numbers. -/
theorem ofValues_ints (ns : List Int64) : ofValues (ns.map .int) = .ok (ns.map int) := by
  induction ns with
  | nil => rfl
  | cons n ns ih =>
    show (ofValue (.int n) >>= fun x => ofValues (ns.map .int) >>= fun xs => pure (x :: xs)) = _
    rw [ih]
    rfl

/-- Integers, combined one after another, stay integers. -/
theorem foldl_combine (onInts : Int64 → Int64 → Int64) (onFloats : Float → Float → Float)
    (n : Int64) (ns : List Int64) :
    (ns.map int).foldl (combine onInts onFloats) (int n) = int (ns.foldl onInts n) := by
  induction ns generalizing n with
  | nil => rfl
  | cons m ns ih => exact ih (onInts n m)

end Number

/-! ## §3. Operations -/

namespace Primitive

/-- On integers, an operation gives an exact number, reduced. -/
def Computes (p : Primitive) (args : List Int64) (exact : Int) : Prop :=
  ∃ n, Reduced exact n ∧ p.Gives (args.map .int) (.int n)

/-- An operation gives the same for integers in any order, and with what it gives for groups of them
in place of the groups. -/
def Regroups (p : Primitive) : Prop :=
  ∀ (groups : List (List Int64)) (parts args : List Int64) (n : Int64),
    List.Forall₂ (fun group part => p.Gives (group.map .int) (.int part)) groups parts →
    groups.flatten.Perm args →
    (p.Gives (parts.map .int) (.int n) ↔ p.Gives (args.map .int) (.int n))

variable {p : Primitive}

/-- An operation that turns the numbers of its arguments into a number. -/
theorem gives_of_run {f : List Number → Number} {args : List Int64} {n : Int64}
    (harity : p.arity.contains args.length = true)
    (hrun : ∀ en (vs : List Value), vs.length = args.length →
      p.run en vs = do pure (f (← Eval.expect (Number.ofValues vs))).toValue)
    (hf : f (args.map .int) = .int n) : p.Gives (args.map .int) (.int n) := by
  intro en w
  rw [call_eq (by simpa using harity), hrun en _ (by simp), Number.ofValues_ints]
  show EStateM.Result.ok (f (args.map .int)).toValue w = _
  rw [hf]
  rfl

theorem gives_add (ns : List Int64) : add.Gives (ns.map .int) (.int (ns.foldl (· + ·) 0)) :=
  gives_of_run (f := Number.sum) (by simp [arity, Arity.contains]) (fun _ _ _ => rfl)
    (Number.foldl_combine _ _ 0 ns)

theorem gives_mul (ns : List Int64) : mul.Gives (ns.map .int) (.int (ns.foldl (· * ·) 1)) :=
  gives_of_run (f := Number.product) (by simp [arity, Arity.contains]) (fun _ _ _ => rfl)
    (Number.foldl_combine _ _ 1 ns)

/-- A single argument is taken with the other sign. -/
theorem gives_sub_single (n : Int64) : sub.Gives [.int n] (.int (-n)) := by
  show sub.Gives ([n].map .int) (.int (-n))
  exact gives_of_run (f := Number.difference) rfl (fun _ _ _ => rfl) rfl

theorem gives_sub (n : Int64) {ns : List Int64} (h : ns ≠ []) :
    sub.Gives ((n :: ns).map .int) (.int (ns.foldl (· - ·) n)) := by
  obtain ⟨m, ns, rfl⟩ := List.exists_cons_of_ne_nil h
  exact gives_of_run (f := Number.difference) (by simp [arity, Arity.contains])
    (fun _ _ _ => rfl) (Number.foldl_combine _ _ n (m :: ns))

/-- An operation that combines its arguments one after another, with an operation that is
associative and commutative. -/
theorem regroups_of_gives {op : Int64 → Int64 → Int64} {e : Int64} [Std.Associative op]
    [Std.Commutative op] [Std.LawfulIdentity op e]
    (h : ∀ ns : List Int64, p.Gives (ns.map .int) (.int (ns.foldl op e))) : p.Regroups := by
  intro groups parts args n hparts hargs
  have hgives (ns : List Int64) {n : Int64} :
      p.Gives (ns.map .int) (.int n) ↔ ns.foldl op e = n := by
    constructor
    · intro hn
      exact Value.int.inj ((h ns).unique hn)
    · rintro rfl
      exact h ns
  have hvalues : groups.map (List.foldl op e) = parts := by
    clear hargs
    induction hparts with
    | nil => rfl
    | cons hpart _ ih => rw [List.map_cons, ih, (hgives _).1 hpart]
  have hsame : parts.foldl op e = args.foldl op e := by
    rw [← hvalues, foldl_groups]
    exact hargs.foldl_eq e
  rw [hgives, hgives, hsame]

theorem refuses_div (x : Int64) : div.Refuses [.int x, .int 0] .divisionByZero :=
  fun _ _ => rfl

theorem gives_div (x : Int64) {y : Int64} (hy : y ≠ 0) :
    div.Gives [.int x, .int y] (.int (x / y)) := by
  intro en w
  have hquotient : (Number.int x).quotient? (.int y) = some (.int (x / y)) := by
    unfold Number.quotient? Number.isZero
    rw [if_neg (by simpa using hy)]
    rfl
  have hnumbers : Eval.expect (Number.ofValues [.int x, .int y]) = pure [.int x, .int y] := rfl
  rw [call_eq rfl]
  show divide (.int x) (.int y) w = _
  unfold divide
  rw [hnumbers, pure_bind]
  simp only [hquotient]
  rfl

theorem refuses_mod (x : Int64) : mod.Refuses [.int x, .int 0] .divisionByZero :=
  fun _ _ => rfl

theorem gives_mod (x : Int64) {y : Int64} (hy : y ≠ 0) :
    mod.Gives [.int x, .int y] (.int (Int64.ofInt (x.toInt.emod y.toInt))) := by
  intro en w
  have hremainder : remainder? x y = some (Int64.ofInt (x.toInt.emod y.toInt)) := if_neg hy
  have hints : ∀ n : Int64, Eval.expect (Value.int n).expectInt = pure n := fun _ => rfl
  rw [call_eq rfl]
  show modulo (.int x) (.int y) w = _
  unfold modulo
  rw [hints, hints, pure_bind, pure_bind]
  simp only [hremainder]
  rfl

/-- The remainder that is not negative is an integer of the language, and there is no other. -/
theorem remainder_spec (x : Int64) {y : Int64} (hy : y ≠ 0) (k : Int) :
    0 ≤ k ∧ k < |y.toInt| ∧ y.toInt ∣ x.toInt - k ↔
      k = (Int64.ofInt (x.toInt.emod y.toInt)).toInt := by
  have hne : y.toInt ≠ 0 := fun h => hy (Int64.toInt_inj.1 h)
  have hnonneg : 0 ≤ x.toInt % y.toInt := Int.emod_nonneg _ hne
  have hlt : x.toInt % y.toInt < |y.toInt| := Int.emod_lt_abs _ hne
  have hrange : (Int64.ofInt (x.toInt.emod y.toInt)).toInt = x.toInt % y.toInt := by
    have hle : |y.toInt| ≤ 2 ^ 63 := abs_le.2 ⟨y.le_toInt, y.toInt_lt.le⟩
    refine Int64.toInt_ofInt_of_le ?_ ?_
    · exact le_trans (by decide) hnonneg
    · exact lt_of_lt_of_le hlt hle
  rw [hrange]
  constructor
  · rintro ⟨hk, hklt, hdvd⟩
    have hmod : x.toInt % y.toInt = k % y.toInt :=
      Int.emod_eq_emod_iff_emod_sub_eq_zero.2 (Int.emod_eq_zero_of_dvd hdvd)
    rw [hmod, ← Int.emod_abs, Int.emod_eq_of_lt hk hklt]
  · rintro rfl
    exact ⟨hnonneg, hlt, Int.dvd_self_sub_emod⟩

/-! ## §4. Exactness -/

/-- Arithmetic on integers is exact modulo `2 ^ 64`: a sum, a product and a difference of any length
are the exact ones, reduced, where a single argument of a difference is taken with the other sign.
Sums and products depend neither on the order of the integers nor on how they are grouped. Division by
zero is refused, and nothing else is: a quotient is the exact one, truncated toward zero and reduced,
and a remainder is the one number that is not negative, smaller than the divisor's amount and off the
dividend by a multiple of the divisor. -/
theorem arithmetic_exact :
    (∀ ns, add.Computes ns (ns.map Int64.toInt).sum) ∧
    (∀ ns, mul.Computes ns (ns.map Int64.toInt).prod) ∧
    (∀ n, sub.Computes [n] (-n.toInt)) ∧
    (∀ n ns, ns ≠ [] → sub.Computes (n :: ns) (n.toInt - (ns.map Int64.toInt).sum)) ∧
    add.Regroups ∧ mul.Regroups ∧
    ∀ x y : Int64,
      (y = 0 → div.Refuses [.int x, .int y] .divisionByZero ∧
        mod.Refuses [.int x, .int y] .divisionByZero) ∧
      (y ≠ 0 → div.Computes [x, y] (x.toInt.tdiv y.toInt) ∧
        ∃ r : Int64, mod.Gives [.int x, .int y] (.int r) ∧
          ∀ k : Int, 0 ≤ k ∧ k < |y.toInt| ∧ y.toInt ∣ x.toInt - k ↔ k = r.toInt) := by
  refine ⟨?_, ?_, ?_, ?_, regroups_of_gives gives_add, regroups_of_gives gives_mul, ?_⟩
  · intro ns
    refine ⟨_, ?_, gives_add ns⟩
    rw [List.sum_eq_foldl]
    exact foldl_ofInt Int64.ofInt_add 0 ns ▸ reduced_ofInt _
  · intro ns
    refine ⟨_, ?_, gives_mul ns⟩
    rw [List.prod_eq_foldl]
    exact foldl_ofInt Int64.ofInt_mul 1 ns ▸ reduced_ofInt _
  · intro n
    exact ⟨-n, reduced_of_toInt (Int64.toInt_neg n), gives_sub_single n⟩
  · intro n ns hns
    refine ⟨_, ?_, gives_sub n hns⟩
    have hfold := foldl_ofInt Int64.ofInt_sub n.toInt ns
    rw [Int64.ofInt_toInt, foldl_sub] at hfold
    exact hfold ▸ reduced_ofInt _
  · intro x y
    constructor
    · rintro rfl
      exact ⟨refuses_div x, refuses_mod x⟩
    · intro hy
      refine ⟨⟨x / y, reduced_of_toInt (Int64.toInt_div x y), gives_div x hy⟩, ?_⟩
      exact ⟨_, gives_mod x hy, remainder_spec x hy⟩

/-- The ends of the range: the least integer by minus one wraps, and its remainder is zero; what is
left of minus one by the least integer is the greatest. -/
theorem arithmetic_exact_ends :
    sub.Computes [Int64.minValue, 1, 1] (-2 ^ 63 - 2) ∧
    div.Refuses [.int 7, .int 0] .divisionByZero ∧
    div.Computes [Int64.minValue, -1] (2 ^ 63) ∧
    mod.Gives [.int Int64.minValue, .int (-1)] (.int 0) ∧
    mod.Gives [.int (-1), .int Int64.minValue] (.int Int64.maxValue) := by
  obtain ⟨-, -, -, hsub, -, -, hdivision⟩ := arithmetic_exact
  obtain ⟨hdiv, r, hr, hspec⟩ := (hdivision Int64.minValue (-1)).2 (by decide)
  obtain ⟨-, q, hq, hspec'⟩ := (hdivision (-1) Int64.minValue).2 (by decide)
  have hzero : r = 0 := Int64.toInt_inj.1 ((hspec 0).1 (by decide)).symm
  have hgreatest : q = Int64.maxValue :=
    Int64.toInt_inj.1 ((hspec' (2 ^ 63 - 1)).1 (by decide)).symm
  refine ⟨hsub Int64.minValue [1, 1] (by decide), ((hdivision 7 0).1 rfl).1, hdiv, ?_, ?_⟩
  · rwa [hzero] at hr
  · rwa [hgreatest] at hq

end Primitive

end TinyLisp
