/-!
# Arities and parameter lists

An arity says how many arguments a procedure takes. A parameter list has fixed parameters and
at most one rest parameter, which follows the marker `&rest` and takes the surplus arguments.
-/

namespace TinyLisp

/-! ## §1. Arities -/

/-- The numbers of arguments that a procedure takes. -/
inductive Arity
  /-- At least `lo` and at most `hi`. -/
  | between (lo hi : Nat)
  | atLeast (lo : Nat)
  deriving Repr, DecidableEq

namespace Arity

/-- Exactly `n` arguments. -/
def exactly (n : Nat) : Arity := between n n

/-- Whether `n` arguments are right. -/
def contains : Arity → Nat → Bool
  | between lo hi, n => lo ≤ n && n ≤ hi
  | atLeast lo, n => lo ≤ n

/-- An arity in words. -/
def text : Arity → String
  | between lo hi =>
    if lo = hi then "exactly " ++ Nat.repr lo else "from " ++ Nat.repr lo ++ " to " ++ Nat.repr hi
  | atLeast lo => "at least " ++ Nat.repr lo

theorem contains_exactly {n k : Nat} : (exactly n).contains k = true ↔ k = n := by
  simp only [exactly, contains, Bool.and_eq_true, decide_eq_true_eq]
  omega

theorem contains_atLeast {n k : Nat} : (atLeast n).contains k = true ↔ n ≤ k := by
  simp [contains]

end Arity

/-- A call with a wrong number of arguments. -/
structure ArityError where
  name : String
  expected : Arity
  got : Nat
  deriving Repr, DecidableEq

/-- The wording of an arity error. -/
def ArityError.message (e : ArityError) : String :=
  "when evaluating " ++ e.name ++ " expected " ++ e.expected.text ++
    " arguments, but received " ++ Nat.repr e.got

/-- Checks the number of arguments in a call of `name`. -/
def Arity.check (a : Arity) (n : Nat) (name : String) : Except ArityError Unit :=
  if a.contains n then .ok () else .error ⟨name, a, n⟩

/-! ## §2. Parameter lists -/

/-- The name that announces the rest parameter. -/
def restMark : String := "&rest"

/-- Fixed parameters, and perhaps one that takes the surplus arguments. -/
structure Params where
  fixed : List String
  rest : Option String
  deriving Repr, DecidableEq, Inhabited

/-- What can be wrong with a parameter list. -/
inductive ParamsError
  /-- A parameter, shown as it prints, that is not a symbol. -/
  | notASymbol (shown : String)
  | duplicate (name : String)
  | repeatedMarker (count : Nat)
  | misplacedMarker
  deriving Repr, DecidableEq

/-- The wording of a fault in a parameter list. -/
def ParamsError.message : ParamsError → String
  | notASymbol shown => "parameter " ++ shown ++ " is not a symbol"
  | duplicate name => "parameter " ++ name ++ " appears more than once"
  | repeatedMarker n =>
    restMark ++ " appears " ++ Nat.repr n ++ " times, at most once allowed"
  | misplacedMarker => restMark ++ " must be followed by exactly one name"

namespace Params

/-- The names that a parameter list binds, the fixed ones first. -/
def names (p : Params) : List String :=
  p.fixed ++ p.rest.toList

/-- The numbers of arguments that fit a parameter list. -/
def arity (p : Params) : Arity :=
  match p.rest with
  | none => .exactly p.fixed.length
  | some _ => .atLeast p.fixed.length

/-- The first name, from the left, that stands earlier in the list or among `seen`. -/
def firstDuplicate? (seen : List String) : List String → Option String
  | [] => none
  | x :: xs => if x ∈ seen then some x else firstDuplicate? (x :: seen) xs

/-- Splits the names of a list with one marker at the marker, which must be the last but
one. -/
def splitRest? : List String → Option Params
  | [] => none
  | [_] => none
  | [m, r] => if m = restMark then some ⟨[], some r⟩ else none
  | x :: xs => if x = restMark then none else (splitRest? xs).map fun p => ⟨x :: p.fixed, p.rest⟩

/-- Refuses a parameter list that binds a name twice. -/
def distinct (p : Params) : Except ParamsError Params :=
  match firstDuplicate? [] p.names with
  | some x => .error (.duplicate x)
  | none => .ok p

/-- The parameter list that a list of names spells. The marker is checked before the
repetitions. -/
def ofNames (names : List String) : Except ParamsError Params :=
  match names.count restMark with
  | 0 => distinct ⟨names, none⟩
  | 1 =>
    match splitRest? names with
    | none => .error .misplacedMarker
    | some p => p.distinct
  | n => .error (.repeatedMarker n)

/-- The names that spell a parameter list. -/
def toNames (p : Params) : List String :=
  p.fixed ++ (p.rest.map fun r => [restMark, r]).getD []

/-- A parameter list as it is written. -/
def text (p : Params) : String :=
  "(" ++ " ".intercalate p.toNames ++ ")"

/-- Arguments that fit are enough for the fixed parameters. -/
theorem length_fixed_le {p : Params} {n : Nat} (h : p.arity.contains n = true) :
    p.fixed.length ≤ n := by
  unfold arity at h
  cases hr : p.rest with
  | none =>
    rw [hr] at h
    exact Nat.le_of_eq (Arity.contains_exactly.1 h).symm
  | some _ =>
    rw [hr] at h
    exact Arity.contains_atLeast.1 h

/-- No name occurs twice, or among those seen. -/
theorem firstDuplicate?_eq_none_iff {seen names : List String} :
    firstDuplicate? seen names = none ↔ names.Nodup ∧ ∀ x ∈ names, x ∉ seen := by
  induction names generalizing seen with
  | nil => simp [firstDuplicate?]
  | cons x names ih =>
    unfold firstDuplicate?
    by_cases hx : x ∈ seen
    · simp [hx]
    · rw [if_neg hx, ih, List.nodup_cons]
      simp only [List.mem_cons, not_or, forall_eq_or_imp]
      grind

theorem distinct_eq_ok_iff {p q : Params} : p.distinct = .ok q ↔ p.names.Nodup ∧ p = q := by
  unfold distinct
  cases h : firstDuplicate? [] p.names with
  | some x =>
    have hnodup : ¬ p.names.Nodup := by
      intro hn
      rw [firstDuplicate?_eq_none_iff.2 ⟨hn, by simp⟩] at h
      exact absurd h (by simp)
    simp [hnodup]
  | none => simp [(firstDuplicate?_eq_none_iff.1 h).1]

/-- A list is split at the first marker in it, which is the last but one of its names. -/
theorem splitRest?_eq_some_iff {names : List String} {p : Params} :
    splitRest? names = some p ↔
      restMark ∉ p.fixed ∧ ∃ r, p.rest = some r ∧ names = p.fixed ++ [restMark, r] := by
  fun_induction splitRest? names generalizing p with
  | case1 => simp
  | case2 x =>
    -- one name is too few for a marker and the name after it
    have hlong : ∀ r, [x] ≠ p.fixed ++ [restMark, r] := fun r h => by
      simpa using congrArg List.length h
    simp [hlong]
  | case3 r =>
    -- the marker, and one name after it
    constructor
    · rintro ⟨⟩
      exact ⟨by simp, r, rfl, rfl⟩
    · rintro ⟨-, r', hr, h⟩
      have h : [] ++ [restMark, r] = p.fixed ++ [restMark, r'] := h
      obtain ⟨hfixed, hrest⟩ := List.append_inj' h rfl
      obtain rfl : r = r' := by simpa using hrest
      rw [hfixed, ← hr]
  | case4 m r hm =>
    have hother : ∀ r', [] ++ [m, r] ≠ p.fixed ++ [restMark, r'] := by
      intro r' h
      have hlast := (List.append_inj' h rfl).2
      simp [hm] at hlast
    rw [List.nil_append] at hother
    simp [hother]
  | case5 xs h₀ h₁ =>
    -- the marker as the first of three names or more is neither the last but one nor a name
    constructor
    · simp
    · rintro ⟨hmark, r, -, h⟩
      cases hfixed : p.fixed with
      | nil =>
        rw [hfixed] at h
        exact (h₁ r (List.cons.inj h).2).elim
      | cons y ys =>
        rw [hfixed] at h hmark
        simp [← (List.cons.inj h).1] at hmark
  | case6 x xs h₀ h₁ hx ih =>
    -- a name before the marker
    rw [Option.map_eq_some_iff]
    constructor
    · rintro ⟨q, hq, rfl⟩
      obtain ⟨hmark, r, hr, hxs⟩ := ih.1 hq
      exact ⟨by simp [hmark, Ne.symm hx], r, hr, congrArg (x :: ·) hxs⟩
    · rintro ⟨hmark, r, hr, h⟩
      cases hfixed : p.fixed with
      | nil =>
        rw [hfixed] at h
        exact absurd (List.cons.inj h).1 hx
      | cons y ys =>
        rw [hfixed] at h hmark
        obtain ⟨rfl, hxs⟩ := List.cons.inj h
        refine ⟨⟨ys, p.rest⟩, ih.2 ⟨?_, r, hr, hxs⟩, ?_⟩
        · exact fun hm => hmark (List.mem_cons_of_mem x hm)
        · rw [← hfixed]

/-- A list of names is taken for the parameter list that it spells, if no name is repeated and the
marker is not a name. -/
theorem ofNames_eq_ok_iff {names : List String} {p : Params} :
    ofNames names = .ok p ↔ p.toNames = names ∧ p.names.Nodup ∧ restMark ∉ p.names := by
  constructor
  · intro h
    unfold ofNames at h
    split at h
    · next hcount =>
      obtain ⟨hnodup, rfl⟩ := distinct_eq_ok_iff.1 h
      have hmark : restMark ∉ names := List.count_eq_zero.1 hcount
      exact ⟨List.append_nil _, hnodup, by simpa [Params.names] using hmark⟩
    · next hcount =>
      split at h
      · exact absurd h (by simp)
      · next q hq =>
        obtain ⟨hnodup, rfl⟩ := distinct_eq_ok_iff.1 h
        obtain ⟨hmark, r, hr, rfl⟩ := splitRest?_eq_some_iff.1 hq
        -- the one marker is the one that announces the rest parameter
        have hne : r ≠ restMark := by
          rintro rfl
          simp [List.count_append] at hcount
        refine ⟨by simp [toNames, hr], hnodup, ?_⟩
        simpa [Params.names, hr, hmark] using hne.symm
    · exact absurd h (by simp)
  · rintro ⟨rfl, hnodup, hmark⟩
    unfold ofNames
    obtain ⟨fixed, _ | r⟩ := p
    · have hnames : toNames ⟨fixed, none⟩ = fixed := List.append_nil fixed
      have hfixed : restMark ∉ fixed := by simpa [Params.names] using hmark
      rw [hnames, List.count_eq_zero.2 hfixed]
      exact distinct_eq_ok_iff.2 ⟨hnodup, rfl⟩
    · simp only [Params.names, Option.toList_some, List.mem_append, List.mem_singleton,
        not_or] at hmark
      have hcount : (toNames ⟨fixed, some r⟩).count restMark = 1 := by
        show (fixed ++ [restMark, r]).count restMark = 1
        simp [List.count_eq_zero.2 hmark.1, Ne.symm hmark.2]
      have hsplit : splitRest? (toNames ⟨fixed, some r⟩) = some ⟨fixed, some r⟩ :=
        splitRest?_eq_some_iff.2 ⟨hmark.1, r, rfl, rfl⟩
      rw [hcount, hsplit]
      exact distinct_eq_ok_iff.2 ⟨hnodup, rfl⟩

example : (ofNames ["a", "&rest", "more"]).toOption = some ⟨["a"], some "more"⟩ := by decide
example : ofNames ["&rest"] = .error .misplacedMarker := rfl
example : ofNames ["x", "&rest", "x"] = .error (.duplicate "x") := rfl
example : (Params.mk [] (some "r")).text = "(&rest r)" := by cbv

end Params

end TinyLisp
