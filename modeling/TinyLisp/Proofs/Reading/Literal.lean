import Mathlib.Data.List.Induction
import TinyLisp.Text.Escape
import TinyLisp.Proofs.Reading.Scan

/-!
# The body of a literal

Between the quotes of a literal stand single characters and pairs of a backslash and a character
(`Token.Body`). Over a body the scanner stays inside the literal. Where a body ends can also be told
by counting backslashes: an even number of them ends a body, and an odd number stands before every
quote in it.
-/

namespace TinyLisp.Token

/-- What can stand in a literal: characters other than a backslash and a quote, and pairs of a
backslash and a character of the same line. -/
inductive Body : List Char → Prop
  | nil : Body []
  | pair {c : Char} {cs : List Char} (hc : c ≠ '\n') (h : Body cs) : Body ('\\' :: c :: cs)
  | char {c : Char} {cs : List Char} (hback : c ≠ '\\') (hquote : c ≠ '\x22') (h : Body cs) :
    Body (c :: cs)

/-- The body of a literal, as it is encoded. -/
theorem body_encode (s : List Char) : Body (Text.encode s) := by
  induction s with
  | nil => exact .nil
  | cons c s ih =>
    unfold Text.encode
    split
    · next l hl =>
      refine .pair ?_ ih
      rintro rfl
      have h := Text.escaped?_of_escapeLetter? hl
      exact absurd h (by simp [Text.escaped?])
    · next hl =>
      refine .char ?_ ?_ ih
      · rintro rfl
        exact absurd hl (by decide)
      · rintro rfl
        exact absurd hl (by decide)

/-- The scanner stays inside a literal over its body. -/
theorem Body.run {body : List Char} (h : Body body) (seen : List Char) :
    (Mode.text seen).run body = .ok ([], .text (body.reverse ++ seen)) := by
  induction h generalizing seen with
  | nil => rfl
  | @pair c cs hc h ih =>
    have hfirst : (Mode.text seen).feed '\\' = .ok ([], .escape ('\\' :: seen)) := rfl
    have hsecond : (Mode.escape ('\\' :: seen)).feed c = .ok ([], .text (c :: '\\' :: seen)) := by
      simp [Mode.feed, hc]
    rw [Mode.run_cons hfirst, Mode.run_cons hsecond, ih]
    simp [Except.map, Mode.prepend]
  | @char c cs hback hquote h ih =>
    have hfeed : (Mode.text seen).feed c = .ok ([], .text (c :: seen)) := by
      simp [Mode.feed, hback, hquote]
    rw [Mode.run_cons hfeed, ih]
    simp [Except.map, Mode.prepend]

/-! ## Backslashes -/

/-- How many backslashes end a text. -/
def backslashes (cs : List Char) : Nat :=
  (cs.reverse.takeWhile (· == '\\')).length

theorem backslashes_quote (cs : List Char) : backslashes ('\x22' :: cs) = backslashes cs := by
  unfold backslashes
  rw [List.reverse_cons, List.takeWhile_append]
  split
  · next h => simpa using h.symm
  · rfl

/-- Whether an odd number of backslashes stands behind a text, after one more character. -/
def oddAfter (odd : Bool) (c : Char) : Bool :=
  c == '\\' && !odd

theorem backslashes_append (cs : List Char) (c : Char) :
    backslashes (cs ++ [c]) = if c = '\\' then backslashes cs + 1 else 0 := by
  unfold backslashes
  rw [List.reverse_append, List.reverse_singleton, List.singleton_append, List.takeWhile_cons]
  by_cases hc : c = '\\' <;> simp [hc]

/-- The backslashes at the end of a text can be counted on the way through it. -/
theorem foldl_oddAfter (cs : List Char) :
    cs.foldl oddAfter false = decide (backslashes cs % 2 = 1) := by
  induction cs using List.reverseRecOn with
  | nil => rfl
  | append_singleton cs c ih =>
    rw [List.foldl_append, ih, backslashes_append]
    by_cases hc : c = '\\'
    · rcases Nat.mod_two_eq_zero_or_one (backslashes cs) with h | h <;>
        simp [oddAfter, hc, h, Nat.add_mod]
    · simp [oddAfter, hc]

theorem Body.foldl_oddAfter {body : List Char} (h : Body body) :
    body.foldl oddAfter false = false := by
  induction h with
  | nil => rfl
  | @pair c cs hc h ih =>
    show cs.foldl oddAfter (oddAfter true c) = false
    rw [show oddAfter true c = false by simp [oddAfter]]
    exact ih
  | @char c cs hback hquote h ih =>
    show cs.foldl oddAfter (oddAfter false c) = false
    rw [show oddAfter false c = false by simp [oddAfter, hback]]
    exact ih

/-- An even number of backslashes ends a body. -/
theorem Body.backslashes_even {body : List Char} (h : Body body) : backslashes body % 2 = 0 := by
  have hodd := h.foldl_oddAfter
  rw [Token.foldl_oddAfter, decide_eq_false_iff_not] at hodd
  omega

/-- Every quote in a body is escaped. -/
theorem Body.backslashes_odd {body : List Char} (h : Body body) {front back : List Char}
    (hbody : body = front ++ '\x22' :: back) : backslashes front % 2 = 1 := by
  have hodd : front.foldl oddAfter false = true := by
    -- the quote is the second character of a pair
    induction h generalizing front with
    | nil => simp at hbody
    | @pair c cs hc h ih =>
      match front with
      | [] => simp at hbody
      | [d] =>
        obtain ⟨rfl, -⟩ := List.cons.inj hbody
        rfl
      | d :: e :: front =>
        simp only [List.cons_append, List.cons.injEq] at hbody
        obtain ⟨rfl, rfl, hbody⟩ := hbody
        show front.foldl oddAfter (oddAfter true c) = true
        rw [show oddAfter true c = false by simp [oddAfter]]
        exact ih hbody
    | @char c cs hback hquote h ih =>
      cases front with
      | nil => exact absurd (List.cons.inj hbody).1 hquote
      | cons d front =>
        simp only [List.cons_append, List.cons.injEq] at hbody
        obtain ⟨rfl, hbody⟩ := hbody
        show front.foldl oddAfter (oddAfter false c) = true
        rw [show oddAfter false c = false by simp [oddAfter, hback]]
        exact ih hbody
  rw [Token.foldl_oddAfter] at hodd
  exact of_decide_eq_true hodd

end TinyLisp.Token
