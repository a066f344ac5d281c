/-!
# White space

The characters that separate tokens: the 25 code points with the Unicode property
`White_Space`. Core's `Char.isWhitespace` knows only four of them, and every one of
those four is here (`isBlank_of_isWhitespace`).
-/

namespace TinyLisp.Text

/-- The code points with the property `White_Space` outside ASCII. -/
def wideBlanks : List Nat :=
  [0x85, 0xA0, 0x1680, 0x2000, 0x2001, 0x2002, 0x2003, 0x2004, 0x2005, 0x2006, 0x2007,
   0x2008, 0x2009, 0x200A, 0x2028, 0x2029, 0x202F, 0x205F, 0x3000]

/-- Whether a character is white space: tab, line feed, vertical tab, form feed, carriage
return, space, or one of `wideBlanks`. -/
def isBlank (c : Char) : Bool :=
  (9 ≤ c.toNat && c.toNat ≤ 13) || c.toNat == 32 || wideBlanks.contains c.toNat

example : 6 + wideBlanks.length = 25 := rfl

theorem isBlank_of_isWhitespace {c : Char} (h : c.isWhitespace = true) : isBlank c = true := by
  simp only [Char.isWhitespace, Bool.or_eq_true, decide_eq_true_eq] at h
  rcases h with ((rfl | rfl) | rfl) | rfl <;> decide

end TinyLisp.Text
