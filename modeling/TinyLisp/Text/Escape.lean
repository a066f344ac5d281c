/-!
# String escapes

A string literal writes four characters with a backslash and a letter, and every other
character as itself. `encode` and `decode` share one table, so decoding undoes encoding
(`decode_encode`); decoding also accepts a raw tab or line feed, which `encode` never writes.
-/

namespace TinyLisp.Text

/-- What can be wrong with the body of a string literal. -/
inductive EscapeError
  /-- A backslash before a character that names no escape. -/
  | unknown (c : Char)
  /-- A backslash with nothing after it. -/
  | loneBackslash
  deriving Repr, DecidableEq

/-- The letter that follows the backslash when `c` is written as an escape. -/
def escapeLetter? (c : Char) : Option Char :=
  if c = '\\' then some '\\'
  else if c = '\x22' then some '\x22'
  else if c = '\n' then some 'n'
  else if c = '\t' then some 't'
  else none

/-- The character that a backslash and the letter `l` stand for. -/
def escaped? (l : Char) : Option Char :=
  if l = '\\' then some '\\'
  else if l = '\x22' then some '\x22'
  else if l = 'n' then some '\n'
  else if l = 't' then some '\t'
  else none

/-- The body of the literal that denotes `s`, without its quotes. -/
def encode : List Char → List Char
  | [] => []
  | c :: s =>
    match escapeLetter? c with
    | some l => '\\' :: l :: encode s
    | none => c :: encode s

/-- The text that the body of a literal denotes. -/
def decode : List Char → Except EscapeError (List Char)
  | [] => .ok []
  | [c] => if c = '\\' then .error .loneBackslash else .ok [c]
  | c :: l :: s =>
    if c = '\\' then
      match escaped? l with
      | some e => (decode s).map (e :: ·)
      | none => .error (.unknown l)
    else (decode (l :: s)).map (c :: ·)

/-- The literal that denotes `s`, with its quotes. -/
def quoteLiteral (s : String) : String :=
  String.ofList ('\x22' :: encode s.toList ++ ['\x22'])

/-! ## Laws -/

theorem escaped?_of_escapeLetter? {c l : Char} (h : escapeLetter? c = some l) :
    escaped? l = some c := by
  unfold escapeLetter? at h
  split at h
  · next hc => cases h; subst hc; rfl
  · split at h
    · next hc => cases h; subst hc; rfl
    · split at h
      · next hc => cases h; subst hc; rfl
      · split at h
        · next hc => cases h; subst hc; rfl
        · cases h

theorem escapeLetter?_backslash : escapeLetter? '\\' = some '\\' := rfl

theorem decode_cons_of_ne {c : Char} (hc : c ≠ '\\') (s : List Char) :
    decode (c :: s) = (decode s).map (c :: ·) := by
  cases s with
  | nil => simp [decode, hc, Except.map]
  | cons l s => simp [decode, hc]

/-- Decoding undoes encoding. -/
theorem decode_encode (s : List Char) : decode (encode s) = .ok s := by
  induction s with
  | nil => rfl
  | cons c s ih =>
    unfold encode
    split
    · next l hl => simp [decode, escaped?_of_escapeLetter? hl, ih, Except.map]
    · next hl =>
      have hc : c ≠ '\\' := by rintro rfl; simp [escapeLetter?_backslash] at hl
      rw [decode_cons_of_ne hc, ih]; rfl

end TinyLisp.Text
