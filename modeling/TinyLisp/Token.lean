import TinyLisp.Text.Blank

/-!
# Tokens

The words of a program text. A scanner reads the text character by character: a `Mode` says
inside which token the scanner stands, and `Mode.feed` gives, for one more character, the
tokens that it completes and the next mode. Scanning is the fold of `feed` over the text, so a
text may be cut anywhere and scanned in two runs (`scanFrom_append`).

A string token keeps its body as written. It ends at the first quote that no backslash
escapes; a backslash must be followed by a character other than a line feed.
-/

namespace TinyLisp

/-- A word of a program text. -/
inductive Token
  | openParen
  | closeParen
  | quote
  | quasiquote
  | unquote
  | unquoteSplicing
  /-- The body of a string literal, as written between its quotes. -/
  | text (body : List Char)
  /-- A comment, without its semicolon. -/
  | comment (body : List Char)
  /-- A maximal run of characters that are neither blank nor `( ) ' \x60 " , ;`. -/
  | plain (chars : List Char)
  deriving Repr, DecidableEq

namespace Token

/-- Scanning fails only inside a string literal that does not end. -/
inductive ScanError
  | unbalancedString
  deriving Repr, DecidableEq

/-- Whether a character ends a run of plain characters. -/
def isDelimiter (c : Char) : Bool :=
  Text.isBlank c || c == '(' || c == ')' || c == '\x27' || c == '\x60' || c == '\x22' ||
    c == ',' || c == ';'

/-- Inside which token a scanner stands; what was read of it is kept in reverse. -/
inductive Mode
  /-- Between tokens. -/
  | ground
  /-- After a comma, which an `@` may join. -/
  | comma
  | plain (seen : List Char)
  | text (seen : List Char)
  /-- Inside a string, after a backslash. -/
  | escape (seen : List Char)
  | comment (seen : List Char)
  deriving Repr, DecidableEq

namespace Mode

/-- The token that a character completes, and the mode after it, between tokens. -/
def start (c : Char) : List Token × Mode :=
  if Text.isBlank c then ([], ground)
  else if c = '(' then ([.openParen], ground)
  else if c = ')' then ([.closeParen], ground)
  else if c = '\x27' then ([.quote], ground)
  else if c = '\x60' then ([.quasiquote], ground)
  else if c = ',' then ([], comma)
  else if c = '\x22' then ([], text [])
  else if c = ';' then ([], comment [])
  else ([], plain [c])

/-- Puts a completed token in front of what the next character completes. -/
def after (t : Token) (r : List Token × Mode) : List Token × Mode :=
  (t :: r.1, r.2)

/-- The tokens that one more character completes, and the mode after it. -/
def feed : Mode → Char → Except ScanError (List Token × Mode)
  | ground, c => .ok (start c)
  | comma, c => .ok (if c = '@' then ([.unquoteSplicing], ground) else after .unquote (start c))
  | plain seen, c =>
    .ok (if isDelimiter c then after (.plain seen.reverse) (start c) else ([], plain (c :: seen)))
  | text seen, c =>
    .ok (if c = '\x22' then ([.text seen.reverse], ground)
      else if c = '\\' then ([], escape (c :: seen))
      else ([], text (c :: seen)))
  | escape seen, c =>
    if c = '\n' then .error .unbalancedString else .ok ([], text (c :: seen))
  | comment seen, c =>
    .ok (if c = '\n' then ([.comment seen.reverse], ground) else ([], comment (c :: seen)))

/-- The tokens that the end of the text completes. -/
def finish : Mode → Except ScanError (List Token)
  | ground => .ok []
  | comma => .ok [.unquote]
  | plain seen => .ok [.plain seen.reverse]
  | text _ => .error .unbalancedString
  | escape _ => .error .unbalancedString
  | comment seen => .ok [.comment seen.reverse]

end Mode

/-- A scanner: its mode and the tokens completed so far, the latest first. -/
structure Scanner where
  done : List Token
  mode : Mode
  deriving Repr, DecidableEq

namespace Scanner

/-- A scanner at the start of a text. -/
def initial : Scanner := ⟨[], .ground⟩

/-- Reads one character. -/
def feed (s : Scanner) (c : Char) : Except ScanError Scanner :=
  (s.mode.feed c).map fun r => ⟨r.1.reverse ++ s.done, r.2⟩

/-- The tokens of the text read, in order. -/
def finish (s : Scanner) : Except ScanError (List Token) :=
  s.mode.finish.map (s.done.reverse ++ ·)

/-- Reads further characters. -/
def scanFrom (s : Scanner) (cs : List Char) : Except ScanError Scanner :=
  cs.foldlM feed s

/-- A text may be scanned in two runs. -/
theorem scanFrom_append (s : Scanner) (xs ys : List Char) :
    s.scanFrom (xs ++ ys) = (s.scanFrom xs >>= fun t => t.scanFrom ys) :=
  List.foldlM_append

end Scanner

/-- The tokens of a text. -/
def scan (cs : List Char) : Except ScanError (List Token) := do
  (← Scanner.initial.scanFrom cs).finish

/-- Whether a token is a comment. -/
def isComment : Token → Bool
  | comment _ => true
  | _ => false

/-- The tokens of a text that a reader sees: all but the comments. -/
def significant (cs : List Char) : Except ScanError (List Token) :=
  (scan cs).map (·.filter (!·.isComment))

end Token

end TinyLisp
