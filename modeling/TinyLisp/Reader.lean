import TinyLisp.Token
import TinyLisp.Text.Escape
import TinyLisp.Decimal.Literal
import TinyLisp.Value.Basic

/-!
# Reading data

Tokens become data by a machine with a stack. Each entry of the stack is a construct that has
begun and lacks something: an open list its next element, a list after the dot its tail, a list
with a tail its closing parenthesis, a prefix the datum it stands before. A complete datum goes
to the innermost entry; with no entry left it is one of the data read.

When the tokens run out with a list still open, more text can mend the failure; the same holds
of an unbalanced string. No other failure can be mended (`ReadError.incomplete`).
-/

namespace TinyLisp

/-! ## §1. Failures -/

/-- Why a text does not read. -/
inductive ReadError
  /-- A string literal that does not end. -/
  | unbalancedString
  | escape (e : Text.EscapeError)
  /-- Nothing to read, or nothing after a prefix. -/
  | nothingToRead
  | unclosedList
  | unexpectedClose
  | malformedPair
  | notANumber (text : String)
  /-- More than the one datum asked for. -/
  | moreThanOne
  deriving Repr, DecidableEq

namespace ReadError

/-- The wording of a failure to read. -/
def message : ReadError → String
  | unbalancedString => "unbalanced string literal"
  | escape (.unknown c) => "unknown escape \\" ++ c.toString
  | escape .loneBackslash => "string ends with a lone backslash"
  | nothingToRead => "no input to read"
  | unclosedList => "unclosed list"
  | unexpectedClose => "unexpected )"
  | malformedPair => "malformed dotted pair"
  | notANumber s => "cannot read " ++ s ++ " as a number"
  | moreThanOne => "more than one form in input"

/-- Whether more text could complete the form. -/
def incomplete : ReadError → Bool
  | unclosedList => true
  | unbalancedString => true
  | _ => false

end ReadError

/-! ## §2. Atoms -/

/-- The datum that a run of plain characters spells: a constant, a number if it starts like
one, and a symbol otherwise. A lone dot spells nothing. -/
def atomValue (cs : List Char) : Except ReadError Value :=
  if cs = ['#', 't'] then .ok (.bool true)
  else if cs = ['#', 'f'] then .ok (.bool false)
  else if cs = ['n', 'i', 'l'] then .ok .nil
  else if cs = ['.'] then .error .malformedPair
  else if Decimal.startsLikeNumber cs then
    match Decimal.Literal.read? cs with
    | some (.int n) => .ok (.int n)
    | some (.float x) => .ok (.float x)
    | none => .error (.notANumber (String.ofList cs))
  else .ok (.symbol (String.ofList cs))

/-! ## §3. The machine -/

/-- The prefixes, by what they make of the datum behind them. -/
inductive Wrapper
  | quote | quasiquote | unquote | unquoteSplicing
  deriving Repr, DecidableEq

/-- Wraps a datum. -/
def Wrapper.wrap : Wrapper → Value → Value
  | quote => .quote
  | quasiquote => .quasiquote
  | unquote => .unquote
  | unquoteSplicing => .unquoteSplicing

/-- A construct that has begun. Elements are kept in reverse. -/
inductive Pending
  /-- An open list. -/
  | list (seen : List Value)
  /-- A list after its dot. -/
  | tail (seen : List Value)
  /-- A list after the tail behind its dot. -/
  | close (seen : List Value) (tail : Value)
  /-- A prefix. -/
  | wrapper (w : Wrapper)

/-- Whether a construct is a list, which only a parenthesis can close. -/
def Pending.isList : Pending → Bool
  | wrapper _ => false
  | _ => true

/-- The data read so far, the latest first, and the constructs that have begun, the innermost
first. -/
structure Reader where
  done : List Value
  stack : List Pending

namespace Reader

/-- A reader before the first token. -/
def initial : Reader := ⟨[], []⟩

/-- Gives a complete datum to the innermost construct. -/
def supply (done : List Value) (v : Value) : List Pending → Reader
  | [] => ⟨v :: done, []⟩
  | .wrapper w :: rest => supply done (w.wrap v) rest
  | .list seen :: rest => ⟨done, .list (v :: seen) :: rest⟩
  | .tail seen :: rest => ⟨done, .close seen v :: rest⟩
  | .close seen _ :: rest => ⟨done, .close seen v :: rest⟩

/-- Gives a complete datum to a reader. -/
def give (r : Reader) (v : Value) : Reader :=
  supply r.done v r.stack

/-- Begins a construct. -/
def push (r : Reader) (p : Pending) : Reader :=
  ⟨r.done, p :: r.stack⟩

/-- A closing parenthesis, where a datum or an element is awaited. -/
def feedClose (r : Reader) : Except ReadError Reader :=
  match r.stack with
  | .list seen :: rest => .ok (supply r.done (Value.ofList seen.reverse) rest)
  | _ => .error .unexpectedClose

/-- A run of plain characters, where a datum or an element is awaited. A dot counts only
inside a list. -/
def feedPlain (r : Reader) (cs : List Char) : Except ReadError Reader :=
  match r.stack with
  | .list seen :: rest =>
    if cs = ['.'] then
      if seen.isEmpty then .error .malformedPair else .ok ⟨r.done, .tail seen :: rest⟩
    else (atomValue cs).map r.give
  | _ => (atomValue cs).map r.give

/-- A token, where a datum or an element is awaited. -/
def feedDatum (r : Reader) : Token → Except ReadError Reader
  | .openParen => .ok (r.push (.list []))
  | .closeParen => r.feedClose
  | .quote => .ok (r.push (.wrapper .quote))
  | .quasiquote => .ok (r.push (.wrapper .quasiquote))
  | .unquote => .ok (r.push (.wrapper .unquote))
  | .unquoteSplicing => .ok (r.push (.wrapper .unquoteSplicing))
  | .text body =>
    match Text.decode body with
    | .ok s => .ok (r.give (.string (String.ofList s)))
    | .error e => .error (.escape e)
  | .plain cs => r.feedPlain cs
  | .comment _ => .ok r

/-- A token, where only a closing parenthesis will do. -/
def feedEnd (done : List Value) (seen : List Value) (tail : Value) (rest : List Pending) :
    Token → Except ReadError Reader
  | .closeParen => .ok (supply done (Value.chain tail seen.reverse) rest)
  | .comment _ => .ok ⟨done, .close seen tail :: rest⟩
  | _ => .error .malformedPair

/-- Takes one more token. -/
def feed (r : Reader) (t : Token) : Except ReadError Reader :=
  match r.stack with
  | .close seen tail :: rest => feedEnd r.done seen tail rest t
  | _ => r.feedDatum t

/-- Takes further tokens. -/
def readFrom (r : Reader) (ts : List Token) : Except ReadError Reader :=
  ts.foldlM feed r

/-- The tokens may be taken in two runs. -/
theorem readFrom_append (r : Reader) (xs ys : List Token) :
    r.readFrom (xs ++ ys) = (r.readFrom xs >>= fun s => s.readFrom ys) :=
  List.foldlM_append

/-- Whether a datum has been read and nothing has begun since. -/
def settled (r : Reader) : Bool :=
  r.stack.isEmpty && !r.done.isEmpty

/-- Takes one more token, unless a datum has been read already. -/
def feedOnce (r : Reader) (t : Token) : Except ReadError Reader :=
  if r.settled then .error .moreThanOne else r.feed t

/-- What is wrong when the tokens run out. -/
def endError (r : Reader) : ReadError :=
  if r.stack.any Pending.isList then .unclosedList else .nothingToRead

/-- The data read, when the tokens run out. -/
def finish (r : Reader) : Except ReadError (List Value) :=
  if r.stack.isEmpty then .ok r.done.reverse else .error r.endError

end Reader

/-! ## §4. Texts -/

/-- The tokens of a text that a reader sees. -/
def significantTokens (s : String) : Except ReadError (List Token) :=
  match Token.significant s.toList with
  | .ok ts => .ok ts
  | .error .unbalancedString => .error .unbalancedString

/-- Reads every datum of a list of tokens. -/
def readTokens (ts : List Token) : Except ReadError (List Value) := do
  (← Reader.initial.readFrom ts).finish

/-- Reads every datum of a text. -/
def readData (s : String) : Except ReadError (List Value) := do
  readTokens (← significantTokens s)

/-- Reads the one datum of a text. -/
def readDatum (s : String) : Except ReadError Value := do
  let r ← (← significantTokens s).foldlM Reader.feedOnce Reader.initial
  match r.stack, r.done with
  | [], v :: _ => pure v
  | _, _ => throw r.endError

end TinyLisp
