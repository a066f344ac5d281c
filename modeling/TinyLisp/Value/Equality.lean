import TinyLisp.Value.Basic

/-!
# Two equalities

`Value.equal` compares contents: data by their parts, numbers by their amount, and functions,
expanders and modules by their number. `Value.identical` asks for the very same pair or
record, by its tag; strings are never identical, and everything else is compared as by
`equal`, also what stands behind a quote.
-/

namespace TinyLisp.Value

mutual

/-- Equality of contents. An integer equals a float of the same amount. -/
def equal : Value → Value → Bool
  | nil, nil => true
  | unspecified, unspecified => true
  | int m, int n => m == n
  | float x, float y => x == y
  | int n, float x => n.toFloat == x
  | float x, int n => n.toFloat == x
  | bool a, bool b => a == b
  | symbol a, symbol b => a == b
  | string a, string b => a == b
  | pair _ a d, pair _ a' d' => equal a a' && equal d d'
  | record _ name fs, record _ name' fs' => name == name' && equalFields fs fs'
  | primitive p, primitive q => p == q
  | quote v, quote w => equal v w
  | quasiquote v, quasiquote w => equal v w
  | unquote v, unquote w => equal v w
  | unquoteSplicing v, unquoteSplicing w => equal v w
  | closure c, closure c' => c.id == c'.id
  | expander m, expander m' => m.id == m'.id
  | module m, module m' => m.id == m'.id
  | _, _ => false
termination_by structural v => v

/-- Equality of fields: the same names and equal values, in the same order. -/
def equalFields : List (String × Value) → List (String × Value) → Bool
  | [], [] => true
  | (f, v) :: fs, (f', v') :: fs' => f == f' && equal v v' && equalFields fs fs'
  | _, _ => false
termination_by structural fs => fs

end

/-- Whether two values are one. -/
def identical : Value → Value → Bool
  | pair cell _ _, pair cell' _ _ => cell == cell'
  | record cell _ _, record cell' _ _ => cell == cell'
  | string _, string _ => false
  | v, w => equal v w

example : equal (ofList [.int 1]) (ofList [.int 1]) = true := by decide
example : identical (.pair (some 0) .nil .nil) (.pair (some 1) .nil .nil) = false := by decide
example : identical (.string "a") (.string "a") = false := by decide

end TinyLisp.Value
