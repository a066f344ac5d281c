import TinyLisp.Value.Basic

/-!
# Tags of pairs

Pairs that were just read carry no tag. `Value.tag` gives each of them a tag of its own,
counting upwards from a given number, when its form is about to be evaluated; so two readings of
one text give data that are equal but not identical.
-/

namespace TinyLisp.Value

/-- Tags the untagged pairs of a datum from `n` on; also gives the next free tag. -/
def tag : Value → Nat → Value × Nat
  | pair none a d, n =>
    let (a, n) := a.tag n
    let (d, n) := d.tag n
    (pair (some n) a d, n + 1)
  | quote v, n => let (v, n) := v.tag n; (quote v, n)
  | quasiquote v, n => let (v, n) := v.tag n; (quasiquote v, n)
  | unquote v, n => let (v, n) := v.tag n; (unquote v, n)
  | unquoteSplicing v, n => let (v, n) := v.tag n; (unquoteSplicing v, n)
  | v, n => (v, n)

/-- Tags are handed out upwards. -/
theorem le_tag (v : Value) (n : Nat) : n ≤ (v.tag n).2 := by
  induction v generalizing n with
  | pair cell a d iha ihd =>
    cases cell with
    | none =>
      have ha := iha n
      have hd := ihd (a.tag n).2
      simp only [tag]; omega
    | some c => simp [tag]
  | quote v ih => exact ih n
  | quasiquote v ih => exact ih n
  | unquote v ih => exact ih n
  | unquoteSplicing v ih => exact ih n
  | _ => simp [tag]

end TinyLisp.Value
