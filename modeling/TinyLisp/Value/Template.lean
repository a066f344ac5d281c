import TinyLisp.Value.Basic

/-!
# Templates

A template is a datum with holes. A quasiquote inside a template adds one to the depth at which
what it wraps stands, an unquote or a splice takes one away, and a hole at depth zero holds a
form to evaluate, its payload. `holes` lists the payloads from left to right;
`TinyLisp.Eval.Template` evaluates them.
-/

namespace TinyLisp.Value

/-- The payloads of the holes of a template that stands at depth `d`, from left to right. -/
def holes : Nat → Value → List Value
  | 0, unquote v => [v]
  | d + 1, unquote v => v.holes d
  | 0, unquoteSplicing v => [v]
  | d + 1, unquoteSplicing v => v.holes d
  | d, quasiquote v => v.holes (d + 1)
  | d, quote v => v.holes d
  | d, pair _ a r => a.holes d ++ r.holes d
  | _, _ => []

/-- A payload nests less deeply than the template it stands in. -/
theorem height_lt_of_mem_holes {t p : Value} {d : Nat} (h : p ∈ t.holes d) :
    p.height < t.height := by
  induction t generalizing d with
  | pair cell a r iha ihr =>
    simp only [holes, List.mem_append] at h
    simp only [height]
    rcases h with h | h
    · have := iha h; omega
    · have := ihr h; omega
  | quote v ih => simp only [holes] at h; have := ih h; simp only [height]; omega
  | quasiquote v ih => simp only [holes] at h; have := ih h; simp only [height]; omega
  | unquote v ih =>
    cases d with
    | zero => simp only [holes, List.mem_singleton] at h; subst h; simp only [height]; omega
    | succ d => simp only [holes] at h; have := ih h; simp only [height]; omega
  | unquoteSplicing v ih =>
    cases d with
    | zero => simp only [holes, List.mem_singleton] at h; subst h; simp only [height]; omega
    | succ d => simp only [holes] at h; have := ih h; simp only [height]; omega
  | _ => simp [holes] at h

end TinyLisp.Value
