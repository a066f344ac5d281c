import TinyLisp.Proofs.Reading.Number
import TinyLisp.Proofs.Reading.Parts
import TinyLisp.Proofs.Reading.Literal

/-!
# The tokens of printed data

The readable text of a datum is cut into the tokens that one expects of it, `Value.spelled`, with
one exception: the comma of an unquoted symbol whose name begins with an at sign takes the at sign
with it. A piece of text is cut the same way whatever stands in front of it, and whatever follows
it up to the next delimiter (`Token.Cuts`), so the pieces of a text can be cut one by one.
-/

namespace TinyLisp

/-! ## §1. Pieces of a text -/

namespace Token

/-- A text that does not continue the run of plain characters before it. -/
def Separated (k : List Char) : Prop :=
  ∀ c ∈ k.head?, isDelimiter c = true

theorem Separated.nil : Separated [] := by
  intro c hc
  exact absurd hc (by simp)

theorem Separated.cons {c : Char} (h : isDelimiter c = true) (k : List Char) :
    Separated (c :: k) := by
  intro d hd
  cases hd
  exact h

namespace Mode

theorem map_append (ts us : List Token) (x : Except ScanError (List Token)) :
    (x.map (us ++ ·)).map (ts ++ ·) = x.map (ts ++ us ++ ·) := by
  cases x with
  | error e => rfl
  | ok ws => simp [Except.map]

theorem tokens_cons {m : Mode} {c : Char} {r : List Token × Mode} (h : m.feed c = .ok r)
    (k : List Char) : m.tokens (c :: k) = (r.2.tokens k).map (r.1 ++ ·) := by
  have hrun : m.run [c] = .ok r := by
    rw [run_cons h]
    show Except.ok (r.1 ++ [], r.2) = _
    rw [List.append_nil]
  exact tokens_append hrun k

/-- A character that completes a token and then counts as if it stood between tokens. -/
theorem tokens_after {m : Mode} {c : Char} {t : Token} (h : m.feed c = .ok (after t (start c)))
    (k : List Char) : m.tokens (c :: k) = (ground.tokens (c :: k)).map ([t] ++ ·) := by
  rw [tokens_cons h, tokens_cons (m := ground) rfl, map_append]
  rfl

theorem run_plain {cs : List Char} (h : ∀ c ∈ cs, isDelimiter c = false) (seen : List Char) :
    (plain seen).run cs = .ok ([], plain (cs.reverse ++ seen)) := by
  induction cs generalizing seen with
  | nil => rfl
  | cons c cs ih =>
    have hc := h c (by simp)
    have hfeed : (plain seen).feed c = .ok ([], plain (c :: seen)) := by simp [feed, hc]
    rw [run_cons hfeed, ih (fun d hd => h d (by simp [hd]))]
    simp [Except.map, prepend]

end Mode

/-- With `k` to follow, the scanner cuts `cs` into `ts` and stands between tokens again. -/
def Cuts (cs k : List Char) (ts : List Token) : Prop :=
  Mode.ground.tokens (cs ++ k) = (Mode.ground.tokens k).map (ts ++ ·)

theorem Cuts.append {cs ds k : List Char} {ts us : List Token} (h : Cuts cs (ds ++ k) ts)
    (h' : Cuts ds k us) : Cuts (cs ++ ds) k (ts ++ us) := by
  unfold Cuts at *
  rw [List.append_assoc, h, h', Mode.map_append]

/-- A character that begins no token, or is one. -/
theorem cuts_char {c : Char} {ts : List Token} (h : Mode.start c = (ts, .ground))
    (k : List Char) : Cuts [c] k ts := by
  have hfeed : Mode.ground.feed c = .ok (ts, .ground) := congrArg Except.ok h
  exact Mode.tokens_cons hfeed k

theorem cuts_splicing (k : List Char) : Cuts [',', '@'] k [.unquoteSplicing] := by
  have hcomma : Mode.ground.feed ',' = .ok ([], .comma) := rfl
  have hat : Mode.comma.feed '@' = .ok ([.unquoteSplicing], .ground) := rfl
  show Mode.ground.tokens (',' :: '@' :: k) = _
  rw [Mode.tokens_cons hcomma, Mode.tokens_cons hat, Mode.map_append]
  rfl

theorem cuts_comma {c : Char} (h : c ≠ '@') (k : List Char) : Cuts [','] (c :: k) [.unquote] := by
  have hcomma : Mode.ground.feed ',' = .ok ([], .comma) := rfl
  have hnext : Mode.comma.feed c = .ok (Mode.after .unquote (Mode.start c)) := by
    simp [Mode.feed, h]
  show Mode.ground.tokens (',' :: c :: k) = _
  rw [Mode.tokens_cons hcomma, Mode.tokens_after hnext, Mode.map_append]
  rfl

theorem cuts_plain {cs : List Char} (h : PlainRun cs) {k : List Char} (hk : Separated k) :
    Cuts cs k [.plain cs] := by
  obtain ⟨c, ds, rfl⟩ := List.exists_cons_of_ne_nil h.ne_nil
  have hfeed : Mode.ground.feed c = .ok ([], .plain [c]) :=
    congrArg Except.ok (Mode.start_of_plain (h.plain c (by simp)))
  have hrun : Mode.ground.run (c :: ds) = .ok ([], .plain (c :: ds).reverse) := by
    rw [Mode.run_cons hfeed, Mode.run_plain (fun d hd => h.plain d (by simp [hd]))]
    simp [Except.map, Mode.prepend]
  -- the run ends with the text or before a delimiter
  have hend : (Mode.plain (c :: ds).reverse).tokens k =
      (Mode.ground.tokens k).map ([Token.plain (c :: ds)] ++ ·) := by
    cases k with
    | nil =>
      show Except.ok [Token.plain (c :: ds).reverse.reverse] = _
      rw [List.reverse_reverse]
      rfl
    | cons d k =>
      have hd := hk d rfl
      refine Mode.tokens_after ?_ k
      simp [Mode.feed, hd]
  unfold Cuts
  rw [Mode.tokens_append hrun, hend, Mode.map_append]
  rfl

theorem cuts_literal {body : List Char} (h : Body body) (k : List Char) :
    Cuts ('\x22' :: (body ++ ['\x22'])) k [.text body] := by
  have hopen : Mode.ground.feed '\x22' = .ok ([], .text []) := rfl
  have hclose : (Mode.text body.reverse).feed '\x22' = .ok ([.text body], .ground) := by
    simp [Mode.feed]
  unfold Cuts
  rw [List.cons_append, List.append_assoc, Mode.tokens_cons hopen, Mode.tokens_append (h.run []),
    List.append_nil, List.singleton_append, Mode.tokens_cons hclose, Mode.map_append,
    Mode.map_append]
  rfl

end Token

/-! ## §2. The tokens of a datum -/

namespace Value

/-- What follows the at sign with which an unquoted symbol begins: a comma takes the at sign with
it, so behind the comma only this is left. -/
def afterAt? : Value → Option (List Char)
  | symbol s =>
    match s.toList with
    | '@' :: cs => some cs
    | _ => none
  | _ => none

theorem afterAt?_eq_some {v : Value} {cs : List Char} (h : v.afterAt? = some cs) :
    ∃ s, v = symbol s ∧ s.toList = '@' :: cs := by
  unfold afterAt? at h
  split at h
  · next s =>
    split at h
    · next hs =>
      cases h
      exact ⟨s, rfl, hs⟩
    · cases h
  · cases h

theorem afterAt?_eq_none_iff {v : Value} :
    v.afterAt? = none ↔ ∀ name, v = symbol name → name.toList.head? ≠ some '@' := by
  constructor
  · rintro h name rfl hhead
    obtain ⟨cs, hcs⟩ := List.head?_eq_some_iff.1 hhead
    simp [afterAt?, hcs] at h
  · intro h
    cases hv : v.afterAt? with
    | none => rfl
    | some cs =>
      obtain ⟨name, hname, hcs⟩ := afterAt?_eq_some hv
      exact absurd (by rw [hcs]; rfl) (h name hname)

/-- Tokens in the place of a list's rest stand behind a dot and close the list. -/
def restTokens (rest : Bool) (ts : List Token) : List Token :=
  if rest then .plain ['.'] :: ts ++ [.closeParen] else ts

/-- The tokens of an unquoted value, given its own. -/
def commaTokens (v : Value) (ts : List Token) : List Token :=
  match v.afterAt? with
  | none => .unquote :: ts
  | some [] => [.unquoteSplicing]
  | some cs => [.unquoteSplicing, .plain cs]

/-- The tokens of a datum's text, or of the rest of an open list. -/
def spelled (rest : Bool) : Value → List Token
  | nil => if rest then [.closeParen] else [.openParen, .closeParen]
  | pair _ a d =>
    (if rest then [] else [.openParen]) ++ (spelled false a ++ spelled true d)
  | int n => restTokens rest [.plain (intChars n)]
  | float x => restTokens rest [.plain (Decimal.floatText x).toList]
  | bool b => restTokens rest [.plain (if b then ['#', 't'] else ['#', 'f'])]
  | symbol s => restTokens rest [.plain s.toList]
  | string s => restTokens rest [.text (Text.encode s.toList)]
  | quote v => restTokens rest (.quote :: spelled false v)
  | quasiquote v => restTokens rest (.quasiquote :: spelled false v)
  | unquote v => restTokens rest (commaTokens v (spelled false v))
  | unquoteSplicing v => restTokens rest (.unquoteSplicing :: spelled false v)
  | _ => []
termination_by structural v => v

/-- The tokens of a wrapped datum, unless a comma takes its at sign. -/
theorem spelled_wrap {w : Wrapper} {v : Value} (h : w = .unquote → v.afterAt? = none)
    (rest : Bool) :
    (w.wrap v).spelled rest = restTokens rest (w.token :: v.spelled false) := by
  cases w with
  | unquote =>
    show restTokens rest (commaTokens v (v.spelled false)) = _
    simp only [commaTokens, h rfl]
    rfl
  | _ => rfl

end Value

namespace Token

theorem Cuts.blank {cs k : List Char} {ts : List Token} (h : Cuts cs k ts) :
    Cuts (' ' :: cs) k ts := by
  have hblank : Cuts [' '] (cs ++ k) [] := cuts_char rfl _
  exact hblank.append h

theorem cuts_asRest {t : List Char} {ts : List Token}
    (h : ∀ k, Separated k → Cuts t k ts) (rest : Bool) {k : List Char} (hk : Separated k) :
    Cuts (Value.asRest rest t) k (Value.restTokens rest ts) := by
  cases rest with
  | false => exact h k hk
  | true =>
    have hclose : Cuts [')'] k [.closeParen] := cuts_char rfl k
    have hbody : Cuts (t ++ [')']) k (ts ++ [.closeParen]) :=
      (h _ (.cons rfl k)).append hclose
    have hdot : Cuts ['.'] (' ' :: (t ++ [')']) ++ k) [.plain ['.']] :=
      cuts_plain (.singleton rfl) (.cons rfl _)
    exact (hdot.append hbody.blank).blank

end Token

/-- Only a symbol begins with an at sign. -/
theorem Datum.write_head {v : Value} (hv : Datum v) (h : v.afterAt? = none) :
    ∃ c cs, v.write .readable false = c :: cs ∧ c ≠ '@' := by
  cases hv with
  | nil => exact ⟨'(', _, rfl, by decide⟩
  | bool b => cases b <;> exact ⟨'#', _, rfl, by decide⟩
  | int n =>
    obtain ⟨c, cs, hcs⟩ := List.exists_cons_of_ne_nil (plainRun_intChars n).ne_nil
    refine ⟨c, cs, hcs, ?_⟩
    exact ne_at_of_isNumeral (isNumeral_intChars n c (by rw [hcs]; simp))
  | float hnan =>
    obtain ⟨c, cs, hcs⟩ := List.exists_cons_of_ne_nil (plainRun_floatText hnan).ne_nil
    refine ⟨c, cs, hcs, ?_⟩
    exact floatText_ne_at hnan c (by rw [hcs]; simp)
  | symbol hrun hatom =>
    obtain ⟨c, cs, hcs⟩ := List.exists_cons_of_ne_nil hrun.ne_nil
    refine ⟨c, cs, hcs, ?_⟩
    rintro rfl
    simp [Value.afterAt?, hcs] at h
  | string text =>
    refine ⟨'\x22', Text.encode text.toList ++ ['\x22'], ?_, by decide⟩
    show (Text.quoteLiteral text).toList = _
    unfold Text.quoteLiteral
    rw [String.toList_ofList]
    rfl
  | pair ha hd => exact ⟨'(', _, rfl, by decide⟩
  | wrapper w hu =>
    cases w with
    | quote => exact ⟨'\x27', _, rfl, by decide⟩
    | quasiquote => exact ⟨'\x60', _, rfl, by decide⟩
    | unquote => exact ⟨',', _, rfl, by decide⟩
    | unquoteSplicing => exact ⟨',', _, rfl, by decide⟩

/-- The rest of a list begins with a blank or a parenthesis. -/
theorem Datum.separated_rest {v : Value} (hv : Datum v) (k : List Char) :
    Token.Separated (v.write .readable true ++ k) := by
  cases hv with
  | nil => exact .cons rfl k
  | wrapper w hu => cases w <;> exact .cons rfl _
  | _ => exact .cons rfl _

namespace Token

/-- A comma before an unquoted datum. -/
theorem cuts_unquote {v : Value} (hv : Datum v) {ts : List Token}
    (h : ∀ k, Separated k → Cuts (v.write .readable false) k ts) {k : List Char}
    (hk : Separated k) :
    Cuts (',' :: v.write .readable false) k (Value.commaTokens v ts) := by
  unfold Value.commaTokens
  -- a comma takes the at sign that comes next, so that a symbol which begins with one is split
  split
  · next hat =>
    obtain ⟨c, cs, hcs, hc⟩ := hv.write_head hat
    have hbody := h k hk
    rw [hcs] at hbody ⊢
    have hcomma : Cuts [','] (c :: cs ++ k) [.unquote] := cuts_comma hc _
    exact hcomma.append hbody
  · next hat =>
    obtain ⟨s, rfl, hs⟩ := Value.afterAt?_eq_some hat
    show Cuts (',' :: s.toList) k _
    rw [hs]
    exact cuts_splicing k
  · next cs hne hat =>
    obtain ⟨s, rfl, hs⟩ := Value.afterAt?_eq_some hat
    have hname := hv.plainRun_of_symbol
    rw [hs] at hname
    have hrun : PlainRun cs := ⟨hne, fun c hc => hname.plain c (by simp [hc])⟩
    show Cuts (',' :: s.toList) k _
    rw [hs]
    exact (cuts_splicing _).append (cuts_plain hrun hk)

/-- The text of a datum is cut into its tokens. -/
theorem cuts_write {v : Value} (hv : Datum v) (rest : Bool) {k : List Char} (hk : Separated k) :
    Cuts (v.write .readable rest) k (v.spelled rest) := by
  have hplain : ∀ {cs : List Char}, PlainRun cs → ∀ j, Separated j → Cuts cs j [.plain cs] :=
    fun hcs _ hj => cuts_plain hcs hj
  -- on the datum, with what follows it, from which only a run of plain characters is set apart
  induction hv generalizing rest k with
  | nil =>
    have hclose : Cuts [')'] k [.closeParen] := cuts_char rfl k
    cases rest with
    | true => exact hclose
    | false =>
      have hopen : Cuts ['('] ([')'] ++ k) [.openParen] := cuts_char rfl _
      exact hopen.append hclose
  | bool b =>
    refine cuts_asRest (hplain ?_) rest hk
    cases b <;> exact .of_all rfl
  | int n => exact cuts_asRest (hplain (plainRun_intChars n)) rest hk
  | float hnan => exact cuts_asRest (hplain (plainRun_floatText hnan)) rest hk
  | symbol hrun hatom => exact cuts_asRest (hplain hrun) rest hk
  | string text =>
    have htext : (Style.readable.string text).toList =
        '\x22' :: Text.encode text.toList ++ ['\x22'] := String.toList_ofList
    show Cuts (Value.asRest rest (Style.readable.string text).toList) k _
    rw [htext]
    exact cuts_asRest (fun j _ => cuts_literal (body_encode text.toList) j) rest hk
  | @pair a d ha hd iha ihd =>
    have hrest : Separated (d.write .readable true ++ k) := hd.separated_rest k
    have hbody : Cuts (a.write .readable false ++ d.write .readable true) k
        (a.spelled false ++ d.spelled true) := (iha false hrest).append (ihd true hk)
    cases rest with
    | true => exact hbody.blank
    | false =>
      have hopen : ∀ j, Cuts ['('] j [.openParen] := cuts_char rfl
      exact (hopen _).append hbody
  | wrapper w hv ih =>
    have hbody := fun j hj => ih false (k := j) hj
    cases w with
    | quote =>
      have hmark : ∀ j, Cuts ['\x27'] j [.quote] := cuts_char rfl
      exact cuts_asRest (fun j hj => (hmark _).append (hbody j hj)) rest hk
    | quasiquote =>
      have hmark : ∀ j, Cuts ['\x60'] j [.quasiquote] := cuts_char rfl
      exact cuts_asRest (fun j hj => (hmark _).append (hbody j hj)) rest hk
    | unquote => exact cuts_asRest (fun j hj => cuts_unquote hv hbody hj) rest hk
    | unquoteSplicing =>
      exact cuts_asRest (fun j hj => (cuts_splicing _).append (hbody j hj)) rest hk

theorem isComment_restTokens {rest : Bool} {ts : List Token} (h : ∀ t ∈ ts, t.isComment = false) :
    ∀ t ∈ Value.restTokens rest ts, t.isComment = false := by
  cases rest with
  | false => exact h
  | true =>
    intro t ht
    simp only [Value.restTokens, if_true, List.mem_append, List.mem_cons, List.not_mem_nil] at ht
    rcases ht with (rfl | ht) | rfl | ht
    · rfl
    · exact h t ht
    · rfl
    · exact ht.elim

theorem isComment_commaTokens {v : Value} {ts : List Token} (h : ∀ t ∈ ts, t.isComment = false) :
    ∀ t ∈ Value.commaTokens v ts, t.isComment = false := by
  unfold Value.commaTokens
  split
  · exact List.forall_mem_cons.2 ⟨rfl, h⟩
  · decide
  · exact List.forall_mem_cons.2 ⟨rfl, List.forall_mem_singleton.2 rfl⟩

/-- No token of a datum is a comment. -/
theorem isComment_spelled {v : Value} (hv : Datum v) (rest : Bool) :
    ∀ t ∈ v.spelled rest, t.isComment = false := by
  have hone : ∀ {t : Token}, t.isComment = false → ∀ u ∈ [t], u.isComment = false := by
    intro t ht u hu
    rw [List.mem_singleton.1 hu]
    exact ht
  induction hv generalizing rest with
  | nil => cases rest <;> decide
  | pair ha hd iha ihd =>
    have hbody := List.forall_mem_append.2 ⟨iha false, ihd true⟩
    cases rest with
    | true => exact hbody
    | false => exact List.forall_mem_cons.2 ⟨rfl, hbody⟩
  | wrapper w hv ih =>
    have hbody := ih false
    cases w with
    | unquote => exact isComment_restTokens (isComment_commaTokens hbody)
    | _ => exact isComment_restTokens (List.forall_mem_cons.2 ⟨rfl, hbody⟩)
  | _ => exact isComment_restTokens (hone rfl)

end Token

/-- What a reader sees of the readable text of a datum. -/
theorem significantTokens_text {v : Value} (hv : Datum v) :
    significantTokens v.text = .ok (v.spelled false) := by
  have hcuts := Token.cuts_write hv false .nil
  have htext : v.text.toList = v.write .readable false ++ [] := by
    rw [List.append_nil]
    exact String.toList_ofList
  have hcomment := Token.isComment_spelled hv false
  unfold Token.Cuts at hcuts
  rw [significantTokens_eq, htext, hcuts]
  show Except.ok (seenTokens (v.spelled false ++ [])) = _
  rw [List.append_nil]
  unfold seenTokens
  rw [List.filter_eq_self.2 (fun t ht => by rw [hcomment t ht]; rfl)]

end TinyLisp
