import Mathlib.Data.List.TakeWhile
import Mathlib.Tactic.Tauto
import TinyLisp.Proofs.Reading.Pattern
import TinyLisp.Proofs.Reading.Printed

/-!
# Words of a text

A text can be cut with one pattern: `Token.pattern` is a word with the blanks around it. The word
may be empty, and a literal may lack its closing quote: whether a quote closes it is asked again
when the word becomes a token (`Token.ofWord`), by counting the backslashes before it.

Where no blank stands, the pattern prefers a word that is not empty, and the scanner makes of it
what `ofWord` makes of it (`exists_word`).
-/

namespace TinyLisp.Token

/-! ## §1. Tokens as they are written -/

/-- A token as it is written. -/
def spelling : Token → List Char
  | openParen => ['(']
  | closeParen => [')']
  | quote => ['\x27']
  | quasiquote => ['\x60']
  | unquote => [',']
  | unquoteSplicing => [',', '@']
  | text body => '\x22' :: (body ++ ['\x22'])
  | comment body => ';' :: body
  | plain cs => cs

/-- A token ends where it should, with `after` behind it. A run of plain characters goes on up to a
delimiter, a comment up to the end of the line. An even number of backslashes stands before the
quote that closes a literal, and an odd number before every quote in it. -/
def Ends : Token → List Char → Prop
  | plain cs, after => PlainRun cs ∧ Separated after
  | comment body, after => '\n' ∉ body ∧ ∀ c ∈ after.head?, c = '\n'
  | text body, _ =>
    backslashes body % 2 = 0 ∧
      ∀ front back, body = front ++ '\x22' :: back → backslashes front % 2 = 1
  | _, _ => True

/-! ## §2. The pattern -/

/-- Any number of blanks. -/
def blanks : Pattern :=
  .star (.char Text.isBlank)

/-- A comma with its at sign. -/
def commaAt : Pattern :=
  .seq (.char (· == ',')) (.char (· == '@'))

/-- A character that is a token by itself. -/
def isSpecial (c : Char) : Bool :=
  c == '(' || c == ')' || c == '\x27' || c == '\x60' || c == ','

/-- A character of a literal, or two where the first is a backslash. -/
def unit : Pattern :=
  .alt (.seq (.char (· == '\\')) (.char (· != '\n'))) (.char fun c => c != '\\' && c != '\x22')

/-- A literal; the quote that closes it may be missing. -/
def literal : Pattern :=
  .seq (.char (· == '\x22')) (.seq (.star unit) (.alt (.char (· == '\x22')) .empty))

/-- A semicolon and the rest of its line. -/
def remark : Pattern :=
  .seq (.char (· == ';')) (.star (.char (· != '\n')))

/-- Any number of plain characters. -/
def plainChars : Pattern :=
  .star (.char fun c => !isDelimiter c)

/-- A word of a text. -/
def word : Pattern :=
  .alt commaAt (.alt (.char isSpecial) (.alt literal (.alt remark plainChars)))

/-- A word, which is kept, with the blanks around it. -/
def pattern : Pattern :=
  .seq blanks (.seq (.mark word) blanks)

/-- The literal that a word with a quote in front is. The word has to end in another quote, with an
even number of backslashes before it. -/
def ofLiteral (cs : List Char) : Except ScanError Token :=
  if cs.length = 1 ∨ cs.getLast? ≠ some '\x22' then .error .unbalancedString
  else if backslashes cs.dropLast % 2 = 1 then .error .unbalancedString
  else .ok (.text cs.tail.dropLast)

/-- The token that a word is. -/
def ofWord : List Char → Except ScanError Token
  | [',', '@'] => .ok .unquoteSplicing
  | ['('] => .ok .openParen
  | [')'] => .ok .closeParen
  | ['\x27'] => .ok .quote
  | ['\x60'] => .ok .quasiquote
  | [','] => .ok .unquote
  | '\x22' :: cs => ofLiteral ('\x22' :: cs)
  | ';' :: cs => .ok (.comment cs)
  | cs => .ok (.plain cs)

/-! ## §3. What a word is -/

/-- The scanner and the rounds agree on a word, with `after` behind it: both make the same token of
it, which ends there, or both fail. -/
inductive Scans (w after : List Char) : Prop
  | token (t : Token) (word : ofWord w = .ok t) (spelled : t.spelling = w) (ends : t.Ends after)
      (cuts : Cuts w after [t])
  | error (word : ofWord w = .error .unbalancedString)
      (fails : Mode.ground.tokens (w ++ after) = .error .unbalancedString)

section Words

variable {c : Char} {k : List Char}

theorem commaAt_ways (h : c ≠ ',') : commaAt.ways (c :: k) = [] :=
  Pattern.ways_seq_eq_nil (Pattern.ways_char_eq_nil (by simpa using h))

theorem literal_ways (h : c ≠ '\x22') : literal.ways (c :: k) = [] :=
  Pattern.ways_seq_eq_nil (Pattern.ways_char_eq_nil (by simpa using h))

theorem remark_ways (h : c ≠ ';') : remark.ways (c :: k) = [] :=
  Pattern.ways_seq_eq_nil (Pattern.ways_char_eq_nil (by simpa using h))

theorem special_ways (h : isSpecial c = false) : (Pattern.char isSpecial).ways (c :: k) = [] :=
  Pattern.ways_char_eq_nil (by simpa using h)

theorem prefers_commaAt (k : List Char) :
    word.Prefers (',' :: '@' :: k) ⟨[',', '@'], none, k⟩ :=
  ((Pattern.prefers_char rfl _).seq (Pattern.prefers_char rfl k)).left _

theorem prefers_comma (hk : k.head? ≠ some '@') :
    word.Prefers (',' :: k) ⟨[','], none, k⟩ := by
  refine ((Pattern.prefers_char rfl k).left _).right ?_
  cases k with
  | nil => rfl
  | cons d k =>
    have hd : d ≠ '@' := by simpa using hk
    simp [commaAt, Pattern.ways, hd]

theorem prefers_special (h : isSpecial c = true) (hc : c ≠ ',') (k : List Char) :
    word.Prefers (c :: k) ⟨[c], none, k⟩ :=
  ((Pattern.prefers_char h k).left _).right (commaAt_ways hc)

theorem prefers_remark (k : List Char) : word.Prefers (';' :: k)
    ⟨';' :: k.takeWhile (· != '\n'), none, k.dropWhile (· != '\n')⟩ := by
  have hremark : remark.Prefers (';' :: k)
      ⟨';' :: k.takeWhile (· != '\n'), none, k.dropWhile (· != '\n')⟩ :=
    (Pattern.prefers_char rfl k).seq (Pattern.prefers_run (· != '\n') k)
  refine ((hremark.left _).right ?_).right ?_ |>.right ?_
  · exact literal_ways (by decide)
  · exact special_ways (by decide)
  · exact commaAt_ways (by decide)

theorem prefers_literal {v : Pattern.Way} (h : literal.Prefers ('\x22' :: k) v) :
    word.Prefers ('\x22' :: k) v := by
  refine ((h.left _).right ?_).right ?_
  · exact special_ways (by decide)
  · exact commaAt_ways (by decide)

theorem prefers_plain (hc : isDelimiter c = false) (k : List Char) : word.Prefers (c :: k)
    ⟨(c :: k).takeWhile (!isDelimiter ·), none, (c :: k).dropWhile (!isDelimiter ·)⟩ := by
  have hrun := Pattern.prefers_run (!isDelimiter ·) (c :: k)
  simp [isDelimiter] at hc
  refine ((hrun.right ?_).right ?_).right ?_ |>.right ?_
  · exact remark_ways (by simp [hc])
  · exact literal_ways (by simp [hc])
  · exact special_ways (by simp [isSpecial, hc])
  · exact commaAt_ways (by simp [hc])

end Words

theorem ofWord_literal (cs : List Char) :
    ofWord ('\x22' :: cs) = ofLiteral ('\x22' :: cs) := by
  cases cs <;> rfl

theorem ofWord_comment (cs : List Char) : ofWord (';' :: cs) = .ok (.comment cs) := by
  cases cs <;> rfl

theorem ofWord_plain {c : Char} (hc : isDelimiter c = false) (cs : List Char) :
    ofWord (c :: cs) = .ok (.plain (c :: cs)) := by
  simp [isDelimiter] at hc
  unfold ofWord
  split <;> simp_all

theorem ofLiteral_closed {body : List Char} (h : Body body) :
    ofLiteral ('\x22' :: (body ++ ['\x22'])) = .ok (.text body) := by
  have heven := h.backslashes_even
  rw [← backslashes_quote] at heven
  unfold ofLiteral
  rw [← List.cons_append, List.dropLast_concat, List.getLast?_concat]
  simp [heven]

/-- A literal that is not closed ends in no quote, or in one that a backslash escapes. -/
theorem ofLiteral_open {body : List Char} (h : Body body) :
    ofLiteral ('\x22' :: body) = .error .unbalancedString := by
  unfold ofLiteral
  by_cases hlast : body.getLast? = some '\x22'
  · obtain ⟨front, rfl⟩ := List.getLast?_eq_some_iff.1 hlast
    have hodd := h.backslashes_odd rfl
    rw [← backslashes_quote] at hodd
    rw [← List.cons_append, List.dropLast_concat, List.getLast?_concat]
    simp [hodd]
  · cases body with
    | nil => rfl
    | cons c cs =>
      rw [List.getLast?_cons_cons]
      simp [hlast]

/-- What ends the body of a literal: its quote, or the end of the text, or a backslash that has
nothing to escape. -/
inductive Halts : List Char → Prop
  | nil : Halts []
  | quote (k : List Char) : Halts ('\x22' :: k)
  | last : Halts ['\\']
  | line (k : List Char) : Halts ('\\' :: '\n' :: k)

theorem prefers_pair {c : Char} (hc : c ≠ '\n') (k : List Char) :
    unit.Prefers ('\\' :: c :: k) ⟨['\\', c], none, k⟩ :=
  ((Pattern.prefers_char rfl _).seq (Pattern.prefers_char (by simpa using hc) k)).left _

theorem prefers_single {c : Char} (hback : c ≠ '\\') (hquote : c ≠ '\x22') (k : List Char) :
    unit.Prefers (c :: k) ⟨[c], none, k⟩ := by
  refine (Pattern.prefers_char (by simp [hback, hquote]) k).right ?_
  exact Pattern.ways_seq_eq_nil (Pattern.ways_char_eq_nil (by simpa using hback))

/-- A literal goes on up to what ends its body. -/
theorem exists_body (k : List Char) :
    ∃ body rest, Body body ∧ Halts rest ∧ unit.star.Prefers k ⟨body, none, rest⟩ := by
  match k with
  | [] => exact ⟨[], [], .nil, .nil, Pattern.prefers_star_stay rfl⟩
  | c :: k =>
    by_cases hback : c = '\\'
    · subst hback
      cases k with
      | nil => exact ⟨[], _, .nil, .last, Pattern.prefers_star_stay rfl⟩
      | cons d k =>
        by_cases hline : d = '\n'
        · subst hline
          exact ⟨[], _, .nil, .line k, Pattern.prefers_star_stay rfl⟩
        · obtain ⟨body, rest, hbody, hrest, hstar⟩ := exists_body k
          exact ⟨'\\' :: d :: body, rest, .pair hline hbody, hrest,
            (prefers_pair hline k).turn (by simp) hstar⟩
    · by_cases hquote : c = '\x22'
      · subst hquote
        exact ⟨[], _, .nil, .quote k, Pattern.prefers_star_stay rfl⟩
      · obtain ⟨body, rest, hbody, hrest, hstar⟩ := exists_body k
        exact ⟨c :: body, rest, .char hback hquote hbody, hrest,
          (prefers_single hback hquote k).turn (by simp) hstar⟩
termination_by k.length

/-- A literal with its closing quote. -/
theorem Body.scans {body : List Char} (h : Body body) (k : List Char) :
    Scans ('\x22' :: (body ++ ['\x22'])) k := by
  refine .token (.text body) ?_ rfl ⟨h.backslashes_even, fun _ _ => h.backslashes_odd⟩
    (cuts_literal h k)
  rw [ofWord_literal, ofLiteral_closed h]

/-- A literal without it. -/
theorem Body.scans_open {body rest : List Char} (h : Body body) (hrest : Halts rest)
    (hquote : rest.head? ≠ some '\x22') : Scans ('\x22' :: body) rest := by
  have hopen : Mode.ground.feed '\x22' = .ok ([], .text []) := rfl
  have hrun : Mode.ground.run ('\x22' :: body) = .ok ([], .text body.reverse) := by
    rw [Mode.run_cons hopen, h.run, List.append_nil]
    rfl
  refine .error ?_ ?_
  · rw [ofWord_literal]
    exact ofLiteral_open h
  · rw [Mode.tokens_append hrun]
    cases hrest with
    | nil => rfl
    | quote k => exact absurd rfl hquote
    | last => rfl
    | line k => rfl

theorem cuts_comment {body k : List Char} (hbody : '\n' ∉ body)
    (hline : ∀ c ∈ k.head?, c = '\n') : Cuts (';' :: body) k [.comment body] := by
  have hopen : Mode.ground.feed ';' = .ok ([], .comment []) := rfl
  have hrun : ∀ seen,
      (Mode.comment seen).run body = .ok ([], .comment (body.reverse ++ seen)) := by
    induction body with
    | nil => exact fun _ => rfl
    | cons c cs ih =>
      intro seen
      have hc : c ≠ '\n' := fun h => hbody (by simp [h])
      have hfeed : (Mode.comment seen).feed c = .ok ([], .comment (c :: seen)) := by
        simp [Mode.feed, hc]
      rw [Mode.run_cons hfeed, ih (fun h => hbody (by simp [h]))]
      simp [Except.map, Mode.prepend]
  -- the comment is complete at the end of the text, or at a line feed, which is a blank too
  have hend : (Mode.comment body.reverse).tokens k =
      (Mode.ground.tokens k).map ([Token.comment body] ++ ·) := by
    cases k with
    | nil =>
      show Except.ok [Token.comment body.reverse.reverse] = _
      rw [List.reverse_reverse]
      rfl
    | cons c k =>
      have hc := hline c rfl
      subst hc
      have hfeed : (Mode.comment body.reverse).feed '\n' = .ok ([.comment body], .ground) := by
        simp [Mode.feed]
      have hblank : Mode.ground.feed '\n' = .ok ([], .ground) := rfl
      rw [Mode.tokens_cons hfeed, Mode.tokens_cons hblank, Mode.map_append]
      rfl
  unfold Cuts
  rw [List.cons_append, Mode.tokens_cons hopen, Mode.tokens_append (hrun []), List.append_nil, hend,
    Mode.map_append, Mode.map_append]
  rfl

theorem head_dropWhile {f : Char → Bool} {cs : List Char} {c : Char}
    (h : c ∈ (cs.dropWhile f).head?) : f c = false := by
  have hnot := List.head?_dropWhile_not f cs
  rw [h] at hnot
  simpa using hnot

/-- A comment goes on up to the end of its line. -/
theorem scans_remark (k : List Char) :
    Scans (';' :: k.takeWhile (· != '\n')) (k.dropWhile (· != '\n')) := by
  have hbody : '\n' ∉ k.takeWhile (· != '\n') := by
    intro hmem
    simpa using List.mem_takeWhile_imp hmem
  have hline : ∀ c ∈ (k.dropWhile (· != '\n')).head?, c = '\n' := by
    intro c hc
    simpa using head_dropWhile hc
  exact .token (.comment _) (ofWord_comment _) rfl ⟨hbody, hline⟩ (cuts_comment hbody hline)

/-- A run of plain characters goes on up to a delimiter. -/
theorem scans_plain {c : Char} (hc : isDelimiter c = false) (k : List Char) :
    Scans ((c :: k).takeWhile (!isDelimiter ·)) ((c :: k).dropWhile (!isDelimiter ·)) := by
  have hword : (c :: k).takeWhile (!isDelimiter ·) = c :: k.takeWhile (!isDelimiter ·) :=
    List.takeWhile_cons_of_pos (by simpa using hc)
  have hrun : PlainRun ((c :: k).takeWhile (!isDelimiter ·)) := by
    refine ⟨by simp [hword], ?_⟩
    intro d hd
    simpa using List.mem_takeWhile_imp hd
  have hsep : Separated ((c :: k).dropWhile (!isDelimiter ·)) := by
    intro d hd
    simpa using head_dropWhile hd
  refine .token (.plain ((c :: k).takeWhile (!isDelimiter ·))) ?_ rfl ⟨hrun, hsep⟩
    (cuts_plain hrun hsep)
  rw [hword]
  exact ofWord_plain hc _

theorem scans_comma {k : List Char} (hk : k.head? ≠ some '@') : Scans [','] k := by
  refine .token .unquote rfl rfl trivial ?_
  cases k with
  | nil => rfl
  | cons d k => exact cuts_comma (by simpa using hk) k

theorem scans_special {c : Char} (h : isSpecial c = true) (hc : c ≠ ',') (k : List Char) :
    Scans [c] k := by
  have hcases : c = '(' ∨ c = ')' ∨ c = '\x27' ∨ c = '\x60' := by
    simp [isSpecial, hc] at h
    tauto
  rcases hcases with rfl | rfl | rfl | rfl
  · exact .token .openParen rfl rfl trivial (cuts_char rfl k)
  · exact .token .closeParen rfl rfl trivial (cuts_char rfl k)
  · exact .token .quote rfl rfl trivial (cuts_char rfl k)
  · exact .token .quasiquote rfl rfl trivial (cuts_char rfl k)

/-- A text that begins with no blank begins with a word. -/
theorem exists_word {c : Char} (hc : Text.isBlank c = false) (k : List Char) :
    ∃ w after, w ≠ [] ∧ word.Prefers (c :: k) ⟨w, none, after⟩ ∧ Scans w after := by
  by_cases hcomma : c = ','
  · subst hcomma
    by_cases hat : k.head? = some '@'
    · obtain ⟨k, rfl⟩ := List.head?_eq_some_iff.1 hat
      exact ⟨_, _, by simp, prefers_commaAt k,
        .token .unquoteSplicing rfl rfl trivial (cuts_splicing k)⟩
    · exact ⟨_, _, by simp, prefers_comma hat, scans_comma hat⟩
  by_cases hspecial : isSpecial c = true
  · exact ⟨_, _, by simp, prefers_special hspecial hcomma k, scans_special hspecial hcomma k⟩
  by_cases hquote : c = '\x22'
  · subst hquote
    obtain ⟨body, rest, hbody, hrest, hstar⟩ := exists_body k
    by_cases hclosed : rest.head? = some '\x22'
    · obtain ⟨after, rfl⟩ := List.head?_eq_some_iff.1 hclosed
      have hend : (Pattern.alt (.char (· == '\x22')) .empty).Prefers ('\x22' :: after)
          ⟨['\x22'], none, after⟩ := (Pattern.prefers_char rfl after).left _
      have hword : literal.Prefers ('\x22' :: k) ⟨'\x22' :: (body ++ ['\x22']), none, after⟩ :=
        (Pattern.prefers_char rfl k).seq (hstar.seq hend)
      exact ⟨_, _, by simp, prefers_literal hword, hbody.scans after⟩
    · have hend : (Pattern.alt (.char (· == '\x22')) .empty).Prefers rest (.stay rest) := by
        refine (Pattern.prefers_empty rest).right (Pattern.ways_char_eq_nil ?_)
        intro d hd
        have hne : d ≠ '\x22' := fun h => hclosed (h ▸ hd)
        simpa using hne
      have hword : literal.Prefers ('\x22' :: k) ⟨'\x22' :: (body ++ []), none, rest⟩ :=
        (Pattern.prefers_char rfl k).seq (hstar.seq hend)
      rw [List.append_nil] at hword
      exact ⟨_, _, by simp, prefers_literal hword, hbody.scans_open hrest hclosed⟩
  by_cases hremark : c = ';'
  · subst hremark
    exact ⟨_, _, by simp, prefers_remark k, scans_remark k⟩
  · have hplain : isDelimiter c = false := by
      simp [isSpecial] at hspecial
      simp [isDelimiter, hc, hspecial, hquote, hremark]
    refine ⟨_, _, ?_, prefers_plain hplain k, scans_plain hplain k⟩
    simp [hplain]

end TinyLisp.Token
