import TinyLisp.Proofs.Reading.Word

/-!
# Tokens by rounds

A text can be cut round by round (`Token.byRounds`): a round searches what is left of the text for
the pattern, makes a token of the word and goes on behind the match.

Every round matches where it stands and takes a character, and the rounds yield what the scanner
yields. So the spellings of the tokens lie in the text one behind the other with nothing but blanks
between them (`Token.Laid`), and each token ends where it should (`Token.Ends`).
-/

namespace TinyLisp.Token

/-! ## §1. The rounds -/

/-- Why a round fails. -/
inductive RoundError
  | scan (e : ScanError)
  /-- The pattern does not match, or takes nothing. -/
  | noMatch (rest : List Char)
  deriving Repr, DecidableEq

/-- The tokens that a word is: an empty word is none. -/
def wordTokens (cs : List Char) : Except RoundError (List Token) :=
  if cs.isEmpty then .ok [] else ((ofWord cs).map fun t => [t]).mapError .scan

/-- The tokens of a text, found round by round. A round goes on behind its match, which must not
end where the text begins. -/
def byRounds : List Char → Except RoundError (List Token)
  | [] => .ok []
  | c :: cs =>
    match pattern.search (c :: cs) with
    | none => .error (.noMatch (c :: cs))
    | some m =>
      match m.way.marked, m.stop with
      | some w, n + 1 => do
        let ts ← wordTokens w
        let us ← byRounds (cs.drop n)
        return ts ++ us
      | _, _ => .error (.noMatch (c :: cs))
termination_by cs => cs.length
decreasing_by
  rw [List.length_drop, List.length_cons]
  omega

/-- A text of blanks. -/
def Blank (cs : List Char) : Prop :=
  ∀ c ∈ cs, Text.isBlank c = true

/-- A text behind which a run of plain characters begins: nothing, or a delimiter. An at sign that
follows a comma belongs to the comma. -/
def Opens (before : List Char) : Prop :=
  (∀ c ∈ before.getLast?, isDelimiter c = true) ∨ [',', '@'] <:+ before

/-- Behind `before`, a text consists of the tokens as they are written, in order, and of blanks
around them. -/
inductive Laid : List Char → List Char → List Token → Prop
  | nil {before gap : List Char} (hgap : Blank gap) : Laid before gap []
  | cons {before gap after : List Char} {t : Token} {ts : List Token} (hgap : Blank gap)
      (ends : t.Ends after) (opens : ∀ cs, t = .plain cs → Opens (before ++ gap))
      (rest : Laid (before ++ gap ++ t.spelling) after ts) :
      Laid before (gap ++ (t.spelling ++ after)) (t :: ts)

/-! ## §2. What a round does -/

theorem exists_blanks (cs : List Char) : ∃ gap k, Blank gap ∧
    (∀ c ∈ k.head?, Text.isBlank c = false) ∧ gap ++ k = cs ∧
      blanks.Prefers cs ⟨gap, none, k⟩ :=
  ⟨_, _, fun _ hc => List.mem_takeWhile_imp hc, fun _ hc => head_dropWhile hc,
    List.takeWhile_append_dropWhile, Pattern.prefers_run Text.isBlank cs⟩

/-- What one round does: it takes blanks, a word and the blanks behind the word. Where only blanks
are left, the word is empty. -/
inductive Round : List Char → List Char → List Char → Prop
  | blank {cs : List Char} (hcs : Blank cs)
      (hprefers : pattern.Prefers cs ⟨cs, some [], []⟩) : Round cs [] []
  | word {gap w trail rest : List Char} (hgap : Blank gap) (hw : w ≠ []) (htrail : Blank trail)
      (hscans : Scans w (trail ++ rest))
      (hprefers : pattern.Prefers (gap ++ (w ++ (trail ++ rest)))
        ⟨gap ++ (w ++ trail), some w, rest⟩) :
      Round (gap ++ (w ++ (trail ++ rest))) w rest

/-- Every text has its round. -/
theorem exists_round (cs : List Char) : ∃ w rest, Round cs w rest := by
  obtain ⟨gap, k, hgap, hk, rfl, hlead⟩ := exists_blanks cs
  cases k with
  | nil =>
    have hword : word.Prefers [] (.stay []) := rfl
    have htail : blanks.Prefers [] (.stay []) := rfl
    rw [List.append_nil] at hlead ⊢
    refine ⟨[], [], .blank hgap ?_⟩
    have hround := hlead.seq (hword.mark.seq htail)
    rwa [show (Pattern.Way.mk gap none []).join _ = ⟨gap ++ [], some [], []⟩ from rfl,
      List.append_nil] at hround
  | cons c k =>
    obtain ⟨w, after, hw, hword, hscans⟩ := exists_word (hk c rfl) k
    obtain ⟨trail, rest, htrail, -, rfl, htail⟩ := exists_blanks after
    have hk : w ++ (trail ++ rest) = c :: k := hword.append
    rw [← hk] at hword hlead ⊢
    exact ⟨w, rest, .word hgap hw htrail hscans (hlead.seq (hword.mark.seq htail))⟩

/-- The match of a round begins where the text begins, marks the word and leaves the rest. -/
theorem Round.prefers {cs w rest : List Char} (h : Round cs w rest) :
    ∃ taken, taken ++ rest = cs ∧ pattern.Prefers cs ⟨taken, some w, rest⟩ := by
  cases h with
  | blank hcs hprefers => exact ⟨cs, List.append_nil cs, hprefers⟩
  | word hgap hw htrail hscans hprefers => exact ⟨_, hprefers.append, hprefers⟩

/-- A round on a text that is not empty takes a character. -/
theorem Round.rest_lt {c : Char} {cs w rest : List Char} (h : Round (c :: cs) w rest) :
    rest.length < (c :: cs).length := by
  generalize hall : c :: cs = all at h
  cases h with
  | blank hcs hprefers =>
    rw [← hall]
    simp
  | @word gap w trail rest hgap hw htrail hscans hprefers =>
    have hpos := List.length_pos_iff.2 hw
    simp only [List.length_append]
    omega

/-- A round matches where it stands, and takes a character. -/
theorem exists_match (c : Char) (cs : List Char) : ∃ m, pattern.search (c :: cs) = some m ∧
    m.start = 0 ∧ m.way.marked.isSome ∧ 0 < m.stop ∧ m.stop ≤ (c :: cs).length := by
  obtain ⟨w, rest, hround⟩ := exists_round (c :: cs)
  obtain ⟨taken, htaken, hprefers⟩ := hround.prefers
  have hlen := congrArg List.length htaken
  have hlt := hround.rest_lt
  rw [List.length_append] at hlen
  refine ⟨⟨0, taken, some w, rest⟩, hprefers.search, rfl, rfl, ?_, ?_⟩
  · show 0 < 0 + taken.length
    omega
  · show 0 + taken.length ≤ _
    omega

/-- A text is cut by its first round and by the rounds on the rest. -/
theorem byRounds_round {c : Char} {cs w rest : List Char} (h : Round (c :: cs) w rest) :
    byRounds (c :: cs) = (do
      let ts ← wordTokens w
      let us ← byRounds rest
      return ts ++ us) := by
  obtain ⟨taken, htaken, hprefers⟩ := h.prefers
  have hlt := h.rest_lt
  cases taken with
  | nil =>
    rw [← htaken] at hlt
    exact absurd hlt (Nat.lt_irrefl _)
  | cons d taken =>
    have hdrop : cs.drop taken.length = rest := by
      rw [List.cons_append] at htaken
      rw [← (List.cons.inj htaken).2]
      exact List.drop_left
    rw [byRounds, hprefers.search]
    have hstop : Pattern.Match.stop ⟨0, d :: taken, some w, rest⟩ = taken.length + 1 := by
      simp [Pattern.Match.stop]
    simp only [hstop, hdrop]

/-! ## §3. The rounds and the scanner -/

/-- The scanner passes over blanks. -/
theorem tokens_blank {gap : List Char} (h : Blank gap) (k : List Char) :
    Mode.ground.tokens (gap ++ k) = Mode.ground.tokens k := by
  induction gap with
  | nil => rfl
  | cons c gap ih =>
    have hc : Mode.ground.feed c = .ok ([], .ground) := by
      simp [Mode.feed, Mode.start, h c (by simp)]
    rw [List.cons_append, Mode.tokens_cons hc, ih (fun d hd => h d (by simp [hd]))]
    cases Mode.ground.tokens k with
    | error e => rfl
    | ok ts => rfl

theorem tokens_of_blank {cs : List Char} (h : Blank cs) : Mode.ground.tokens cs = .ok [] := by
  rw [← List.append_nil cs, tokens_blank h]
  rfl

theorem wordTokens_eq {w : List Char} (hw : w ≠ []) :
    wordTokens w = ((ofWord w).map fun t => [t]).mapError .scan := by
  simp [wordTokens, hw]

/-- The rounds yield what the scanner yields. -/
theorem byRounds_eq (cs : List Char) : byRounds cs = (scan cs).mapError .scan := by
  rw [scan_eq]
  -- on the length of the text: what a round leaves is shorter
  induction hn : cs.length using Nat.strong_induction_on generalizing cs with
  | _ n ih =>
    subst hn
    cases cs with
    | nil =>
      rw [byRounds]
      rfl
    | cons c cs =>
      obtain ⟨w, rest, hround⟩ := exists_round (c :: cs)
      rw [byRounds_round hround, ih _ hround.rest_lt rest rfl]
      generalize c :: cs = all at hround
      cases hround with
      | blank hcs _ =>
        rw [tokens_of_blank hcs]
        rfl
      | word hgap hw htrail hscans _ =>
        rw [wordTokens_eq hw, tokens_blank hgap]
        cases hscans with
        | token t hword _ _ hcuts =>
          rw [hword, hcuts, tokens_blank htrail]
          cases Mode.ground.tokens rest with
          | error e => rfl
          | ok ts => rfl
        | error hword hfails =>
          rw [hword, hfails]
          rfl

/-! ## §4. What the tokens cover -/

/-- A text may begin with a run of plain characters behind `before` only where such a run can
begin. -/
def Joint (before cs : List Char) : Prop :=
  Opens before ∨ Separated cs

theorem Opens.of_last {before : List Char} {c : Char} (h : isDelimiter c = true) :
    Opens (before ++ [c]) := by
  refine .inl ?_
  intro d hd
  rw [List.getLast?_concat] at hd
  cases hd
  exact h

theorem Blank.delimiter {gap : List Char} (h : Blank gap) {c : Char} (hc : c ∈ gap) :
    isDelimiter c = true := by
  simp [isDelimiter, h c hc]

/-- Behind a token there is a joint. -/
theorem Ends.joint {t : Token} {after : List Char} (h : t.Ends after) (before : List Char) :
    Joint (before ++ t.spelling) after := by
  cases t with
  | openParen => exact .inl (.of_last (by decide))
  | closeParen => exact .inl (.of_last (by decide))
  | quote => exact .inl (.of_last (by decide))
  | quasiquote => exact .inl (.of_last (by decide))
  | unquote => exact .inl (.of_last (by decide))
  | unquoteSplicing => exact .inl (.inr (List.suffix_append _ _))
  | text body =>
    refine .inl ?_
    rw [show before ++ (Token.text body).spelling = (before ++ '\x22' :: body) ++ ['\x22'] by
      simp [spelling]]
    exact .of_last (by decide)
  | comment body =>
    refine .inr ?_
    intro c hc
    rw [h.2 c hc]
    decide
  | plain cs => exact .inr h.2

/-- Blanks keep a joint. -/
theorem Joint.blank {before gap cs : List Char} (h : Joint before (gap ++ cs)) (hgap : Blank gap) :
    Joint (before ++ gap) cs := by
  rcases List.eq_nil_or_concat' gap with rfl | ⟨front, c, rfl⟩
  · rwa [List.append_nil]
  · rw [← List.append_assoc]
    exact .inl (.of_last (hgap.delimiter (by simp)))

/-- At a joint a run of plain characters can begin. -/
theorem Joint.opens {before cs k : List Char} (h : Joint before (cs ++ k)) (hcs : PlainRun cs) :
    Opens before := by
  obtain ⟨c, ds, rfl⟩ := List.exists_cons_of_ne_nil hcs.ne_nil
  cases h with
  | inl hopens => exact hopens
  | inr hsep =>
    have hc := hsep c rfl
    rw [hcs.plain c (by simp)] at hc
    cases hc

/-- Blanks in front of a text belong to the gap before its first token. -/
theorem Laid.blank {before gap cs : List Char} {ts : List Token} (hgap : Blank gap)
    (h : Laid (before ++ gap) cs ts) : Laid before (gap ++ cs) ts := by
  generalize hall : before ++ gap = all at h
  cases h with
  | nil hcs =>
    refine .nil ?_
    intro c hc
    rcases List.mem_append.1 hc with hc | hc
    · exact hgap c hc
    · exact hcs c hc
  | @cons _ more after t ts hmore ends opens rest =>
    subst hall
    rw [← List.append_assoc]
    rw [List.append_assoc before] at opens rest
    refine .cons ?_ ends opens rest
    intro c hc
    rcases List.mem_append.1 hc with hc | hc
    · exact hgap c hc
    · exact hmore c hc

/-- A text that is scanned consists of its tokens and of blanks. -/
theorem laid_of_tokens {before cs : List Char} {ts : List Token} (hjoint : Joint before cs)
    (h : Mode.ground.tokens cs = .ok ts) : Laid before cs ts := by
  induction hn : cs.length using Nat.strong_induction_on generalizing before cs ts with
  | _ n ih =>
    subst hn
    cases cs with
    | nil =>
      cases h
      exact .nil (fun _ hc => absurd hc (by simp))
    | cons c cs =>
      obtain ⟨w, rest, hround⟩ := exists_round (c :: cs)
      have hlt := hround.rest_lt
      generalize c :: cs = all at hround h hlt ih hjoint
      cases hround with
      | blank hcs _ =>
        rw [tokens_of_blank hcs] at h
        cases h
        exact .nil hcs
      | @word gap w trail rest hgap hw htrail hscans _ =>
        rw [tokens_blank hgap] at h
        cases hscans with
        | error _ hfails =>
          rw [hfails] at h
          cases h
        | token t hword hspelled ends hcuts =>
          subst hspelled
          rw [hcuts, tokens_blank htrail] at h
          cases hrest : Mode.ground.tokens rest with
          | error e =>
            rw [hrest] at h
            cases h
          | ok us =>
            rw [hrest] at h
            cases h
            have hopens : ∀ cs, t = .plain cs → Opens (before ++ gap) := by
              rintro cs rfl
              exact (hjoint.blank hgap).opens ends.1
            have hnext := (ends.joint (before ++ gap)).blank htrail
            exact .cons hgap ends hopens (.blank htrail (ih _ hlt hnext hrest rfl))

/-- Tokenizing loses nothing and always advances. On every text that is not empty a round matches
where it stands and takes at least one character; so the rounds come to an end without a mismatch,
with what the scanner yields. If they succeed, the text is the tokens as they are written, in order,
with blanks around them, and every token ends where it should: runs of plain characters are
maximal, comments end with their lines, and literals at the first quote that is not escaped. -/
theorem byRounds_lossless (cs : List Char) :
    (∀ c rest, ∃ m, pattern.search (c :: rest) = some m ∧ m.start = 0 ∧
      m.way.marked.isSome ∧ 0 < m.stop ∧ m.stop ≤ (c :: rest).length) ∧
    byRounds cs = (scan cs).mapError .scan ∧
    (∀ rest, byRounds cs ≠ .error (.noMatch rest)) ∧
    ∀ ts, byRounds cs = .ok ts → Laid [] cs ts := by
  have hequal := byRounds_eq cs
  refine ⟨exists_match, hequal, ?_, ?_⟩
  · intro rest hmismatch
    rw [hequal] at hmismatch
    cases hscan : scan cs with
    | error e =>
      rw [hscan] at hmismatch
      cases hmismatch
    | ok ts =>
      rw [hscan] at hmismatch
      cases hmismatch
  · intro ts hts
    rw [hequal, scan_eq] at hts
    cases htokens : Mode.ground.tokens cs with
    | error e =>
      rw [htokens] at hts
      cases hts
    | ok us =>
      rw [htokens] at hts
      cases hts
      have hstart : Joint [] cs := .inl (.inl (by simp))
      exact laid_of_tokens hstart htokens

example : byRounds [',', '@', 'a', ' ', '\x22', '\\', '\x22', '\x22', ';', '\n'] =
    .ok [.unquoteSplicing, .plain ['a'], .text ['\\', '\x22'], .comment []] := by
  rw [byRounds_eq]
  rfl

example : byRounds ['\x22', 'a', '\\', '\x22'] = .error (.scan .unbalancedString) := by
  rw [byRounds_eq]
  rfl

end TinyLisp.Token
