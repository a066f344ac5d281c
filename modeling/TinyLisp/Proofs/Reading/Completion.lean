import TinyLisp.Proofs.Reading.Parts

/-!
# Completing what has been read

Whatever a reader has begun, parentheses complete it (`Reader.readFrom_closing`): a tail or a prefix
that waits for its datum is given the empty list, and each open list its closing parenthesis.
Parentheses are tokens in any text, so a text that leaves a list open can be written to its end.

With the laws of texts in two parts this tells of each text of whole lines what can follow it
(`readData_lines`).
-/

namespace TinyLisp

/-! ## §1. A closing parenthesis for each open list -/

namespace Reader

/-- How many lists are open. -/
def depth (r : Reader) : Nat :=
  (r.stack.filter Pending.isList).length

/-- The parentheses that complete what a reader has begun: the empty list where a datum has to
stand, and a closing parenthesis for each open list. -/
def closing (r : Reader) : List Token :=
  (match r.stack with
    | .tail _ :: _ => [.openParen, .closeParen]
    | .wrapper _ :: _ => [.openParen, .closeParen]
    | _ => []) ++ List.replicate r.depth .closeParen

/-- Behind a datum, closing parentheses are all that is wanted. -/
theorem readFrom_supply (done : List Value) (v : Value) (stack : List Pending) :
    ∃ vs, (supply done v stack).readFrom
      (List.replicate (stack.filter Pending.isList).length .closeParen) = .ok ⟨vs, []⟩ := by
  induction stack generalizing v with
  | nil => exact ⟨v :: done, rfl⟩
  | cons p rest ih =>
    cases p with
    | wrapper w => exact ih (w.wrap v)
    | list seen =>
      obtain ⟨vs, hvs⟩ := ih (Value.chain .nil (v :: seen).reverse)
      exact ⟨vs, (readFrom_cons (.closeList rfl) _).trans hvs⟩
    | tail seen =>
      obtain ⟨vs, hvs⟩ := ih (Value.chain v seen.reverse)
      exact ⟨vs, (readFrom_cons (.closeTail rfl) _).trans hvs⟩
    | close seen last =>
      obtain ⟨vs, hvs⟩ := ih (Value.chain v seen.reverse)
      exact ⟨vs, (readFrom_cons (.closeTail rfl) _).trans hvs⟩

/-- An empty list and closing parentheses complete what awaits a datum. -/
theorem readFrom_emptyList {r : Reader} (hr : r.Awaiting) :
    ∃ vs, r.readFrom (.openParen :: .closeParen :: List.replicate r.depth .closeParen) =
      .ok ⟨vs, []⟩ := by
  obtain ⟨vs, hvs⟩ := readFrom_supply r.done .nil r.stack
  refine ⟨vs, ?_⟩
  rw [readFrom_cons (.openList hr), readFrom_cons (.closeList (r := r.push (.list [])) rfl)]
  exact hvs

/-- What a reader has begun is completed. -/
theorem readFrom_closing (r : Reader) : ∃ vs, r.readFrom r.closing = .ok ⟨vs, []⟩ := by
  obtain ⟨done, stack⟩ := r
  cases stack with
  | nil => exact ⟨done, rfl⟩
  | cons p rest =>
    cases p with
    | list seen =>
      obtain ⟨vs, hvs⟩ := readFrom_supply done (Value.chain .nil seen.reverse) rest
      exact ⟨vs, (readFrom_cons (.closeList rfl) _).trans hvs⟩
    | close seen last =>
      obtain ⟨vs, hvs⟩ := readFrom_supply done (Value.chain last seen.reverse) rest
      exact ⟨vs, (readFrom_cons (.closeTail rfl) _).trans hvs⟩
    | tail seen => exact readFrom_emptyList fun _ _ _ h => by cases h
    | wrapper w => exact readFrom_emptyList fun _ _ _ h => by cases h

end Reader

/-! ## §2. Parentheses in a text -/

/-- Whether a token is a parenthesis. -/
def Token.IsParen (t : Token) : Prop :=
  t = .openParen ∨ t = .closeParen

theorem Reader.isParen_closing (r : Reader) : ∀ t ∈ r.closing, t.IsParen := by
  intro t ht
  rcases List.mem_append.1 ht with ht | ht
  · split at ht
    · simpa [Token.IsParen] using ht
    · simpa [Token.IsParen] using ht
    · cases ht
  · exact .inr (List.eq_of_mem_replicate ht)

theorem Token.IsParen.isComment {t : Token} (h : t.IsParen) : t.isComment = false := by
  rcases h with rfl | rfl <;> rfl

/-- The text of parentheses. -/
def parenText (ts : List Token) : String :=
  String.ofList (ts.map fun t => if t = .openParen then '(' else ')')

section

variable {ts : List Token} (hts : ∀ t ∈ ts, t.IsParen)
include hts

/-- Parentheses are tokens wherever the scanner is between tokens. -/
theorem run_parenText : Token.Mode.ground.run (parenText ts).toList = .ok (ts, .ground) := by
  unfold parenText
  rw [String.toList_ofList]
  induction ts with
  | nil => rfl
  | cons t ts ih =>
    rw [List.forall_mem_cons] at hts
    have hfeed : Token.Mode.ground.feed (if t = .openParen then '(' else ')') =
        .ok ([t], .ground) := by
      rcases hts.1 with rfl | rfl <;> rfl
    rw [List.map_cons, Token.Mode.run_cons hfeed, ih hts.2]
    rfl

theorem seenTokens_parens : seenTokens ts = ts :=
  List.filter_eq_self.2 fun t ht => by simp [(hts t ht).isComment]

theorem significantTokens_parenText : significantTokens (parenText ts) = .ok ts := by
  rw [significantTokens_eq]
  unfold Token.Mode.tokens
  rw [run_parenText hts]
  show Except.ok (seenTokens (ts ++ [])) = _
  rw [List.append_nil, seenTokens_parens hts]

end

/-! ## §3. What tokens can lack -/

section

variable {ts us : List Token} {e : ReadError}

/-- Tokens read to data, or one of them is refused, or something that they begin is not
complete. -/
theorem readTokens_cases (ts : List Token) :
    (∃ fs, readTokens ts = .ok fs) ∨
      (∃ e, e.blamesToken = true ∧ readTokens ts = .error e ∧
        Reader.initial.readFrom ts = .error e) ∨
      ∃ e r, (e = .unclosedList ∨ e = .nothingToRead) ∧ readTokens ts = .error e ∧
        Reader.initial.readFrom ts = .ok r ∧ r.finish = .error e := by
  rw [readTokens_eq]
  cases hr : Reader.initial.readFrom ts with
  | error e => exact .inr (.inl ⟨e, Reader.blamesToken_of_readFrom hr, rfl, rfl⟩)
  | ok r =>
    rcases r.finish_cases with ⟨-, hok⟩ | herr | herr
    · exact .inl ⟨_, hok⟩
    · exact .inr (.inr ⟨_, r, .inl rfl, herr, rfl, herr⟩)
    · exact .inr (.inr ⟨_, r, .inr rfl, herr, rfl, herr⟩)

/-- Tokens that are accepted are completed by parentheses. -/
theorem readTokens_closing {r : Reader} (h : Reader.initial.readFrom ts = .ok r) :
    ∃ fs, readTokens (ts ++ r.closing) = .ok fs := by
  obtain ⟨vs, hvs⟩ := r.readFrom_closing
  refine ⟨vs.reverse, ?_⟩
  rw [readTokens_eq, Reader.readFrom_append_eq_ok_iff.2 ⟨r, h, hvs⟩]
  rfl

/-- A token that is refused is refused whatever follows. -/
theorem readTokens_append_error (h : readTokens ts = .error e) (he : e.blamesToken = true)
    (us : List Token) : readTokens (ts ++ us) = .error e := by
  rcases readTokens_cases ts with ⟨fs, hok⟩ | ⟨e', -, herr, hrefused⟩ | ⟨e', r, hends, herr, -⟩
  · rw [hok] at h
    cases h
  · rw [herr] at h
    cases h
    rw [readTokens_eq, Reader.readFrom_append, hrefused]
    rfl
  · rw [herr] at h
    cases h
    rcases hends with rfl | rfl <;> cases he

end

/-! ## §4. Whole lines, and what can follow them -/

/-- Reading whole lines first. If a text of whole lines has tokens, then: if it reads, whatever
follows is read as if it stood alone; if it leaves a list open, something completes it; and any
other failure, unless it is that there was nothing to read, is the failure of every longer text
that has tokens. -/
theorem readData_lines {s : String} (hs : EndsLine s) {ts : List Token}
    (hscan : Token.scan s.toList = .ok ts) :
    (∀ vs, readData s = .ok vs → ∀ t, readData (s ++ t) = (readData t).map (vs ++ ·)) ∧
      (readData s = .error .unclosedList → ∃ t vs, readData (s ++ t) = .ok vs) ∧
      ∀ e, readData s = .error e → e ≠ .unclosedList → e ≠ .nothingToRead →
        ∀ t, (∃ e', readData (s ++ t) = .error e') ∧
          ∀ us, Token.scan t.toList = .ok us → readData (s ++ t) = .error e := by
  have htokens : significantTokens s = .ok (seenTokens ts) := by
    rw [significantTokens_eq, ← Token.scan_eq, hscan]
  have hread : readData s = readTokens (seenTokens ts) := by
    rw [readData_eq, htokens]
    rfl
  have happend (t : String) : readData (s ++ t) =
      (significantTokens t >>= fun us => readTokens (seenTokens ts ++ us)) := by
    rw [readData_eq, significantTokens_append hs htokens]
    cases significantTokens t <;> rfl
  refine ⟨fun vs hvs t => readData_append hs hvs t, fun hopen => ?_, fun e he hopen hnone t => ?_⟩
  · rcases readTokens_cases (seenTokens ts) with ⟨fs, hok⟩ | ⟨e, he, herr, -⟩ | ⟨e, r, -, -, hr, -⟩
    · rw [hread, hok] at hopen
      cases hopen
    · rw [hread, herr] at hopen
      cases hopen
      cases he
    · obtain ⟨fs, hfs⟩ := readTokens_closing hr
      refine ⟨parenText r.closing, fs, ?_⟩
      rw [happend, significantTokens_parenText r.isParen_closing]
      exact hfs
  · have hblames : e.blamesToken = true := by
      rw [hread] at he
      rcases readTokens_cases (seenTokens ts) with ⟨fs, hok⟩ | ⟨e', he', herr, -⟩ |
          ⟨e', r, hends, herr, -⟩
      · rw [hok] at he
        cases he
      · rw [herr] at he
        cases he
        exact he'
      · rw [herr] at he
        cases he
        rcases hends with rfl | rfl
        · exact absurd rfl hopen
        · exact absurd rfl hnone
    have hlonger := readTokens_append_error (hread ▸ he) hblames
    constructor
    · rw [happend]
      cases significantTokens t with
      | error e' => exact ⟨e', rfl⟩
      | ok us => exact ⟨e, hlonger us⟩
    · intro us hus
      rw [happend, significantTokens_eq, ← Token.scan_eq, hus]
      exact hlonger (seenTokens us)

/-- A line with a datum, a line that leaves a list open, and a line with a parenthesis too many. -/
theorem readData_lines_parentheses :
    (∀ t, readData ("a\n" ++ t) = (readData t).map ([.symbol "a"] ++ ·)) ∧
      (∃ t vs, readData ("(a . '\n" ++ t) = .ok vs) ∧
      ∀ t, ∃ e, readData (")\n" ++ t) = .error e := by
  have hline (cs : List Char) : EndsLine (String.ofList (cs ++ ['\n'])) :=
    .inr ⟨cs, String.toList_ofList⟩
  have hdatum : Token.scan ['a', '\n'] = .ok [.plain ['a']] := rfl
  have hopen : Token.scan "(a . '\n".toList =
      .ok [.openParen, .plain ['a'], .plain ['.'], .quote] := rfl
  have hclose : Token.scan [')', '\n'] = .ok [.closeParen] := rfl
  refine ⟨?_, ?_, fun t => ?_⟩
  · exact (readData_lines (hline ['a']) hdatum).1 _ rfl
  · exact (readData_lines (hline "(a . '".toList) hopen).2.1 rfl
  · exact ((readData_lines (hline [')']) hclose).2.2 .unexpectedClose rfl (by simp) (by simp) t).1

end TinyLisp
