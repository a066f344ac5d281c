import TinyLisp.Proofs.Reading.Completion
import TinyLisp.Proofs.Conversation

/-!
# Asking for more

While a list or a string is open, a dialogue asks for more. One further line is enough to be done
with it: a quote if a string is open, and then what parentheses are missing; unless a line ends
inside a string with a backslash that escapes. No line break can be escaped, so such a text has no
tokens, whatever follows, and the dialogue takes the string for open ever after
(`Dialogue.completable_iff`).
-/

namespace TinyLisp

/-! ## §1. Where scanning fails -/

namespace Token.Mode

/-- Scanning stops at nothing but a line break behind a backslash in a string. -/
theorem feed_error {m : Mode} {c : Char} {e : ScanError} (h : m.feed c = .error e) :
    c = '\n' ∧ ∃ seen, m = .escape seen := by
  cases m with
  | escape seen =>
    simp only [feed] at h
    split at h
    · next hc => exact ⟨hc, seen, rfl⟩
    · cases h
  | _ => cases h

/-- Characters that do not scan have a line break behind a backslash in a string. -/
theorem exists_escape_of_run {m : Mode} {cs : List Char} {e : ScanError}
    (h : m.run cs = .error e) :
    ∃ ds rest ts seen, cs = ds ++ '\n' :: rest ∧ m.run ds = .ok (ts, .escape seen) := by
  induction cs generalizing m with
  | nil => cases h
  | cons c cs ih =>
    cases hf : m.feed c with
    | error e' =>
      obtain ⟨rfl, seen, rfl⟩ := feed_error hf
      exact ⟨[], cs, [], seen, rfl, rfl⟩
    | ok r =>
      rw [run_cons hf] at h
      cases hr : r.2.run cs with
      | ok q =>
        rw [hr] at h
        cases h
      | error e' =>
        obtain ⟨ds, rest, ts, seen, rfl, hds⟩ := ih hr
        exact ⟨c :: ds, rest, r.1 ++ ts, seen, rfl, by rw [run_cons hf, hds]; rfl⟩

/-- A line break behind a backslash in a string stops the scanner, whatever follows. -/
theorem run_escape {m : Mode} {ds : List Char} {ts : List Token} {seen : List Char}
    (h : m.run ds = .ok (ts, .escape seen)) (rest : List Char) :
    m.run (ds ++ '\n' :: rest) = .error .unbalancedString := by
  rw [run_append h, run_cons_error (by rfl : feed (.escape seen) '\n' = .error .unbalancedString)]
  rfl

end Token.Mode

/-- Whether a line of a text ends inside a string with a backslash that escapes what is next. -/
def EndsWithEscape (s : String) : Prop :=
  ∃ cs rest ts seen, s.toList = cs ++ '\n' :: rest ∧
    Token.Mode.ground.run cs = .ok (ts, .escape seen)

/-- Such a line stops the scanner, and nothing else does. -/
theorem endsWithEscape_iff (s : String) :
    EndsWithEscape s ↔ ∃ e, Token.Mode.ground.run s.toList = .error e := by
  constructor
  · rintro ⟨cs, rest, ts, seen, hs, hcs⟩
    exact ⟨_, by rw [hs, Token.Mode.run_escape hcs]⟩
  · rintro ⟨e, he⟩
    exact Token.Mode.exists_escape_of_run he

/-! ## §2. What a further line completes -/

theorem endsLine_unlines (lines : List String) : EndsLine (unlines lines) := by
  induction lines with
  | nil => exact .inl rfl
  | cons line lines ih =>
    right
    rw [toList_unlines_cons]
    rcases ih with hnil | ⟨cs, hcs⟩
    · exact ⟨line.toList, by rw [hnil]⟩
    · exact ⟨line.toList ++ '\n' :: cs, by rw [hcs, List.append_assoc]; rfl⟩

namespace Dialogue

/-- Behind tokens, some parentheses leave nothing open. -/
theorem exists_parens (ts : List Token) :
    ∃ us, (∀ t ∈ us, t.IsParen) ∧
      ∀ e, readTokens (ts ++ us) = .error e → e.incomplete = false := by
  cases hr : Reader.initial.readFrom ts with
  | ok r =>
    refine ⟨r.closing, r.isParen_closing, fun e he => ?_⟩
    obtain ⟨fs, hfs⟩ := readTokens_closing hr
    rw [hfs] at he
    cases he
  | error e =>
    have hblames := Reader.blamesToken_of_readFrom hr
    refine ⟨[], by simp, fun e' he' => ?_⟩
    rw [List.append_nil, readTokens_eq, hr] at he'
    cases he'
    cases e <;> first | rfl | cases hblames

/-- With the scanner between tokens, parentheses on the same line leave nothing open. -/
theorem exists_closing {s : String} {ts : List Token}
    (h : Token.Mode.ground.run s.toList = .ok (ts, .ground)) :
    ∃ us, needsMore (s ++ parenText us ++ "\n") = false := by
  obtain ⟨us, hparen, hdone⟩ := exists_parens (seenTokens ts)
  refine ⟨us, ?_⟩
  have htokens : Token.Mode.ground.tokens (s ++ parenText us ++ "\n").toList = .ok (ts ++ us) := by
    have hbreak : Token.Mode.ground.tokens "\n".toList = .ok [] := rfl
    rw [String.toList_append, String.toList_append, List.append_assoc, Token.Mode.tokens_append h,
      Token.Mode.tokens_append (run_parenText hparen), hbreak]
    show Except.ok (ts ++ (us ++ [])) = _
    rw [List.append_nil]
  have hread : readData (s ++ parenText us ++ "\n") = readTokens (seenTokens ts ++ us) := by
    have hseen : seenTokens (ts ++ us) = seenTokens ts ++ us :=
      (List.filter_append ..).trans (congrArg _ (seenTokens_parens hparen))
    rw [readData_eq, significantTokens_eq, htokens, ← hseen]
    rfl
  unfold needsMore
  rw [hread]
  cases hr : readTokens (seenTokens ts ++ us) with
  | ok fs => rfl
  | error e => exact hdone e hr

/-- Where no line ends with a backslash that escapes, one more line leaves nothing open. -/
theorem exists_line {s : String} (hs : EndsLine s) (h : ¬ EndsWithEscape s) :
    ∃ line, needsMore (s ++ line ++ "\n") = false := by
  cases hr : Token.Mode.ground.run s.toList with
  | error e => exact absurd ((endsWithEscape_iff s).2 ⟨e, hr⟩) h
  | ok q =>
    obtain ⟨ts, m⟩ := q
    rcases hs.run hr with rfl | ⟨seen, rfl⟩
    · obtain ⟨us, hus⟩ := exists_closing hr
      exact ⟨_, hus⟩
    · -- the string that is open ends with the first character of the line
      have hquote : Token.Mode.ground.run (s ++ "\"").toList =
          .ok (ts ++ [.text seen.reverse], .ground) := by
        rw [String.toList_append, Token.Mode.run_append hr]
        rfl
      obtain ⟨us, hus⟩ := exists_closing hquote
      exact ⟨"\"" ++ parenText us, by rwa [← String.append_assoc]⟩

/-- After such a backslash a dialogue asks for more, whatever follows. -/
theorem needsMore_of_endsWithEscape {s : String} (h : EndsWithEscape s) (t : String) :
    needsMore (s ++ t) = true := by
  obtain ⟨e, he⟩ := (endsWithEscape_iff s).1 h
  have hread : readData (s ++ t) = .error .unbalancedString := by
    rw [readData_eq, significantTokens_eq, String.toList_append]
    unfold Token.Mode.tokens
    rw [Token.Mode.run_append_error he]
    rfl
  unfold needsMore
  rw [hread]
  rfl

/-- Whatever lines are pending, there are further lines with which a dialogue does not ask for
more, unless one of the pending lines ends inside a string with a backslash that escapes. -/
theorem completable_iff (lines : List String) :
    (∃ further, needsMore (unlines lines ++ unlines further) = false) ↔
      ¬ EndsWithEscape (unlines lines) := by
  constructor
  · rintro ⟨further, hdone⟩ h
    rw [needsMore_of_endsWithEscape h] at hdone
    cases hdone
  · intro h
    obtain ⟨line, hline⟩ := exists_line (endsLine_unlines lines) h
    refine ⟨[line], ?_⟩
    rw [append_unlines_cons, append_unlines_nil]
    exact hline

/-- A string that breaks at a backslash. A dialogue that is given its line asks for more, and does
so whatever further lines it is given. -/
theorem asks_after_backslash :
    needsMore (unlines ["\"a\\"]) = true ∧
      ∀ further, needsMore (unlines ["\"a\\"] ++ unlines further) = true := by
  have h : EndsWithEscape (unlines ["\"a\\"]) :=
    ⟨['\x22', 'a', '\\'], [], [], ['\\', 'a'], rfl, rfl⟩
  have hall := needsMore_of_endsWithEscape h
  refine ⟨?_, fun further => hall _⟩
  have hnone := hall (unlines [])
  rwa [append_unlines_nil] at hnone

end Dialogue

end TinyLisp
