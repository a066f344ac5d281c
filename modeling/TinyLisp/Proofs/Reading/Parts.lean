import TinyLisp.Proofs.Reading.Scan
import TinyLisp.Proofs.Reading.Step

/-!
# Reading a text in parts

A text that ends with a line break leaves the scanner between tokens or inside a string. If such a
text reads, whatever follows it is read as if it stood alone (`readData_append`). If it does not
read although some continuation of it does, then a list or a string is open, or a prefix outside
of all lists waits for its datum (`readData_of_append`, `readTokens_eq_nothingToRead_iff`).
-/

namespace TinyLisp

/-! ## §1. The reader -/

namespace Reader

/-- A reader that had read some data before. -/
def onTop (base : List Value) (r : Reader) : Reader :=
  ⟨r.done ++ base, r.stack⟩

theorem supply_onTop (base done : List Value) (v : Value) (stack : List Pending) :
    supply (done ++ base) v stack = (supply done v stack).onTop base := by
  induction stack generalizing v with
  | nil => rfl
  | cons p rest ih =>
    cases p with
    | wrapper w => exact ih (w.wrap v)
    | list seen => rfl
    | tail seen => rfl
    | close seen tail => rfl

theorem give_onTop (base : List Value) (r : Reader) (v : Value) :
    (r.onTop base).give v = (r.give v).onTop base :=
  supply_onTop base r.done v r.stack

/-- What was read before makes no difference to a token. -/
theorem feed_onTop (base : List Value) (r : Reader) (t : Token) :
    (r.onTop base).feed t = (r.feed t).map (onTop base) := by
  have hatom : ∀ cs, (atomValue cs).map (r.onTop base).give =
      ((atomValue cs).map r.give).map (onTop base) := by
    intro cs
    cases atomValue cs with
    | error e => rfl
    | ok v => exact congrArg Except.ok (give_onTop base r v)
  obtain ⟨done, stack⟩ := r
  have hdatum : (onTop base ⟨done, stack⟩).feedDatum t =
      (feedDatum ⟨done, stack⟩ t).map (onTop base) := by
    cases t with
    | closeParen =>
      simp only [feedDatum, feedClose, onTop]
      split
      · exact congrArg Except.ok (supply_onTop base done _ _)
      · rfl
    | text body =>
      simp only [feedDatum]
      cases Text.decode body with
      | error e => rfl
      | ok s => exact congrArg Except.ok (give_onTop base ⟨done, stack⟩ _)
    | plain cs =>
      simp only [feedDatum, feedPlain, onTop]
      split
      · split
        · split <;> rfl
        · exact hatom cs
      · exact hatom cs
    | _ => rfl
  unfold feed
  simp only [onTop]
  split
  · cases t with
    | closeParen => exact congrArg Except.ok (supply_onTop base done _ _)
    | _ => rfl
  · exact hdatum

theorem readFrom_onTop (base : List Value) (r : Reader) (ts : List Token) :
    (r.onTop base).readFrom ts = (r.readFrom ts).map (onTop base) := by
  induction ts generalizing r with
  | nil => rfl
  | cons t ts ih =>
    unfold readFrom
    rw [List.foldlM_cons, List.foldlM_cons, feed_onTop]
    cases r.feed t with
    | error e => rfl
    | ok s => exact ih s

theorem finish_onTop (base : List Value) (r : Reader) :
    (r.onTop base).finish = r.finish.map (base.reverse ++ ·) := by
  obtain ⟨done, stack⟩ := r
  cases stack with
  | nil =>
    show Except.ok (done ++ base).reverse = Except.ok (base.reverse ++ done.reverse)
    rw [List.reverse_append]
  | cons p rest => rfl

/-- Reading ends with the data read, or for want of tokens. -/
theorem finish_cases (r : Reader) :
    (r.stack = [] ∧ r.finish = .ok r.done.reverse) ∨
      r.finish = .error .unclosedList ∨ r.finish = .error .nothingToRead := by
  unfold finish endError
  cases r.stack with
  | nil => exact .inl ⟨rfl, rfl⟩
  | cons p rest =>
    refine .inr ?_
    simp only [List.isEmpty_cons, Bool.false_eq_true, if_false]
    split
    · exact .inl rfl
    · exact .inr rfl

end Reader

/-! ## §2. Failures -/

/-- Whether a failure blames a token, rather than the end of the tokens. -/
def ReadError.blamesToken : ReadError → Bool
  | .escape _ => true
  | .unexpectedClose => true
  | .malformedPair => true
  | .notANumber _ => true
  | _ => false

theorem blamesToken_of_atomValue {cs : List Char} {e : ReadError} (h : atomValue cs = .error e) :
    e.blamesToken = true := by
  unfold atomValue at h
  repeat' split at h
  all_goals cases h <;> rfl

namespace Reader

variable {e : ReadError}

/-- A token that is refused is to blame. -/
theorem blamesToken_of_feed {r : Reader} {t : Token} (h : r.feed t = .error e) :
    e.blamesToken = true := by
  have hatom : ∀ cs, (atomValue cs).map r.give = .error e → e.blamesToken = true := by
    intro cs h
    cases hv : atomValue cs with
    | ok v =>
      rw [hv] at h
      cases h
    | error e' =>
      rw [hv] at h
      cases h
      exact blamesToken_of_atomValue hv
  unfold feed at h
  split at h
  · cases t <;> cases h <;> rfl
  · cases t with
    | plain cs =>
      simp only [feedDatum, feedPlain] at h
      split at h
      · split at h
        · split at h <;> cases h
          rfl
        · exact hatom cs h
      · exact hatom cs h
    | text body =>
      simp only [feedDatum] at h
      split at h <;> cases h
      rfl
    | closeParen =>
      simp only [feedDatum, feedClose] at h
      split at h <;> cases h
      rfl
    | _ => cases h

/-- Tokens are refused for one among them: those before it are accepted. -/
theorem refused_of_readFrom {r : Reader} {ts : List Token} (h : r.readFrom ts = .error e) :
    ∃ us t rest s, ts = us ++ t :: rest ∧ r.readFrom us = .ok s ∧ s.feed t = .error e := by
  induction ts generalizing r with
  | nil => cases h
  | cons t ts ih =>
    unfold readFrom at h
    rw [List.foldlM_cons] at h
    cases hf : r.feed t with
    | error e' =>
      rw [hf] at h
      cases h
      exact ⟨[], t, ts, r, rfl, rfl, hf⟩
    | ok u =>
      rw [hf] at h
      obtain ⟨us, t', rest, s, rfl, hus, hs⟩ := ih h
      exact ⟨t :: us, t', rest, s, rfl, (readFrom_cons (.of_feed hf) us).trans hus, hs⟩

theorem blamesToken_of_readFrom {r : Reader} {ts : List Token} (h : r.readFrom ts = .error e) :
    e.blamesToken = true := by
  obtain ⟨_, _, _, _, _, _, hs⟩ := refused_of_readFrom h
  exact blamesToken_of_feed hs

end Reader

/-! ## §3. Tokens in two parts -/

section

variable {ts us : List Token} {fs forms : List Value}

theorem readTokens_eq (ts : List Token) :
    readTokens ts = (Reader.initial.readFrom ts >>= Reader.finish) := rfl

/-- Tokens that read leave a reader with nothing begun. -/
theorem readFrom_of_readTokens (h : readTokens ts = .ok fs) :
    Reader.initial.readFrom ts = .ok ⟨fs.reverse, []⟩ := by
  rw [readTokens_eq] at h
  cases hr : Reader.initial.readFrom ts with
  | error e =>
    rw [hr] at h
    cases h
  | ok r =>
    rw [hr] at h
    change r.finish = .ok fs at h
    obtain ⟨done, stack⟩ := r
    rcases Reader.finish_cases ⟨done, stack⟩ with ⟨hst, hok⟩ | herr | herr
    · rw [hok] at h
      cases h
      rw [show stack = [] from hst, List.reverse_reverse]
    · rw [herr] at h
      cases h
    · rw [herr] at h
      cases h

/-- Behind tokens that read, further tokens are read as if they stood alone. -/
theorem readTokens_append (h : readTokens ts = .ok fs) (us : List Token) :
    readTokens (ts ++ us) = (readTokens us).map (fs ++ ·) := by
  have hbase : (⟨fs.reverse, []⟩ : Reader) = Reader.initial.onTop fs.reverse := rfl
  rw [readTokens_eq, readTokens_eq, Reader.readFrom_append, readFrom_of_readTokens h]
  show ((⟨fs.reverse, []⟩ : Reader).readFrom us >>= Reader.finish) = _
  rw [hbase, Reader.readFrom_onTop]
  cases Reader.initial.readFrom us with
  | error e => rfl
  | ok r =>
    show (r.onTop fs.reverse).finish = r.finish.map (fs ++ ·)
    rw [Reader.finish_onTop, List.reverse_reverse]

/-- Tokens that read if others follow can lack nothing but those. -/
theorem readTokens_of_append (h : readTokens (ts ++ us) = .ok forms) :
    (∃ fs, readTokens ts = .ok fs) ∨ readTokens ts = .error .unclosedList ∨
      readTokens ts = .error .nothingToRead := by
  rw [readTokens_eq, Reader.readFrom_append] at h
  rw [readTokens_eq]
  cases hr : Reader.initial.readFrom ts with
  | error e =>
    rw [hr] at h
    cases h
  | ok r =>
    show (∃ fs, r.finish = .ok fs) ∨ _
    rcases r.finish_cases with ⟨-, hok⟩ | herr
    · exact .inl ⟨_, hok⟩
    · exact .inr herr

end

/-! ## §4. Texts in two parts -/

/-- Whether a text is empty or ends with a line break. -/
def EndsLine (s : String) : Prop :=
  s.toList = [] ∨ ∃ cs, s.toList = cs ++ ['\n']

/-- After a line break the scanner stands between tokens or inside a string. -/
theorem Token.Mode.run_newline {m m' : Mode} {cs : List Char} {ts : List Token}
    (h : m.run (cs ++ ['\n']) = .ok (ts, m')) : m' = .ground ∨ ∃ seen, m' = .text seen := by
  cases hr : m.run cs with
  | error e =>
    rw [run_append_error hr] at h
    cases h
  | ok q =>
    obtain ⟨us, k⟩ := q
    rw [run_append hr] at h
    cases k with
    | text seen =>
      cases h
      exact .inr ⟨_, rfl⟩
    | escape seen => cases h
    | _ =>
      cases h
      exact .inl rfl

theorem EndsLine.run {s : String} (hs : EndsLine s) {ts : List Token} {m : Token.Mode}
    (h : Token.Mode.ground.run s.toList = .ok (ts, m)) : m = .ground ∨ ∃ seen, m = .text seen := by
  rcases hs with hnil | ⟨cs, hcs⟩
  · rw [hnil] at h
    cases h
    exact .inl rfl
  · rw [hcs] at h
    exact Token.Mode.run_newline h

/-- The tokens but the comments. -/
def seenTokens (ts : List Token) : List Token :=
  ts.filter (!·.isComment)

/-- The tokens that a reader sees, by a run of the scanner. -/
theorem significantTokens_eq (s : String) :
    significantTokens s = match Token.Mode.ground.tokens s.toList with
      | .ok ts => .ok (seenTokens ts)
      | .error _ => .error .unbalancedString := by
  unfold significantTokens Token.significant
  rw [Token.scan_eq]
  cases Token.Mode.ground.tokens s.toList with
  | error e =>
    cases e
    rfl
  | ok ts => rfl

section

variable {s t : String} {ts : List Token} {fs forms : List Value}

theorem isComment_of_significantTokens (h : significantTokens s = .ok ts) :
    ∀ t ∈ ts, t.isComment = false := by
  rw [significantTokens_eq] at h
  split at h
  · cases h
    intro t ht
    simpa using (List.mem_filter.1 ht).2
  · cases h

/-- The tokens of a text behind lines that scan. -/
theorem significantTokens_append (hs : EndsLine s) (h : significantTokens s = .ok ts)
    (t : String) : significantTokens (s ++ t) = (significantTokens t).map (ts ++ ·) := by
  rw [significantTokens_eq] at h
  rw [significantTokens_eq, significantTokens_eq, String.toList_append]
  cases hr : Token.Mode.ground.run s.toList with
  | error e =>
    unfold Token.Mode.tokens at h
    rw [hr] at h
    cases h
  | ok q =>
    obtain ⟨us, m⟩ := q
    rw [Token.Mode.tokens_append hr]
    unfold Token.Mode.tokens at h
    rw [hr] at h
    -- behind whole lines the scanner is between tokens, or inside a string
    rcases hs.run hr with rfl | ⟨seen, rfl⟩
    · cases h
      cases Token.Mode.ground.tokens t.toList with
      | error e => rfl
      | ok vs => simp [Except.map, seenTokens]
    · cases h

/-- Lines that scan if others follow scan, or end inside a string. -/
theorem significantTokens_of_append (hs : EndsLine s) {all : List Token}
    (h : significantTokens (s ++ t) = .ok all) :
    significantTokens s = .error .unbalancedString ∨
      ∃ ts us, significantTokens s = .ok ts ∧ all = ts ++ us := by
  cases hts : significantTokens s with
  | error e =>
    rw [significantTokens_eq] at hts
    split at hts
    · cases hts
    · cases hts
      exact .inl rfl
  | ok ts =>
    rw [significantTokens_append hs hts] at h
    cases hus : significantTokens t with
    | error e =>
      rw [hus] at h
      cases h
    | ok us =>
      rw [hus] at h
      cases h
      exact .inr ⟨ts, us, rfl, rfl⟩

theorem readData_eq (s : String) :
    readData s = (significantTokens s >>= fun ts => readTokens ts) := rfl

/-- Behind lines that read, a text is read as if it stood alone. -/
theorem readData_append (hs : EndsLine s) (h : readData s = .ok fs) (t : String) :
    readData (s ++ t) = (readData t).map (fs ++ ·) := by
  rw [readData_eq] at h
  cases hts : significantTokens s with
  | error e =>
    rw [hts] at h
    cases h
  | ok ts =>
    rw [hts] at h
    rw [readData_eq, readData_eq, significantTokens_append hs hts]
    cases significantTokens t with
    | error e => rfl
    | ok us => exact readTokens_append h us

/-- Lines that read if others follow can lack nothing but those. -/
theorem readData_of_append (hs : EndsLine s) (h : readData (s ++ t) = .ok forms) :
    (∃ fs, readData s = .ok fs) ∨ readData s = .error .unbalancedString ∨
      readData s = .error .unclosedList ∨ readData s = .error .nothingToRead := by
  rw [readData_eq] at h
  rw [readData_eq]
  cases hall : significantTokens (s ++ t) with
  | error e =>
    rw [hall] at h
    cases h
  | ok all =>
    rw [hall] at h
    change readTokens all = .ok forms at h
    rcases significantTokens_of_append hs hall with hun | ⟨ts, us, hts, rfl⟩
    · rw [hun]
      exact .inr (.inl rfl)
    · rw [hts]
      rcases readTokens_of_append h with hok | herr
      · exact .inl hok
      · exact .inr (.inr herr)

end

/-! ## §5. Prefixes that wait for their datum -/

namespace Reader

/-- Prefixes are put on the stack, the last one innermost. -/
theorem readFrom_prefixes (r : Reader) (hr : r.Awaiting) (ws : List Wrapper) :
    r.readFrom (ws.map Wrapper.token) =
      .ok ⟨r.done, (ws.map Pending.wrapper).reverse ++ r.stack⟩ := by
  induction ws generalizing r with
  | nil => rfl
  | cons w ws ih =>
    have hstep : Step r w.token (r.push (.wrapper w)) := .wrapper w hr rfl
    have hnext : (r.push (.wrapper w)).Awaiting := by
      intro seen last rest hst
      exact absurd hst (by simp [push])
    rw [List.map_cons, readFrom_cons hstep, ih _ hnext]
    simp [push]

/-- A datum that was given to a reader has gone through all prefixes. -/
theorem supply_stack_ne (done : List Value) (v : Value) (stack : List Pending) (w : Wrapper)
    (rest : List Pending) : (supply done v stack).stack ≠ .wrapper w :: rest := by
  induction stack generalizing v with
  | nil => simp [supply]
  | cons p ps ih =>
    cases p with
    | wrapper u => exact ih (u.wrap v)
    | list seen => simp [supply]
    | tail seen => simp [supply]
    | close seen tail => simp [supply]

/-- Only the token of a prefix leaves that prefix innermost. -/
theorem Step.of_wrapper {r s : Reader} {t : Token} (ht : t.isComment = false) (h : Step r t s)
    {w : Wrapper} {rest : List Pending} (hs : s.stack = .wrapper w :: rest) :
    t = w.token ∧ r = ⟨s.done, rest⟩ := by
  cases h with
  | comment body => cases ht
  | openList hr => exact absurd hs (by simp [push])
  | wrapper u hr hu =>
    obtain ⟨done, stack⟩ := r
    simp only [push, List.cons.injEq, Pending.wrapper.injEq] at hs
    obtain ⟨rfl, rfl⟩ := hs
    exact ⟨hu, rfl⟩
  | datum hr hv => exact absurd hs (supply_stack_ne _ _ _ w rest)
  | dot hst hne => exact absurd hs (by simp)
  | closeList hst => exact absurd hs (supply_stack_ne _ _ _ w rest)
  | closeTail hst => exact absurd hs (supply_stack_ne _ _ _ w rest)

/-- If prefixes are all that has begun, the last tokens were theirs. -/
theorem readFrom_wrappers {ts : List Token} (hts : ∀ t ∈ ts, t.isComment = false)
    {done : List Value} {ws : List Wrapper}
    (h : initial.readFrom ts = .ok ⟨done, ws.map Pending.wrapper⟩) :
    ∃ us, ts = us ++ ws.reverse.map Wrapper.token ∧ initial.readFrom us = .ok ⟨done, []⟩ := by
  induction ws generalizing ts with
  | nil => exact ⟨ts, by simp, h⟩
  | cons w ws ih =>
    rcases List.eq_nil_or_concat ts with rfl | ⟨us, t, rfl⟩
    · cases h
    · rw [List.concat_eq_append] at h hts ⊢
      obtain ⟨r, hr, hlast⟩ := readFrom_append_eq_ok_iff.1 h
      have hstep := readFrom_singleton.1 hlast
      obtain ⟨rfl, rfl⟩ := hstep.of_wrapper (hts t (by simp)) rfl
      obtain ⟨vs, rfl, hvs⟩ := ih (fun t ht => hts t (by simp [ht])) hr
      exact ⟨vs, by simp, hvs⟩

theorem eq_wrappers_of_not_isList {stack : List Pending}
    (h : stack.any Pending.isList = false) : ∃ ws : List Wrapper, stack = ws.map Pending.wrapper := by
  induction stack with
  | nil => exact ⟨[], rfl⟩
  | cons p rest ih =>
    rw [List.any_cons, Bool.or_eq_false_iff] at h
    obtain ⟨ws, rfl⟩ := ih h.2
    cases p with
    | wrapper w => exact ⟨w :: ws, rfl⟩
    | list seen => cases h.1
    | tail seen => cases h.1
    | close seen tail => cases h.1

end Reader

/-- There is nothing to read exactly if the tokens end, outside of all lists, with prefixes. -/
theorem readTokens_eq_nothingToRead_iff {ts : List Token} (hts : ∀ t ∈ ts, t.isComment = false) :
    readTokens ts = .error .nothingToRead ↔
      ∃ us ws fs, ws ≠ [] ∧ ts = us ++ ws.map Wrapper.token ∧ readTokens us = .ok fs := by
  constructor
  · intro h
    rw [readTokens_eq] at h
    cases hr : Reader.initial.readFrom ts with
    | error e =>
      rw [hr] at h
      cases h
      exact absurd (Reader.blamesToken_of_readFrom hr) (by simp [ReadError.blamesToken])
    | ok r =>
      rw [hr] at h
      change r.finish = _ at h
      obtain ⟨done, stack⟩ := r
      have hstack : stack ≠ [] ∧ stack.any Pending.isList = false := by
        unfold Reader.finish Reader.endError at h
        cases stack with
        | nil => cases h
        | cons p rest =>
          refine ⟨by simp, ?_⟩
          by_cases hlist : (p :: rest).any Pending.isList = true
          · simp only [hlist] at h
            cases h
          · exact Bool.not_eq_true _ ▸ hlist
      -- with no list begun, what is pending are prefixes, and the tokens end with them
      obtain ⟨ws, rfl⟩ := Reader.eq_wrappers_of_not_isList hstack.2
      obtain ⟨us, hus, hread⟩ := Reader.readFrom_wrappers hts hr
      refine ⟨us, ws.reverse, done.reverse, ?_, hus, ?_⟩
      · simpa using hstack.1
      · rw [readTokens_eq, hread]
        rfl
  · rintro ⟨us, ws, fs, hne, rfl, hread⟩
    rw [readTokens_append hread, readTokens_eq, Reader.readFrom_prefixes Reader.initial Reader.initial_awaiting]
    have hany : ((ws.map Pending.wrapper).reverse ++ Reader.initial.stack).any Pending.isList = false := by
      simp [Reader.initial, Pending.isList]
    show Except.map _ (Reader.finish ⟨[], _⟩) = _
    unfold Reader.finish Reader.endError
    simp only [hany]
    cases ws with
    | nil => exact absurd rfl hne
    | cons w ws => simp [Reader.initial, Except.map]

/-- Whether a text ends, outside of all lists, with prefixes that wait for their datum. -/
def EndsWithPrefix (s : String) : Prop :=
  ∃ ts ws fs, ws ≠ [] ∧ significantTokens s = .ok (ts ++ ws.map Wrapper.token) ∧
    readTokens ts = .ok fs

/-- There is nothing to read exactly in a text that ends with a prefix. -/
theorem readData_eq_nothingToRead_iff (s : String) :
    readData s = .error .nothingToRead ↔ EndsWithPrefix s := by
  unfold EndsWithPrefix
  rw [readData_eq]
  cases hts : significantTokens s with
  | error e =>
    rw [significantTokens_eq] at hts
    split at hts
    · cases hts
    · cases hts
      refine iff_of_false (fun h => by cases h) ?_
      rintro ⟨_, _, _, _, h, _⟩
      cases h
  | ok ts =>
    have hcomment := isComment_of_significantTokens hts
    show readTokens ts = .error .nothingToRead ↔ _
    rw [readTokens_eq_nothingToRead_iff hcomment]
    constructor
    · rintro ⟨us, ws, fs, hws, rfl, hread⟩
      exact ⟨us, ws, fs, hws, rfl, hread⟩
    · rintro ⟨us, ws, fs, hws, heq, hread⟩
      exact ⟨us, ws, fs, hws, Except.ok.inj heq, hread⟩

end TinyLisp
