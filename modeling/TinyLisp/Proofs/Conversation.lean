import TinyLisp.Proofs.Reading.Parts
import TinyLisp.Dialogue
import TinyLisp.Proofs.EvalLaws

/-!
# Line by line, or as a whole

A text may be run as a whole, or its lines may be given one by one to a dialogue. If the whole
text reads and all its forms evaluate, the dialogue evaluates the same forms, reports no failure
and ends in the same state; but only as long as no line of the text ends, outside of all lists,
between a prefix and its datum (`Dialogue.agrees_iff`). There a list would ask for more, but the
dialogue takes the lines for complete and reports that there is nothing to read.
-/

namespace TinyLisp

/-! ## §1. Lines -/

/-- Each line with a line break behind it. -/
def unlines : List String → String
  | [] => ""
  | line :: lines => line ++ "\n" ++ unlines lines

/-- The lines of some characters, with those seen since the last line break, in reverse. Behind
the last line break there is a line only if anything stands there. -/
def splitLines (seen : List Char) : List Char → List String
  | [] => if seen = [] then [] else [String.ofList seen.reverse]
  | c :: cs =>
    if c = '\n' then String.ofList seen.reverse :: splitLines [] cs
    else splitLines (c :: seen) cs

/-- The lines of a text. -/
def linesOf (text : String) : List String :=
  splitLines [] text.toList

theorem toList_unlines_cons (line : String) (lines : List String) :
    (unlines (line :: lines)).toList = line.toList ++ '\n' :: (unlines lines).toList := by
  show (line ++ "\n" ++ unlines lines).toList = _
  rw [String.toList_append, String.toList_append, List.append_assoc]
  rfl

theorem endsLine_append (s line : String) : EndsLine (s ++ line ++ "\n") :=
  .inr ⟨s.toList ++ line.toList, by rw [String.toList_append, String.toList_append]; rfl⟩

/-- Lines make up their text again, perhaps with a line break more at its end. -/
theorem toList_unlines_splitLines (seen cs : List Char) :
    (unlines (splitLines seen cs)).toList = seen.reverse ++ cs ∨
      (unlines (splitLines seen cs)).toList = seen.reverse ++ cs ++ ['\n'] := by
  induction cs generalizing seen with
  | nil =>
    unfold splitLines
    split
    · next h =>
      subst h
      exact .inl rfl
    · right
      rw [toList_unlines_cons, String.toList_ofList, List.append_nil]
      rfl
  | cons c cs ih =>
    unfold splitLines
    split
    · next h =>
      subst h
      rw [toList_unlines_cons, String.toList_ofList]
      rcases ih [] with h | h
      · exact .inl (by rw [h]; rfl)
      · exact .inr (by rw [h]; simp)
    · rcases ih (c :: seen) with h | h
      · exact .inl (by rw [h]; simp)
      · exact .inr (by rw [h]; simp)

theorem unlines_linesOf (text : String) :
    unlines (linesOf text) = text ∨ unlines (linesOf text) = text ++ "\n" := by
  rcases toList_unlines_splitLines [] text.toList with h | h
  · exact .inl (String.toList_inj.1 h)
  · refine .inr (String.toList_inj.1 ?_)
    rw [String.toList_append]
    exact h

/-- Where the text may end, a line break completes the same tokens. -/
theorem Token.Mode.feed_newline {m : Mode} {ts : List Token} (h : m.finish = .ok ts) :
    m.feed '\n' = .ok (ts, .ground) := by
  cases m <;> cases h <;> rfl

/-- A line break at the end changes nothing of what a text reads to. -/
theorem readData_newline {text : String} {forms : List Value} (h : readData text = .ok forms) :
    readData (text ++ "\n") = .ok forms := by
  have htokens : ∀ ts, Token.Mode.ground.tokens text.toList = .ok ts →
      Token.Mode.ground.tokens (text ++ "\n").toList = .ok ts := by
    intro ts hts
    unfold Token.Mode.tokens at hts
    cases hr : Token.Mode.ground.run text.toList with
    | error e =>
      rw [hr] at hts
      cases hts
    | ok q =>
      obtain ⟨us, m⟩ := q
      rw [hr] at hts
      change m.finish.map _ = _ at hts
      cases hf : m.finish with
      | error e =>
        rw [hf] at hts
        cases hts
      | ok vs =>
        rw [hf] at hts
        cases hts
        have hbreak : m.tokens ['\n'] = .ok vs := by
          unfold Token.Mode.tokens
          rw [Token.Mode.run_cons (Token.Mode.feed_newline hf)]
          show Except.ok (vs ++ [] ++ []) = _
          rw [List.append_nil, List.append_nil]
        rw [String.toList_append]
        show Token.Mode.ground.tokens (text.toList ++ ['\n']) = _
        rw [Token.Mode.tokens_append hr, hbreak]
        rfl
  rw [readData_eq, significantTokens_eq] at h ⊢
  cases hts : Token.Mode.ground.tokens text.toList with
  | error e =>
    rw [hts] at h
    cases h
  | ok ts =>
    rw [hts] at h
    rw [htokens ts hts]
    exact h

theorem readData_unlines {text : String} {forms : List Value} (h : readData text = .ok forms) :
    readData (unlines (linesOf text)) = .ok forms := by
  rcases unlines_linesOf text with heq | heq
  · rw [heq]
    exact h
  · rw [heq]
    exact readData_newline h

/-! ## §2. Forms in two parts -/

theorem Engine.evalForms_append (en : Engine) (scope : Scope) (last : Value)
    (xs ys : List Value) :
    en.evalForms scope last (xs ++ ys) =
      en.evalForms scope last xs >>= fun v => en.evalForms scope v ys := by
  induction xs generalizing last with
  | nil => rfl
  | cons x xs ih =>
    rw [List.cons_append, Engine.evalForms, Engine.evalForms]
    simp only [bind_assoc, ih]

/-- What the last value was before matters for the value of no form at all only. -/
theorem Engine.evalForms_last {en : Engine} {scope : Scope} {last : Value} {forms : List Value}
    {w w' : World} {v : Value} (h : en.evalForms scope last forms w = .ok v w') (last' : Value) :
    ∃ v', en.evalForms scope last' forms w = .ok v' w' := by
  cases forms with
  | nil =>
    cases h
    exact ⟨last', rfl⟩
  | cons form forms => exact ⟨v, h⟩

namespace Session

variable {s s' : Session} {v : Value}

theorem run_eq_ok_iff {x : Eval Value} :
    s.run x = (.ok v, s') ↔ ∃ w, x s.world = .ok v w ∧ s' = { s with world := w } := by
  unfold run
  constructor
  · intro h
    split at h
    · next v' w hw =>
      cases h
      exact ⟨w, hw, rfl⟩
    · cases h
    · cases h
  · rintro ⟨w, hw, rfl⟩
    rw [hw]

/-- Data that evaluate as a whole evaluate in two parts. -/
theorem evalData_append {fs gs : List Value} (h : s.evalData (fs ++ gs) = (.ok v, s')) :
    ∃ u t v', s.evalData fs = (.ok u, t) ∧ t.evalData gs = (.ok v', s') := by
  obtain ⟨w', hw', rfl⟩ := run_eq_ok_iff.1 h
  rw [Engine.evalForms_append] at hw'
  cases hw : s.engine.evalForms rootScope .nil fs s.world with
  | error e w =>
    rw [Eval.bind_of_error hw] at hw'
    cases hw'
  | ok u w =>
    rw [Eval.bind_of_ok hw] at hw'
    obtain ⟨v', hv'⟩ := Engine.evalForms_last hw' .nil
    refine ⟨u, { s with world := w }, v', run_eq_ok_iff.2 ⟨w, hw, rfl⟩, ?_⟩
    exact run_eq_ok_iff.2 ⟨w', hv', rfl⟩

theorem evalText_of_read {source : String} {forms : List Value}
    (h : readData source = .ok forms) : s.evalText source = s.evalData forms := by
  unfold evalText
  rw [h]

end Session

/-! ## §3. What a line leads to -/

/-- The failures that a reply reports. -/
def Reply.reports : Reply → List String
  | .failure message => [message]
  | _ => []

namespace Dialogue

variable {d : Dialogue} {line : String} {lines : List String}

/-- The forms that a dialogue evaluates. -/
def evaluated (d : Dialogue) : List String → List Value
  | [] => []
  | line :: lines =>
    ((readData (d.pending ++ line ++ "\n")).toOption.getD []) ++ (d.feed line).2.evaluated lines

theorem feed_of_needsMore (h : needsMore (d.pending ++ line ++ "\n") = true) :
    d.feed line = (.more, { d with pending := d.pending ++ line ++ "\n" }) := by
  unfold feed
  simp only [h, if_true]

theorem feed_of_read {fs : List Value} {u : Value} {t : Session}
    (h : readData (d.pending ++ line ++ "\n") = .ok fs)
    (he : d.session.evalData fs = (.ok u, t)) : d.feed line = (.value u.text, ⟨t, ""⟩) := by
  have hneeds : needsMore (d.pending ++ line ++ "\n") = false := by
    unfold needsMore
    rw [h]
  unfold feed
  simp only [hneeds, Session.evalText_of_read h, he]
  rfl

theorem feed_of_nothingToRead (h : readData (d.pending ++ line ++ "\n") = .error .nothingToRead) :
    d.feed line =
      (.failure (report (SessionError.read .nothingToRead).message), ⟨d.session, ""⟩) := by
  have hneeds : needsMore (d.pending ++ line ++ "\n") = false := by
    unfold needsMore
    rw [h]
    rfl
  unfold feed Session.evalText
  simp only [hneeds, h]
  rfl

/-- A dialogue goes on after a line from where the line led to. -/
theorem converse_of_feed {reply : Reply} {d' : Dialogue} (h : d.feed line = (reply, d'))
    (lines : List String) :
    (d.converse (line :: lines)).1.reports = reply.reports ++ (d'.converse lines).1.reports ∧
      (d.converse (line :: lines)).2 = (d'.converse lines).2 := by
  rw [converse, h]
  cases reply with
  | more => exact ⟨rfl, rfl⟩
  | value text => exact ⟨rfl, rfl⟩
  | failure message => exact ⟨rfl, rfl⟩

/-! ## §4. A dialogue and the whole text -/

/-- Whether nothing is pending, or only lines that ask for more. -/
structure Waiting (d : Dialogue) : Prop where
  endsLine : EndsLine d.pending
  pending : d.pending = "" ∨ needsMore d.pending = true

theorem Waiting.start (s : Session) : (Dialogue.start s).Waiting :=
  ⟨.inl rfl, .inl rfl⟩

theorem Waiting.pending_eq (h : d.Waiting) {forms : List Value}
    (hread : readData d.pending = .ok forms) : d.pending = "" := by
  rcases h.pending with hnil | hmore
  · exact hnil
  · unfold Dialogue.needsMore at hmore
    rw [hread] at hmore
    cases hmore

/-- What a dialogue comes to when all lines of a text have been completed. -/
structure Completes (d : Dialogue) (lines : List String) (forms : List Value) (s : Session) :
    Prop where
  reports : (d.converse lines).1.reports = []
  evaluated : d.evaluated lines = forms
  ending : (d.converse lines).2 = ⟨s, ""⟩

/-- A line that reports no failure leaves the rest to be completed. -/
theorem completes_cons {reply : Reply} {d' : Dialogue} (h : d.feed line = (reply, d'))
    (hr : reply.reports = []) {fs gs : List Value}
    (hfs : (readData (d.pending ++ line ++ "\n")).toOption.getD [] = fs) {s : Session} :
    d.Completes (line :: lines) (fs ++ gs) s ↔ d'.Completes lines gs s := by
  obtain ⟨hreports, hending⟩ := converse_of_feed h lines
  rw [hr, List.nil_append] at hreports
  have hevaluated : d.evaluated (line :: lines) = fs ++ d'.evaluated lines := by
    rw [evaluated, h, hfs]
  constructor
  · intro hc
    refine ⟨hreports ▸ hc.reports, ?_, hending ▸ hc.ending⟩
    exact List.append_cancel_left (hevaluated ▸ hc.evaluated)
  · intro hc
    exact ⟨hreports ▸ hc.reports, by rw [hevaluated, hc.evaluated], hending ▸ hc.ending⟩

/-- No beginning of the lines, behind what is pending, leaves a prefix waiting. -/
def NeverDangles (pending : String) (lines : List String) : Prop :=
  ∀ k, readData (pending ++ unlines (lines.take k)) ≠ .error .nothingToRead

theorem append_unlines_cons (pending line : String) (lines : List String) :
    pending ++ unlines (line :: lines) = pending ++ line ++ "\n" ++ unlines lines := by
  rw [unlines, String.append_assoc, String.append_assoc, String.append_assoc]

theorem append_unlines_nil (pending : String) : pending ++ unlines [] = pending := by
  rw [unlines, String.append_empty]

/-- What waits for more leaves no prefix waiting. -/
theorem Waiting.readData_ne (hd : d.Waiting) : readData d.pending ≠ .error .nothingToRead := by
  intro hread
  rcases hd.pending with hnil | hmore
  · rw [hnil] at hread
    cases hread
  · unfold Dialogue.needsMore at hmore
    rw [hread] at hmore
    cases hmore

theorem Waiting.neverDangles_cons (hd : d.Waiting) :
    NeverDangles d.pending (line :: lines) ↔
      NeverDangles (d.pending ++ line ++ "\n") lines := by
  constructor
  · intro h k
    rw [← append_unlines_cons]
    exact h (k + 1)
  · intro h k
    cases k with
    | zero =>
      rw [List.take_zero, append_unlines_nil]
      exact hd.readData_ne
    | succ k =>
      rw [List.take_succ_cons, append_unlines_cons]
      exact h k

/-- What has been read leaves no prefix waiting. -/
theorem neverDangles_of_read {pending : String} (hp : EndsLine pending) {fs : List Value}
    (h : readData pending = .ok fs) : NeverDangles pending lines ↔ NeverDangles "" lines := by
  unfold NeverDangles
  refine forall_congr' fun k => ?_
  rw [readData_append hp h, String.empty_append]
  cases readData (unlines (lines.take k)) with
  | error e => exact Iff.rfl
  | ok gs => simp [Except.map]

/-- Given the rest of a text that reads and evaluates, a dialogue completes it exactly if no
beginning of it leaves a prefix waiting. The induction is on the lines; what is pending stays
empty or asks for more. -/
theorem Waiting.completes_iff (hd : d.Waiting) {forms : List Value}
    (hread : readData (d.pending ++ unlines lines) = .ok forms) {v : Value} {s : Session}
    (heval : d.session.evalData forms = (.ok v, s)) :
    d.Completes lines forms s ↔ NeverDangles d.pending lines := by
  induction lines generalizing d forms v with
  | nil =>
    rw [append_unlines_nil] at hread
    have hnil := hd.pending_eq hread
    rw [hnil] at hread
    cases hread
    cases heval
    refine iff_of_true ⟨rfl, rfl, ?_⟩ fun k => ?_
    · obtain ⟨session, pending⟩ := d
      exact congrArg (Dialogue.mk session) hnil
    · rw [List.take_nil, append_unlines_nil]
      exact hd.readData_ne
  | cons line lines ih =>
    have hends := endsLine_append d.pending line
    rw [append_unlines_cons] at hread
    rw [hd.neverDangles_cons]
    -- an open list or string asks for more
    have hmore {e : ReadError} (herr : readData (d.pending ++ line ++ "\n") = .error e)
        (he : e.incomplete = true) :
        d.Completes (line :: lines) forms s ↔
          NeverDangles (d.pending ++ line ++ "\n") lines := by
      have hneeds : Dialogue.needsMore (d.pending ++ line ++ "\n") = true := by
        unfold Dialogue.needsMore
        rw [herr]
        exact he
      have hnext : Waiting ⟨d.session, d.pending ++ line ++ "\n"⟩ := ⟨hends, .inr hneeds⟩
      have hfs : (readData (d.pending ++ line ++ "\n")).toOption.getD [] = [] := by
        rw [herr]
        rfl
      exact (completes_cons (feed_of_needsMore hneeds) rfl hfs).trans (ih hnext hread heval)
    rcases readData_of_append hends hread with ⟨fs, hok⟩ | herr | herr | herr
    · rw [readData_append hends hok] at hread
      cases hgs : readData (unlines lines) with
      | error e =>
        rw [hgs] at hread
        cases hread
      | ok gs =>
        rw [hgs] at hread
        cases hread
        obtain ⟨u, t, v', hfs, hgs'⟩ := Session.evalData_append heval
        have hnext : readData ((Dialogue.start t).pending ++ unlines lines) = .ok gs :=
          (congrArg readData String.empty_append).trans hgs
        have hgot : (readData (d.pending ++ line ++ "\n")).toOption.getD [] = fs := by
          rw [hok]
          rfl
        rw [neverDangles_of_read hends hok, completes_cons (feed_of_read hok hfs) rfl hgot]
        exact ih (Waiting.start t) hnext hgs'
    · exact hmore herr rfl
    · exact hmore herr rfl
    · -- the line is taken for complete, and a failure is reported
      obtain ⟨hreports, -⟩ := converse_of_feed (feed_of_nothingToRead herr) lines
      refine iff_of_false (fun hc => ?_) fun h => ?_
      · have hnone := hc.reports
        rw [hreports] at hnone
        exact absurd hnone (by simp [Reply.reports])
      · have h0 := h 0
        rw [List.take_zero, append_unlines_nil] at h0
        exact h0 herr

/-- Whether a dialogue that is given the lines of a text one by one comes to what the text comes
to as a whole: no failure is reported, the forms of the text are evaluated in their order, and the
session is the one that the text leaves. -/
def Agrees (s : Session) (text : String) (forms : List Value) (s' : Session) : Prop :=
  (Dialogue.start s).Completes (linesOf text) forms s'

/-- If a text reads and evaluates in a session, a dialogue in that session agrees with it exactly
if no line of the text ends, outside of all lists, with a prefix that waits for its datum. -/
theorem agrees_iff (s : Session) {text : String} {forms : List Value}
    (hread : readData text = .ok forms) {v : Value} {s' : Session}
    (heval : s.evalText text = (.ok v, s')) :
    Agrees s text forms s' ↔ ∀ k, ¬ EndsWithPrefix (unlines ((linesOf text).take k)) := by
  rw [Session.evalText_of_read hread] at heval
  have hlines : readData ((Dialogue.start s).pending ++ unlines (linesOf text)) = .ok forms :=
    (congrArg readData String.empty_append).trans (readData_unlines hread)
  unfold Agrees
  rw [(Waiting.start s).completes_iff hlines heval]
  refine forall_congr' fun k => not_congr ?_
  rw [← readData_eq_nothingToRead_iff]
  exact Iff.of_eq (congrArg (readData · = _) String.empty_append)

/-- A line may end between data and inside a string. -/
theorem agrees_inside_string :
    let s : Session := ⟨⟨.default, ⟨[], []⟩⟩, 1, World.initial⟩
    let text := "nil \"a\nb\"\nnil"
    let forms := [.nil, .string "a\nb", .nil]
    readData text = .ok forms ∧ s.evalText text = (.ok .nil, s) ∧
      (Agrees s text forms s ↔ ∀ k, ¬ EndsWithPrefix (unlines ((linesOf text).take k))) := by
  intro s text forms
  have hread : readData "nil \"a\nb\"\nnil" = .ok [.nil, .string "a\nb", .nil] := by rfl
  have heval : s.evalText text = (.ok .nil, s) := (Session.evalText_of_read hread).trans rfl
  exact ⟨hread, heval, agrees_iff s hread heval⟩

end Dialogue

/-! ## §5. A prefix at the end of a line -/

namespace Session

theorem run_settings (s : Session) (x : Eval Value) :
    (s.run x).2.context = s.context ∧ (s.run x).2.depth = s.depth := by
  unfold run
  split <;> exact ⟨rfl, rfl⟩

theorem evalText_settings (s : Session) (source : String) :
    (s.evalText source).2.context = s.context ∧ (s.evalText source).2.depth = s.depth := by
  unfold evalText
  split
  · exact ⟨rfl, rfl⟩
  · exact s.run_settings _

theorem begun_value {p : Outcome × Session} {s : Session} (h : begun p = .ok s) :
    ∃ v, p = (.ok v, s) := by
  obtain ⟨r, t⟩ := p
  cases r with
  | ok v =>
    cases h
    exact ⟨v, rfl⟩
  | error e => cases h

/-- A new session has the settings asked for. -/
theorem start_settings {ctx : Context} {s : Session} (h : start ctx = .ok s) :
    s.context = ctx ∧ s.depth = standardDepth := by
  unfold start startWithin at h
  obtain ⟨v, hv⟩ := begun_value h
  have hsettings := evalText_settings ⟨ctx, standardDepth, primitiveWorld⟩ prelude
  rw [hv] at hsettings
  exact hsettings

/-- Whether the prelude, given by its characters, reads and evaluates. -/
def beginsWith (ctx : Context) (cs : List Char) : Bool :=
  match Token.Mode.ground.tokens cs with
  | .error _ => false
  | .ok ts =>
    match readTokens (seenTokens ts) with
    | .error _ => false
    | .ok forms =>
      match evalData ⟨ctx, standardDepth, primitiveWorld⟩ forms with
      | (.ok _, _) => true
      | (.error _, _) => false

theorem exists_start {ctx : Context} {cs : List Char} (hcs : prelude = String.ofList cs)
    (h : beginsWith ctx cs = true) : ∃ s, start ctx = .ok s := by
  unfold beginsWith at h
  cases hts : Token.Mode.ground.tokens cs with
  | error e =>
    simp only [hts] at h
    cases h
  | ok ts =>
    simp only [hts] at h
    cases hread : readTokens (seenTokens ts) with
    | error e =>
      simp only [hread] at h
      cases h
    | ok forms =>
      simp only [hread] at h
      have hprelude : readData prelude = .ok forms := by
        rw [readData_eq, significantTokens_eq, hcs, String.toList_ofList, hts]
        exact hread
      unfold start startWithin
      rw [evalText_of_read hprelude]
      generalize evalData ⟨ctx, standardDepth, primitiveWorld⟩ forms = p at h ⊢
      obtain ⟨r, s⟩ := p
      cases r with
      | ok v => exact ⟨s, rfl⟩
      | error e => cases h

set_option maxRecDepth 100000 in
/-- There is a session with nothing special asked for. -/
theorem exists_start_default : ∃ s, start ⟨.default, ⟨[], []⟩⟩ = .ok s :=
  exists_start rfl (by decide +kernel)

/-- A quoted symbol evaluates to the symbol and changes nothing. -/
theorem evalData_quote (ctx : Context) (n : Nat) (w : World) (name : String) :
    evalData ⟨ctx, n + 1, w⟩ [.quote (.symbol name)] = (.ok (.symbol name), ⟨ctx, n + 1, w⟩) :=
  rfl

end Session

/-- A dialogue that reports a failure on the first line of a text does not agree with it. -/
theorem Dialogue.not_agrees_of_firstLine {s s' : Session} {text line : String}
    {lines : List String} {forms : List Value} (hlines : linesOf text = line :: lines)
    (hline : readData ("" ++ line ++ "\n") = .error .nothingToRead) :
    ¬ Agrees s text forms s' := by
  intro h
  have hreports := h.reports
  have hfeed : (Dialogue.start s).feed line = _ := feed_of_nothingToRead hline
  rw [hlines, (converse_of_feed hfeed lines).1] at hreports
  exact absurd hreports (by simp [Reply.reports])

/-- A symbol on the line after its quote. As a whole the text evaluates to the symbol, in a new
session; line by line, a failure is reported. -/
theorem Dialogue.disagrees_after_quote :
    ∃ s, Session.start ⟨.default, ⟨[], []⟩⟩ = .ok s ∧
      readData "'\nfoo" = .ok [.quote (.symbol "foo")] ∧
      s.evalText "'\nfoo" = (.ok (.symbol "foo"), s) ∧
      ¬ Agrees s "'\nfoo" [.quote (.symbol "foo")] s := by
  obtain ⟨s, hstart⟩ := Session.exists_start_default
  obtain ⟨ctx, depth, w⟩ := s
  obtain ⟨rfl, rfl⟩ := Session.start_settings hstart
  have hread : readData "'\nfoo" = .ok [.quote (.symbol "foo")] := by rfl
  have hlines : linesOf "'\nfoo" = ["'", "foo"] := by rfl
  refine ⟨_, hstart, hread, ?_, not_agrees_of_firstLine hlines (by rfl)⟩
  rw [Session.evalText_of_read hread]
  exact Session.evalData_quote _ _ w "foo"

end TinyLisp
