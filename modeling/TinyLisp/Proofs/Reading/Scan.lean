import TinyLisp.Token

/-!
# Scanning in parts

`Mode.run` scans characters from any mode and says what it completed and where it ended; so a
text may be scanned part by part (`Mode.run_append`). Between tokens each kind of token has a law
of its own: what the scanner makes of it and of what follows it.
-/

namespace TinyLisp.Token

/-! ## §1. Runs of the scanner -/

namespace Mode

/-- What was completed before stands before what is completed later. -/
def prepend (ts : List Token) (q : List Token × Mode) : List Token × Mode :=
  (ts ++ q.1, q.2)

/-- The tokens that some characters complete, and the mode after them. -/
def run (m : Mode) : List Char → Except ScanError (List Token × Mode)
  | [] => .ok ([], m)
  | c :: cs =>
    match m.feed c with
    | .error e => .error e
    | .ok r => (run r.2 cs).map (prepend r.1)

/-- The tokens of characters up to the end of the text. -/
def tokens (m : Mode) (cs : List Char) : Except ScanError (List Token) :=
  match m.run cs with
  | .error e => .error e
  | .ok r => r.2.finish.map (r.1 ++ ·)

theorem run_cons {m : Mode} {c : Char} {r : List Token × Mode} (h : m.feed c = .ok r)
    (cs : List Char) : m.run (c :: cs) = (r.2.run cs).map (prepend r.1) := by
  rw [run, h]

theorem run_cons_error {m : Mode} {c : Char} {e : ScanError} (h : m.feed c = .error e)
    (cs : List Char) : m.run (c :: cs) = .error e := by
  rw [run, h]

theorem map_prepend (ts us : List Token) (x : Except ScanError (List Token × Mode)) :
    (x.map (prepend us)).map (prepend ts) = x.map (prepend (ts ++ us)) := by
  cases x with
  | error e => rfl
  | ok q => simp [Except.map, prepend]

/-- Two runs, one after the other. -/
theorem run_append {m m' : Mode} {cs : List Char} {ts : List Token}
    (h : m.run cs = .ok (ts, m')) (ds : List Char) :
    m.run (cs ++ ds) = (m'.run ds).map (prepend ts) := by
  induction cs generalizing m ts with
  | nil =>
    cases h
    rw [List.nil_append]
    cases m'.run ds with
    | error e => rfl
    | ok q => rfl
  | cons c cs ih =>
    cases hf : m.feed c with
    | error e =>
      rw [run_cons_error hf] at h
      cases h
    | ok r =>
      rw [run_cons hf] at h
      rw [List.cons_append, run_cons hf]
      cases hr : r.2.run cs with
      | error e =>
        rw [hr] at h
        cases h
      | ok q =>
        rw [hr] at h
        cases h
        rw [ih hr, map_prepend]

/-- A run that fails on the first part fails on the whole. -/
theorem run_append_error {m : Mode} {cs : List Char} {e : ScanError} (h : m.run cs = .error e)
    (ds : List Char) : m.run (cs ++ ds) = .error e := by
  induction cs generalizing m with
  | nil => cases h
  | cons c cs ih =>
    cases hf : m.feed c with
    | error e' =>
      rw [run_cons_error hf] at h
      cases h
      rw [List.cons_append, run_cons_error hf]
    | ok r =>
      rw [run_cons hf] at h
      rw [List.cons_append, run_cons hf]
      cases hr : r.2.run cs with
      | error e' =>
        rw [hr] at h
        cases h
        rw [ih hr]
        rfl
      | ok q =>
        rw [hr] at h
        cases h

/-- The tokens of a text whose first part has been scanned. -/
theorem tokens_append {m m' : Mode} {cs : List Char} {ts : List Token}
    (h : m.run cs = .ok (ts, m')) (ds : List Char) :
    m.tokens (cs ++ ds) = (m'.tokens ds).map (ts ++ ·) := by
  unfold tokens
  rw [run_append h]
  cases m'.run ds with
  | error e => rfl
  | ok q =>
    show (q.2.finish.map _) = (q.2.finish.map _).map _
    cases q.2.finish with
    | error e => rfl
    | ok us => simp [Except.map, prepend]

end Mode

/-- The scanner's fold is a run from between tokens. -/
theorem scanFrom_eq_run (s : Scanner) (cs : List Char) :
    s.scanFrom cs = (s.mode.run cs).map fun r => ⟨r.1.reverse ++ s.done, r.2⟩ := by
  induction cs generalizing s with
  | nil => rfl
  | cons c cs ih =>
    unfold Scanner.scanFrom
    rw [List.foldlM_cons]
    unfold Scanner.feed
    cases hf : s.mode.feed c with
    | error e =>
      rw [Mode.run_cons_error hf]
      rfl
    | ok r =>
      rw [Mode.run_cons hf]
      refine (ih ⟨r.1.reverse ++ s.done, r.2⟩).trans ?_
      show Except.map _ (r.2.run cs) = Except.map _ (Except.map _ (r.2.run cs))
      cases r.2.run cs with
      | error e => rfl
      | ok q => simp [Except.map, Mode.prepend]

/-- The tokens of a text, by runs. -/
theorem scan_eq (cs : List Char) : scan cs = Mode.ground.tokens cs := by
  unfold scan Mode.tokens
  rw [scanFrom_eq_run]
  show Except.bind (Except.map _ (Mode.ground.run cs)) _ = _
  cases Mode.ground.run cs with
  | error e => rfl
  | ok r =>
    show r.2.finish.map ((r.1.reverse ++ []).reverse ++ ·) = r.2.finish.map (r.1 ++ ·)
    rw [List.append_nil, List.reverse_reverse]

end TinyLisp.Token
