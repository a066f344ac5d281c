import TinyLisp.Proofs.Reading.Step
import TinyLisp.Proofs.Reading.Float

/-!
# What reading can yield

The scanner cuts a text into tokens whose runs of plain characters are never empty and hold no
delimiter; the reader puts atoms together with untagged pairs and with wrappers. So the data read
from any text are built by the constructors of `Datum`, and what these preserve holds of all data.
-/

namespace TinyLisp

/-! ## §1. Tokens -/

namespace Token

/-- A run of plain characters: at least one, and no delimiter. -/
structure PlainRun (cs : List Char) : Prop where
  ne_nil : cs ≠ []
  plain : ∀ c ∈ cs, isDelimiter c = false

theorem PlainRun.singleton {c : Char} (h : isDelimiter c = false) : PlainRun [c] :=
  ⟨by simp, by simpa using h⟩

theorem PlainRun.cons {c : Char} {cs : List Char} (h : isDelimiter c = false)
    (hcs : PlainRun cs) : PlainRun (c :: cs) :=
  ⟨by simp, by simpa using ⟨h, hcs.plain⟩⟩

theorem PlainRun.of_all {cs : List Char}
    (h : (!cs.isEmpty && cs.all fun c => !isDelimiter c) = true) : PlainRun cs := by
  rw [Bool.and_eq_true] at h
  refine ⟨by simpa using h.1, ?_⟩
  intro c hc
  have hplain := List.all_eq_true.1 h.2 c hc
  rwa [Bool.not_eq_true'] at hplain

theorem PlainRun.reverse {cs : List Char} (h : PlainRun cs) : PlainRun cs.reverse :=
  ⟨by simpa using h.ne_nil, by simpa using h.plain⟩

/-- A token that a text can contain. -/
def Sound : Token → Prop
  | .plain cs => PlainRun cs
  | _ => True

/-- A mode that a scanner can be in. -/
def Mode.Sound : Mode → Prop
  | .plain seen => PlainRun seen
  | _ => True

/-- What one character completes, with the mode after it, is sound. -/
def SoundStep (r : List Token × Mode) : Prop :=
  (∀ t ∈ r.1, t.Sound) ∧ r.2.Sound

/-- A plain character begins a run. -/
theorem Mode.start_of_plain {c : Char} (h : isDelimiter c = false) :
    Mode.start c = ([], Mode.plain [c]) := by
  simp [isDelimiter] at h
  simp [start, h]

theorem Mode.start_sound (c : Char) : SoundStep (start c) := by
  cases hc : isDelimiter c with
  | false =>
    rw [start_of_plain hc]
    exact ⟨by simp, .singleton hc⟩
  | true =>
    simp [isDelimiter] at hc
    unfold start SoundStep
    grind [Token.Sound, Mode.Sound]

theorem Sound.after {t : Token} (ht : t.Sound) {r : List Token × Mode} (h : SoundStep r) :
    SoundStep (Mode.after t r) := by
  refine ⟨?_, h.2⟩
  intro u hu
  rcases List.mem_cons.1 hu with rfl | hu
  · exact ht
  · exact h.1 u hu

theorem Mode.feed_sound {m : Mode} (hm : m.Sound) {c : Char} {r : List Token × Mode}
    (h : m.feed c = .ok r) : SoundStep r := by
  -- by what the scanner is in the middle of
  cases m with
  | ground =>
    cases h
    exact start_sound c
  | comma =>
    cases h
    split
    · exact ⟨by simp [Token.Sound], trivial⟩
    · have hcomma : Token.unquote.Sound := trivial
      exact hcomma.after (start_sound c)
  | plain seen =>
    cases h
    split
    · have hrun : (Token.plain seen.reverse).Sound := PlainRun.reverse hm
      exact hrun.after (start_sound c)
    · next hc => exact ⟨by simp, .cons (by simpa using hc) hm⟩
  | text seen =>
    cases h
    split
    · exact ⟨by simp [Token.Sound], trivial⟩
    · split <;> exact ⟨by simp, trivial⟩
  | escape seen =>
    simp only [feed] at h
    split at h
    · cases h
    · cases h
      exact ⟨by simp, trivial⟩
  | comment seen =>
    cases h
    split
    · exact ⟨by simp [Token.Sound], trivial⟩
    · exact ⟨by simp, trivial⟩

theorem Mode.finish_sound {m : Mode} (hm : m.Sound) {ts : List Token} (h : m.finish = .ok ts) :
    ∀ t ∈ ts, t.Sound := by
  cases m <;> cases h
  · simp
  · simp [Token.Sound]
  · intro t ht
    rw [List.mem_singleton.1 ht]
    exact PlainRun.reverse hm
  · simp [Token.Sound]

/-- A scanner that has met sound tokens only. -/
structure Scanner.Sound (s : Scanner) : Prop where
  done : ∀ t ∈ s.done, t.Sound
  mode : s.mode.Sound

theorem Scanner.initial_sound : Scanner.initial.Sound :=
  ⟨by simp [Scanner.initial], trivial⟩

theorem Scanner.Sound.feed {s t : Scanner} (hs : s.Sound) {c : Char} (h : s.feed c = .ok t) :
    t.Sound := by
  unfold Scanner.feed at h
  cases hr : s.mode.feed c with
  | error e =>
    rw [hr] at h
    cases h
  | ok r =>
    rw [hr] at h
    cases h
    have hstep := Mode.feed_sound hs.mode hr
    refine ⟨?_, hstep.2⟩
    intro t ht
    rcases List.mem_append.1 ht with ht | ht
    · exact hstep.1 t (by simpa using ht)
    · exact hs.done t ht

theorem Scanner.Sound.scanFrom {s t : Scanner} (hs : s.Sound) {cs : List Char}
    (h : s.scanFrom cs = .ok t) : t.Sound := by
  induction cs generalizing s with
  | nil =>
    cases h
    exact hs
  | cons c cs ih =>
    unfold Scanner.scanFrom at h
    rw [List.foldlM_cons] at h
    cases hf : s.feed c with
    | error e =>
      rw [hf] at h
      cases h
    | ok u =>
      rw [hf] at h
      exact ih (hs.feed hf) h

/-- The tokens of a text are sound. -/
theorem significant_sound {cs : List Char} {ts : List Token} (h : significant cs = .ok ts) :
    ∀ t ∈ ts, t.Sound := by
  unfold significant scan at h
  cases hs : Scanner.initial.scanFrom cs with
  | error e =>
    rw [hs] at h
    cases h
  | ok s =>
    have hsound := Scanner.initial_sound.scanFrom hs
    rw [hs] at h
    change (s.finish.map _) = _ at h
    unfold Scanner.finish at h
    cases hf : s.mode.finish with
    | error e =>
      rw [hf] at h
      cases h
    | ok last =>
      rw [hf] at h
      cases h
      intro t ht
      rcases List.mem_append.1 (List.mem_filter.1 ht).1 with ht | ht
      · exact hsound.done t (by simpa using ht)
      · exact Mode.finish_sound hsound.mode hf t ht

end Token

/-! ## §2. Data -/

/-- The data that a text can contain. -/
inductive Datum : Value → Prop
  | nil : Datum .nil
  | bool (b : Bool) : Datum (.bool b)
  | int (n : Int64) : Datum (.int n)
  | float {x : Float} : x.isNaN = false → Datum (.float x)
  | symbol {name : String} : Token.PlainRun name.toList →
      atomValue name.toList = .ok (.symbol name) → Datum (.symbol name)
  | string (text : String) : Datum (.string text)
  | pair {a d : Value} : Datum a → Datum d → Datum (.pair none a d)
  | wrapper (w : Wrapper) {v : Value} : Datum v → Datum (w.wrap v)

namespace Datum

theorem of_atom {cs : List Char} (hcs : Token.PlainRun cs) {v : Value}
    (h : atomValue cs = .ok v) : Datum v := by
  have hatom := h
  unfold atomValue at h
  -- the constants first, then numbers; a symbol is what is left
  split at h
  · cases h
    exact .bool true
  split at h
  · cases h
    exact .bool false
  split at h
  · cases h
    exact .nil
  split at h
  · cases h
  split at h
  · split at h
    · cases h
      exact .int _
    · next x hx =>
      cases h
      exact .float (Decimal.Literal.isNaN_of_read? hx)
    · cases h
  · cases h
    refine .symbol ?_ ?_
    · rw [String.toList_ofList]
      exact hcs
    · rw [String.toList_ofList]
      exact hatom

theorem plainRun_of_symbol {name : String} (h : Datum (.symbol name)) :
    Token.PlainRun name.toList := by
  generalize hv : Value.symbol name = v at h
  cases h with
  | symbol hrun hatom =>
    cases hv
    exact hrun
  | wrapper w hu => cases w <;> cases hv
  | _ => cases hv

theorem chain {tail : Value} (ht : Datum tail) {vs : List Value} (h : ∀ v ∈ vs, Datum v) :
    Datum (Value.chain tail vs) := by
  induction vs with
  | nil => exact ht
  | cons v vs ih =>
    have hv := h v (by simp)
    exact .pair hv (ih fun u hu => h u (by simp [hu]))

end Datum

/-- A construct that has begun with data. -/
def Pending.Sound : Pending → Prop
  | .list seen => ∀ v ∈ seen, Datum v
  | .tail seen => ∀ v ∈ seen, Datum v
  | .close seen last => (∀ v ∈ seen, Datum v) ∧ Datum last
  | .wrapper _ => True

namespace Reader

/-- A reader that has put together data only. -/
structure Sound (r : Reader) : Prop where
  done : ∀ v ∈ r.done, Datum v
  stack : ∀ p ∈ r.stack, p.Sound

theorem initial_sound : initial.Sound :=
  ⟨by simp [initial], by simp [initial]⟩

theorem supply_sound {done : List Value} (hd : ∀ v ∈ done, Datum v) {v : Value} (hv : Datum v)
    {stack : List Pending} (hs : ∀ p ∈ stack, p.Sound) : (supply done v stack).Sound := by
  -- on what is pending: a wrapper gives a datum to what it stands in, the rest keeps it
  induction stack generalizing v with
  | nil =>
    refine ⟨?_, by simp [supply]⟩
    simpa [supply] using ⟨hv, hd⟩
  | cons p rest ih =>
    have hp := hs p (by simp)
    have hrest : ∀ q ∈ rest, q.Sound := fun q hq => hs q (by simp [hq])
    cases p with
    | wrapper w => exact ih (.wrapper w hv) hrest
    | list seen =>
      refine ⟨hd, ?_⟩
      simpa [supply, Pending.Sound] using ⟨⟨hv, hp⟩, hrest⟩
    | tail seen =>
      refine ⟨hd, ?_⟩
      simpa [supply, Pending.Sound] using ⟨⟨hp, hv⟩, hrest⟩
    | close seen tail =>
      refine ⟨hd, ?_⟩
      simpa [supply, Pending.Sound] using ⟨⟨hp.1, hv⟩, hrest⟩

namespace Sound

variable {r s : Reader}

theorem give (h : r.Sound) {v : Value} (hv : Datum v) : (r.give v).Sound :=
  supply_sound h.done hv h.stack

theorem push (h : r.Sound) {p : Pending} (hp : p.Sound) : (r.push p).Sound :=
  ⟨h.done, by simpa [Reader.push] using ⟨hp, h.stack⟩⟩

theorem of_stack {p : Pending} {rest : List Pending} (h : r.Sound) (hr : r.stack = p :: rest) :
    p.Sound ∧ ∀ q ∈ rest, q.Sound := by
  have hs := h.stack
  rw [hr] at hs
  simpa using hs

/-- Elements of a list, in reverse, with a tail behind them are a datum. -/
theorem closed {seen : List Value} (hs : ∀ v ∈ seen, Datum v) {tail : Value} (ht : Datum tail) :
    Datum (Value.chain tail seen.reverse) :=
  ht.chain (by simpa using hs)

theorem of_spells {t : Token} (ht : t.Sound) {v : Value} (hv : t.Spells v) : Datum v := by
  cases hv with
  | atom hv => exact .of_atom ht hv
  | string hcs => exact .string _

theorem step (h : r.Sound) {t : Token} (ht : t.Sound) (hr : Step r t s) : s.Sound := by
  cases hr with
  | comment body => exact h
  | openList hawait =>
    refine h.push ?_
    intro v hv
    exact absurd hv (by simp)
  | wrapper w hawait hw => exact h.push trivial
  | datum hawait hv => exact h.give (of_spells ht hv)
  | dot hst hne =>
    obtain ⟨hseen, hrest⟩ := h.of_stack hst
    exact ⟨h.done, List.forall_mem_cons.2 ⟨hseen, hrest⟩⟩
  | closeList hst =>
    obtain ⟨hseen, hrest⟩ := h.of_stack hst
    exact supply_sound h.done (closed hseen .nil) hrest
  | closeTail hst =>
    obtain ⟨⟨hseen, hlast⟩, hrest⟩ := h.of_stack hst
    exact supply_sound h.done (closed hseen hlast) hrest

theorem readFrom (h : r.Sound) {ts : List Token} (ht : ∀ t ∈ ts, t.Sound)
    (hr : r.readFrom ts = .ok s) : s.Sound := by
  induction ts generalizing r with
  | nil =>
    cases hr
    exact h
  | cons t ts ih =>
    obtain ⟨u, hstep, hu⟩ := readFrom_cons_eq_ok_iff.1 hr
    have htoken := ht t (by simp)
    exact ih (h.step htoken hstep) (fun t' ht' => ht t' (by simp [ht'])) hu

end Sound

end Reader

/-- Whatever a text is read to consists of data. -/
theorem readData_datum {s : String} {vs : List Value} (h : readData s = .ok vs) :
    ∀ v ∈ vs, Datum v := by
  unfold readData at h
  cases hts : significantTokens s with
  | error e =>
    rw [hts] at h
    cases h
  | ok ts =>
    rw [hts] at h
    change readTokens ts = .ok vs at h
    have htoken : ∀ t ∈ ts, t.Sound := by
      unfold significantTokens at hts
      split at hts
      · next hsig =>
        cases hts
        exact Token.significant_sound hsig
      · cases hts
    unfold readTokens at h
    cases hr : Reader.initial.readFrom ts with
    | error e =>
      rw [hr] at h
      cases h
    | ok r =>
      have hsound := Reader.initial_sound.readFrom htoken hr
      rw [hr] at h
      change r.finish = .ok vs at h
      unfold Reader.finish at h
      split at h
      · cases h
        simpa using hsound.done
      · cases h

end TinyLisp
