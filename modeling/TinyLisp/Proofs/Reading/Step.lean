import TinyLisp.Reader

/-!
# What a token does to a reader

`Reader.Step` lists, once and for all, what a token that is accepted does to a reader
(`feed_eq_ok_iff`). An invariant of reading is one case for each of its constructors, and an
induction over the tokens.
-/

namespace TinyLisp

/-! ## §1. One token -/

/-- The token of a prefix. -/
def Wrapper.token : Wrapper → Token
  | quote => .quote
  | quasiquote => .quasiquote
  | unquote => .unquote
  | unquoteSplicing => .unquoteSplicing

/-- A token that spells a datum by itself. -/
inductive Token.Spells : Token → Value → Prop
  | atom {cs : List Char} {v : Value} : atomValue cs = .ok v → Spells (.plain cs) v
  | string {body cs : List Char} :
      Text.decode body = .ok cs → Spells (.text body) (.string (String.ofList cs))

namespace Reader

/-- A reader whose innermost construct awaits a datum or an element. -/
def Awaiting (r : Reader) : Prop :=
  ∀ seen last rest, r.stack ≠ .close seen last :: rest

/-- What a token can do to a reader. -/
inductive Step (r : Reader) : Token → Reader → Prop
  | comment (body : List Char) : Step r (.comment body) r
  | openList : r.Awaiting → Step r .openParen (r.push (.list []))
  | wrapper {t : Token} (w : Wrapper) :
      r.Awaiting → t = w.token → Step r t (r.push (.wrapper w))
  | datum {t : Token} {v : Value} : r.Awaiting → t.Spells v → Step r t (r.give v)
  | dot {seen : List Value} {rest : List Pending} :
      r.stack = .list seen :: rest → seen ≠ [] →
        Step r (.plain ['.']) ⟨r.done, .tail seen :: rest⟩
  | closeList {seen : List Value} {rest : List Pending} :
      r.stack = .list seen :: rest →
        Step r .closeParen (supply r.done (Value.chain .nil seen.reverse) rest)
  | closeTail {seen : List Value} {last : Value} {rest : List Pending} :
      r.stack = .close seen last :: rest →
        Step r .closeParen (supply r.done (Value.chain last seen.reverse) rest)

variable {r s : Reader} {t : Token}

theorem Awaiting.feed_eq (h : r.Awaiting) (t : Token) : r.feed t = r.feedDatum t := by
  unfold feed
  split
  · next seen last rest hst => exact absurd hst (h seen last rest)
  · rfl

theorem Awaiting.of_list {seen : List Value} {rest : List Pending}
    (h : r.stack = .list seen :: rest) : r.Awaiting := by
  intro seen' last rest' hst
  rw [h] at hst
  cases hst

theorem initial_awaiting : initial.Awaiting := by
  intro seen last rest hst
  exact absurd hst (by simp [initial])

theorem Step.of_atom (hr : r.Awaiting) {cs : List Char}
    (h : (atomValue cs).map r.give = .ok s) : Step r (.plain cs) s := by
  cases hv : atomValue cs with
  | error e =>
    rw [hv] at h
    cases h
  | ok v =>
    rw [hv] at h
    cases h
    exact .datum hr (.atom hv)

theorem Step.of_feedDatum (hr : r.Awaiting) (h : r.feedDatum t = .ok s) : Step r t s := by
  cases t with
  | openParen =>
    cases h
    exact .openList hr
  | closeParen =>
    simp only [feedDatum, feedClose] at h
    split at h
    · next seen rest hst =>
      cases h
      exact .closeList hst
    · cases h
  | text body =>
    simp only [feedDatum] at h
    split at h
    · next cs hcs =>
      cases h
      exact .datum hr (.string hcs)
    · cases h
  | comment body =>
    cases h
    exact .comment body
  | plain cs =>
    simp only [feedDatum, feedPlain] at h
    split at h
    · next seen rest hst =>
      -- a dot is one only among the elements of a list; anywhere else it is read as an atom
      split at h
      · next hdot =>
        subst hdot
        split at h
        · cases h
        · next hne =>
          cases h
          exact .dot hst (by simpa using hne)
      · exact .of_atom hr h
    · exact .of_atom hr h
  | quote =>
    cases h
    exact .wrapper .quote hr rfl
  | quasiquote =>
    cases h
    exact .wrapper .quasiquote hr rfl
  | unquote =>
    cases h
    exact .wrapper .unquote hr rfl
  | unquoteSplicing =>
    cases h
    exact .wrapper .unquoteSplicing hr rfl

theorem Step.of_feed (h : r.feed t = .ok s) : Step r t s := by
  unfold feed at h
  split at h
  · next seen last rest hst =>
    cases t with
    | closeParen =>
      cases h
      exact .closeTail hst
    | comment body =>
      cases h
      have hr : (⟨r.done, .close seen last :: rest⟩ : Reader) = r := by rw [← hst]
      rw [hr]
      exact .comment body
    | _ => cases h
  · next hst => exact .of_feedDatum hst h

/-- A run of plain characters that spells a datum is no dot. -/
theorem feedPlain_of_atomValue (r : Reader) {cs : List Char} {v : Value}
    (h : atomValue cs = .ok v) : r.feedPlain cs = .ok (r.give v) := by
  have hdot : cs ≠ ['.'] := by
    rintro rfl
    cases h
  unfold feedPlain
  split
  · rw [if_neg hdot, h]
    rfl
  · rw [h]
    rfl

theorem Step.feed (h : Step r t s) : r.feed t = .ok s := by
  cases h with
  | comment body =>
    unfold Reader.feed
    split
    · next seen last rest hst =>
      show Except.ok (⟨r.done, .close seen last :: rest⟩ : Reader) = _
      rw [← hst]
    · rfl
  | openList hr => exact hr.feed_eq _
  | wrapper w hr ht =>
    subst ht
    rw [hr.feed_eq]
    cases w <;> rfl
  | datum hr hv =>
    rw [hr.feed_eq]
    cases hv with
    | atom hv => exact feedPlain_of_atomValue r hv
    | string hcs => simp only [feedDatum, hcs]
  | dot hst hne =>
    rw [(Awaiting.of_list hst).feed_eq]
    simp only [feedDatum, feedPlain, hst, if_true]
    rw [if_neg (by simpa using hne)]
  | closeList hst =>
    rw [(Awaiting.of_list hst).feed_eq]
    simp only [feedDatum, feedClose, hst]
    rfl
  | closeTail hst =>
    unfold Reader.feed
    simp only [hst, feedEnd]

/-- A token is accepted exactly if it makes one of the steps. -/
theorem feed_eq_ok_iff : r.feed t = .ok s ↔ Step r t s :=
  ⟨Step.of_feed, Step.feed⟩

/-! ## §2. Several tokens -/

theorem readFrom_cons (h : Step r t s) (ts : List Token) :
    r.readFrom (t :: ts) = s.readFrom ts := by
  unfold readFrom
  rw [List.foldlM_cons, h.feed]
  rfl

/-- Several tokens are accepted one after the other. -/
theorem readFrom_cons_eq_ok_iff {ts : List Token} :
    r.readFrom (t :: ts) = .ok s ↔ ∃ u, Step r t u ∧ u.readFrom ts = .ok s := by
  constructor
  · intro h
    unfold readFrom at h
    rw [List.foldlM_cons] at h
    cases hf : r.feed t with
    | error e =>
      rw [hf] at h
      cases h
    | ok u =>
      rw [hf] at h
      exact ⟨u, .of_feed hf, h⟩
  · rintro ⟨u, hstep, h⟩
    rw [readFrom_cons hstep, h]

theorem readFrom_append_eq_ok_iff {ts us : List Token} :
    r.readFrom (ts ++ us) = .ok s ↔ ∃ u, r.readFrom ts = .ok u ∧ u.readFrom us = .ok s := by
  rw [readFrom_append]
  cases r.readFrom ts with
  | error e => simp [bind, Except.bind]
  | ok u => simp [bind, Except.bind]

theorem readFrom_singleton : r.readFrom [t] = .ok s ↔ Step r t s := by
  rw [readFrom_cons_eq_ok_iff]
  constructor
  · rintro ⟨u, hstep, h⟩
    cases h
    exact hstep
  · intro h
    exact ⟨s, h, rfl⟩

end Reader

/-! ## §3. The tokens of a datum -/

/-- Tokens that are read to a datum, wherever one is awaited. -/
def Reads (ts : List Token) (v : Value) : Prop :=
  ∀ r : Reader, r.Awaiting → r.readFrom ts = .ok (r.give v)

section

variable {ts : List Token} {v : Value}

theorem reads_of_spells {t : Token} (h : t.Spells v) : Reads [t] v := by
  intro r hr
  exact Reader.readFrom_singleton.2 (.datum hr h)

theorem Reads.wrap (h : Reads ts v) (w : Wrapper) : Reads (w.token :: ts) (w.wrap v) := by
  intro r hr
  have hpush : (r.push (.wrapper w)).Awaiting := by
    intro seen last rest hst
    exact absurd hst (by simp [Reader.push])
  rw [Reader.readFrom_cons (.wrapper w hr rfl), h _ hpush]
  rfl

end

end TinyLisp
