import TinyLisp.Proofs.Reading.Printed
import TinyLisp.Proofs.Reading.Weight

/-!
# Reading what was printed

Whatever a text is read to is read back from its readable text, unless it holds an infinite float,
whose text is taken for a symbol, or an unquoted symbol whose name begins with an at sign, which
the comma before it takes for its own (`readDatum_text_iff`).

That nothing else stands in the way is an induction on the datum: its tokens are read back piece
by piece. That these two do is a matter of counting: the text of such a datum spells more splices
or fewer floats than the datum holds, and reading preserves either number.
-/

namespace TinyLisp

/-! ## §1. One datum -/

namespace Reader

variable {r s : Reader} {t : Token}

/-- A datum is taken in by what awaits it, or is one more of the data read. -/
theorem supply_cases (done : List Value) (v : Value) (stack : List Pending) :
    ((supply done v stack).done = done ∧ (supply done v stack).stack ≠ []) ∨
      ∃ w, supply done v stack = ⟨w :: done, []⟩ := by
  induction stack generalizing v with
  | nil => exact .inr ⟨v, rfl⟩
  | cons p rest ih =>
    cases p with
    | wrapper w => exact ih (w.wrap v)
    | list seen => exact .inl ⟨rfl, by simp [supply]⟩
    | tail seen => exact .inl ⟨rfl, by simp [supply]⟩
    | close seen last => exact .inl ⟨rfl, by simp [supply]⟩

/-- After every token something has begun, or one more datum has been read. -/
theorem Step.progress (h : Step r t s) (ht : t.isComment = false) :
    (s.done = r.done ∧ s.stack ≠ []) ∨ ∃ w, s = ⟨w :: r.done, []⟩ := by
  cases h with
  | comment body => cases ht
  | openList hr => exact .inl ⟨rfl, by simp [push]⟩
  | wrapper w hr hw => exact .inl ⟨rfl, by simp [push]⟩
  | datum hr hv => exact supply_cases _ _ _
  | dot hst hne => exact .inl ⟨rfl, by simp⟩
  | closeList hst => exact supply_cases _ _ _
  | closeTail hst => exact supply_cases _ _ _

/-- Only no tokens at all are read to no data. -/
theorem eq_nil_of_readFrom_initial {ts : List Token} (hts : ∀ t ∈ ts, t.isComment = false)
    {r : Reader} (h : r.readFrom ts = .ok initial) : ts = [] := by
  rcases List.eq_nil_or_concat ts with rfl | ⟨us, t, rfl⟩
  · rfl
  · rw [List.concat_eq_append] at h hts
    obtain ⟨u, -, hlast⟩ := readFrom_append_eq_ok_iff.1 h
    have hstep := readFrom_singleton.1 hlast
    rcases hstep.progress (hts t (by simp)) with ⟨-, hstack⟩ | ⟨w, hw⟩
    · exact absurd rfl hstack
    · cases hw

theorem feedOnce_of_done (hr : r.done = []) (t : Token) : r.feedOnce t = r.feed t := by
  unfold feedOnce settled
  rw [hr]
  simp

/-- Tokens that are read to one datum are read to it without going on after it. -/
theorem feedOnce_of_readFrom {ts : List Token} (hts : ∀ t ∈ ts, t.isComment = false)
    (hr : r.done = []) {v : Value} (h : r.readFrom ts = .ok ⟨[v], []⟩) :
    ts.foldlM feedOnce r = .ok ⟨[v], []⟩ := by
  induction ts generalizing r with
  | nil =>
    cases h
    exact absurd hr (by simp)
  | cons t ts ih =>
    obtain ⟨u, hstep, hu⟩ := readFrom_cons_eq_ok_iff.1 h
    have hrest : ∀ t ∈ ts, t.isComment = false := fun t ht => hts t (by simp [ht])
    rw [List.foldlM_cons, feedOnce_of_done hr, hstep.feed]
    show ts.foldlM feedOnce u = _
    rcases hstep.progress (hts t (by simp)) with ⟨hdone, -⟩ | ⟨w, rfl⟩
    · exact ih hrest (hdone.trans hr) hu
    · -- the datum is complete, so there are no tokens left
      rw [hr] at hu ⊢
      have hbase : (⟨[w], []⟩ : Reader) = initial.onTop [w] := rfl
      rw [hbase, readFrom_onTop] at hu
      cases hi : initial.readFrom ts with
      | error e =>
        rw [hi] at hu
        cases hu
      | ok q =>
        obtain ⟨done, stack⟩ := q
        rw [hi] at hu
        obtain ⟨hdone, hstack⟩ := Reader.mk.inj (Except.ok.inj hu)
        have hlength := congrArg List.length hdone
        simp only [List.length_append, List.length_singleton] at hlength
        have hnone : done = [] := List.eq_nil_of_length_eq_zero (by omega)
        subst hnone
        subst hstack
        have hts' := eq_nil_of_readFrom_initial hrest hi
        subst hts'
        have hw : w = v := by simpa using hdone
        rw [hw]
        rfl

theorem readFrom_of_feedOnce {ts : List Token} (hts : ∀ t ∈ ts, t.isComment = false)
    (hr : r.done = []) (h : ts.foldlM feedOnce r = .ok s) :
    r.readFrom ts = .ok s ∧ (s.done = [] ∨ ∃ w, s = ⟨[w], []⟩) := by
  induction ts generalizing r with
  | nil =>
    cases h
    exact ⟨rfl, .inl hr⟩
  | cons t ts ih =>
    rw [List.foldlM_cons, feedOnce_of_done hr] at h
    cases hf : r.feed t with
    | error e =>
      rw [hf] at h
      cases h
    | ok u =>
      rw [hf] at h
      change ts.foldlM feedOnce u = .ok s at h
      have hstep := Step.of_feed hf
      rw [readFrom_cons hstep]
      rcases hstep.progress (hts t (by simp)) with ⟨hdone, -⟩ | ⟨w, rfl⟩
      · exact ih (fun t ht => hts t (by simp [ht])) (hdone.trans hr) h
      · rw [hr] at h ⊢
        cases ts with
        | nil =>
          cases h
          exact ⟨rfl, .inr ⟨w, rfl⟩⟩
        | cons t' ts =>
          -- the datum is complete, and one token more is one too many
          rw [List.foldlM_cons] at h
          cases h

end Reader

/-- Reading one datum succeeds exactly where reading all data yields just that one. -/
theorem readDatum_eq_ok_iff {s : String} {v : Value} :
    readDatum s = .ok v ↔ readData s = .ok [v] := by
  unfold readDatum
  rw [readData_eq]
  cases hts : significantTokens s with
  | error e => exact iff_of_false (fun h => by cases h) (fun h => by cases h)
  | ok ts =>
    have hcomment := isComment_of_significantTokens hts
    show (ts.foldlM Reader.feedOnce Reader.initial >>= _) = _ ↔ readTokens ts = _
    constructor
    · intro h
      cases hf : ts.foldlM Reader.feedOnce Reader.initial with
      | error e =>
        rw [hf] at h
        cases h
      | ok r =>
        rw [hf] at h
        obtain ⟨hread, hr⟩ := Reader.readFrom_of_feedOnce hcomment rfl hf
        rw [readTokens_eq, hread]
        obtain ⟨done, stack⟩ := r
        rcases hr with hr | ⟨w, hr⟩
        · rw [show done = [] from hr] at h
          cases stack <;> cases h
        · cases hr
          cases h
          rfl
    · intro h
      have hread := readFrom_of_readTokens h
      rw [Reader.feedOnce_of_readFrom hcomment rfl hread]
      rfl

/-! ## §2. What is read back -/

/-- Tokens that close a list which has elements, with the datum as its rest. -/
def Closes (ts : List Token) (v : Value) : Prop :=
  ∀ done seen ps, seen ≠ [] →
    (⟨done, .list seen :: ps⟩ : Reader).readFrom ts =
      .ok (Reader.supply done (Value.chain v seen.reverse) ps)

section

variable {ts us : List Token} {v a d : Value}

/-- Behind a dot, the tokens of a datum close a list with it. -/
theorem Reads.closes (h : Reads ts v) : Closes (Value.restTokens true ts) v := by
  intro done seen ps hne
  have hdot : Reader.Step ⟨done, .list seen :: ps⟩ (.plain ['.']) ⟨done, .tail seen :: ps⟩ :=
    .dot rfl hne
  have htail : (⟨done, .tail seen :: ps⟩ : Reader).readFrom ts = .ok ⟨done, .close seen v :: ps⟩ := by
    refine h _ ?_
    intro seen' last rest hst
    cases hst
  have hclose : Reader.Step ⟨done, .close seen v :: ps⟩ .closeParen
      (Reader.supply done (Value.chain v seen.reverse) ps) := .closeTail rfl
  show Reader.readFrom _ (.plain ['.'] :: (ts ++ [.closeParen])) = _
  rw [Reader.readFrom_cons hdot]
  exact Reader.readFrom_append_eq_ok_iff.2 ⟨_, htail, Reader.readFrom_singleton.2 hclose⟩

theorem Reads.pair (ha : Reads ts a) (hd : Closes us d) :
    Reads (.openParen :: (ts ++ us)) (.pair none a d) := by
  intro r hr
  have hfirst : (r.push (.list [])).readFrom ts = .ok ⟨r.done, .list [a] :: r.stack⟩ :=
    ha _ (.of_list rfl)
  have hrest := hd r.done [a] r.stack (by simp)
  rw [Reader.readFrom_cons (.openList hr)]
  exact Reader.readFrom_append_eq_ok_iff.2 ⟨_, hfirst, hrest⟩

theorem Reads.closes_pair (ha : Reads ts a) (hd : Closes us d) :
    Closes (ts ++ us) (.pair none a d) := by
  intro done seen ps hne
  have hfirst : (⟨done, .list seen :: ps⟩ : Reader).readFrom ts =
      .ok ⟨done, .list (a :: seen) :: ps⟩ := ha _ (.of_list rfl)
  have hrest := hd done (a :: seen) ps (by simp)
  have hchain : Value.chain d (a :: seen).reverse = Value.chain (.pair none a d) seen.reverse := by
    rw [List.reverse_cons]
    exact Value.chain_append d seen.reverse [a]
  rw [hchain] at hrest
  exact Reader.readFrom_append_eq_ok_iff.2 ⟨_, hfirst, hrest⟩

/-- The tokens of a datum are read back to it if its floats are and its commas stay alone. -/
theorem reads_spelled (hv : Datum v)
    (hinf : ∀ x, .float x ∈ v.parts → x.isInf = false)
    (hfloat : ∀ x, .float x ∈ v.parts → x.isInf = false →
      Decimal.readFloat? (Decimal.floatText x).toList = some x)
    (hcomma : ∀ name, .unquote (.symbol name) ∈ v.parts → name.toList.head? ≠ some '@') :
    Reads (v.spelled false) v ∧ Closes (v.spelled true) v := by
  have hboth : ∀ {t : Token} {u : Value}, t.Spells u →
      Reads [t] u ∧ Closes (Value.restTokens true [t]) u :=
    fun h => ⟨reads_of_spells h, (reads_of_spells h).closes⟩
  -- each kind of datum both as one by itself and as the rest of a list
  induction hv with
  | nil =>
    refine ⟨?_, ?_⟩
    · intro r hr
      have hopen : Reader.Step r .openParen (r.push (.list [])) := .openList hr
      have hclose : Reader.Step (r.push (.list [])) .closeParen (r.give .nil) :=
        .closeList (r := r.push (.list [])) rfl
      exact (Reader.readFrom_cons hopen _).trans (Reader.readFrom_singleton.2 hclose)
    · intro done seen ps hne
      exact Reader.readFrom_singleton.2 (.closeList rfl)
  | bool b => cases b <;> exact hboth (.atom rfl)
  | int n => exact hboth (.atom (atomValue_intChars n))
  | @float x hnan =>
    have hfinite := hinf x (by simp [Value.parts])
    have hread := hfloat x (by simp [Value.parts]) hfinite
    exact hboth (.atom (atomValue_floatText hfinite hnan hread))
  | symbol hrun hatom => exact hboth (.atom hatom)
  | string text =>
    have hspells := Token.Spells.string (Text.decode_encode text.toList)
    rw [String.ofList_toList] at hspells
    exact hboth hspells
  | @pair a d ha hd iha ihd =>
    have hfirst := Value.mem_parts_fst none a d
    have hrest := Value.mem_parts_snd none a d
    obtain ⟨hreads, -⟩ := iha (fun x hx => hinf x (hfirst _ hx))
      (fun x hx => hfloat x (hfirst _ hx)) (fun name hn => hcomma name (hfirst _ hn))
    obtain ⟨-, hcloses⟩ := ihd (fun x hx => hinf x (hrest _ hx))
      (fun x hx => hfloat x (hrest _ hx)) (fun name hn => hcomma name (hrest _ hn))
    exact ⟨hreads.pair hcloses, hreads.closes_pair hcloses⟩
  | @wrapper w v hv ih =>
    have hparts := w.mem_parts_wrap v
    obtain ⟨hreads, -⟩ := ih (fun x hx => hinf x (hparts _ hx))
      (fun x hx => hfloat x (hparts _ hx)) (fun name hn => hcomma name (hparts _ hn))
    have hwrap := hreads.wrap w
    have hat : w = .unquote → v.afterAt? = none := by
      rintro rfl
      refine Value.afterAt?_eq_none_iff.2 fun name hname => hcomma name ?_
      simp [Wrapper.wrap, Value.parts, hname]
    rw [Value.spelled_wrap hat, Value.spelled_wrap hat]
    exact ⟨hwrap, hwrap.closes⟩

end

/-! ## §3. What stands in the way -/

namespace Weighing

/-- Data that tokens are read to weigh as much as the tokens. -/
theorem values_of_readTokens (m : Weighing) {ts : List Token} {vs : List Value}
    (h : readTokens ts = .ok vs) : m.values vs = m.tokens ts := by
  have hread := m.readFrom_eq Reader.initial_ordered (readFrom_of_readTokens h)
  have hinitial : m.reader Reader.initial = 0 := rfl
  rw [hinitial, Nat.zero_add] at hread
  rw [← hread]
  show _ = m.values vs.reverse + 0
  rw [values_reverse, Nat.add_zero]

theorem tokens_restTokens (m : Weighing) (rest : Bool) (ts : List Token) :
    m.tokens (Value.restTokens rest ts) = m.tokens ts := by
  cases rest with
  | false => rfl
  | true =>
    have hdot : m.token (.plain ['.']) = 0 := rfl
    have hclose : m.token .closeParen = 0 := rfl
    simp only [Value.restTokens, if_true, tokens_append, tokens_cons, tokens_nil, hdot, hclose]
    omega

/-- Counts the splices of a datum. -/
def splices : Weighing where
  node
    | .unquoteSplicing _ => 1
    | _ => 0
  wrapper
    | .unquoteSplicing => 1
    | _ => 0
  node_nil := rfl
  node_string _ := rfl
  node_pair _ _ _ := rfl
  node_wrap w _ := by cases w <;> rfl

/-- Counts the floats of a datum. -/
def floats : Weighing where
  node
    | .float _ => 1
    | _ => 0
  wrapper _ := 0
  node_nil := rfl
  node_string _ := rfl
  node_pair _ _ _ := rfl
  node_wrap w _ := by cases w <;> rfl

end Weighing

namespace Value

/-- Whether an unquoted symbol begins with an at sign that its comma takes. -/
def joined : Value → Nat
  | unquote v => if v.afterAt?.isSome then 1 else 0
  | _ => 0

/-- Whether a float is infinite. -/
def infinite : Value → Nat
  | float x => if x.isInf then 1 else 0
  | _ => 0

end Value

open Weighing

theorem Value.joined_wrap {w : Wrapper} {v : Value} (h : w = .unquote → v.afterAt? = none) :
    joined (w.wrap v) = 0 := by
  cases w with
  | unquote =>
    show (if v.afterAt?.isSome then 1 else 0) = 0
    rw [h rfl]
    rfl
  | _ => rfl

theorem one_le_splices_commaTokens {v : Value} (h : v.afterAt? ≠ none) (ts : List Token) :
    1 ≤ splices.tokens (Value.commaTokens v ts) := by
  have hmark : splices.token .unquoteSplicing = 1 := rfl
  unfold Value.commaTokens
  split
  · next hat => exact absurd hat h
  · rw [tokens_cons, hmark]
    omega
  · rw [tokens_cons, hmark]
    omega

/-- Each comma that takes an at sign spells a splice that the datum does not hold. -/
theorem le_splices_spelled {v : Value} (hv : Datum v) (rest : Bool) :
    splices.value v + v.total Value.joined ≤ splices.tokens (v.spelled rest) := by
  induction hv generalizing rest with
  | @pair a d ha hd iha ihd =>
    have hfirst := iha false
    have hrest := ihd true
    have hopen : splices.tokens (if rest then [] else [.openParen]) = 0 := by
      cases rest <;> rfl
    have hpair : Value.joined (.pair none a d) = 0 := rfl
    show _ ≤ splices.tokens (_ ++ (a.spelled false ++ d.spelled true))
    rw [tokens_append, tokens_append, hopen, value_pair, Value.total_pair, hpair]
    omega
  | @wrapper w v hv ih =>
    have hbody := ih false
    rw [value_wrap, Wrapper.total_wrap]
    by_cases hat : w = .unquote → v.afterAt? = none
    · have hjoined := Value.joined_wrap hat
      rw [Value.spelled_wrap hat, tokens_restTokens, tokens_cons, token_wrapper, hjoined]
      omega
    · -- the comma before a symbol takes the at sign
      obtain ⟨rfl, hsome⟩ := Classical.not_imp.1 hat
      have hone := one_le_splices_commaTokens hsome (v.spelled false)
      obtain ⟨cs, hcs⟩ := Option.ne_none_iff_exists'.1 hsome
      obtain ⟨s, rfl, -⟩ := Value.afterAt?_eq_some hcs
      have hjoined : Value.joined (Wrapper.unquote.wrap (.symbol s)) = 1 := by
        simp [Value.joined, Wrapper.wrap, hcs]
      have hwrapper : splices.wrapper .unquote = 0 := rfl
      have hsymbol : splices.value (.symbol s) + (Value.symbol s).total Value.joined = 0 := rfl
      show _ ≤ splices.tokens (Value.restTokens rest (Value.commaTokens (.symbol s) _))
      rw [tokens_restTokens, hjoined, hwrapper]
      omega
  | _ => exact Nat.zero_le _

theorem floats_tokens_atom {cs : List Char} {v : Value} (h : atomValue cs = .ok v) (rest : Bool) :
    floats.tokens (Value.restTokens rest [.plain cs]) = floats.value v := by
  rw [tokens_restTokens, tokens_cons, floats.token_of_spells (.atom h)]
  rfl

/-- An infinite float spells none. -/
theorem floats_spelled_float {x : Float} (hnan : x.isNaN = false)
    (hfloat : x.isInf = false → Decimal.readFloat? (Decimal.floatText x).toList = some x)
    (rest : Bool) :
    floats.tokens ((Value.float x).spelled rest) + Value.infinite (.float x) ≤ 1 := by
  show floats.tokens (Value.restTokens rest [.plain (Decimal.floatText x).toList]) + _ ≤ 1
  cases hinf : x.isInf with
  | true =>
    obtain ⟨name, hname⟩ := atomValue_floatText_of_isInf hinf
    have hone : Value.infinite (.float x) = 1 := by simp [Value.infinite, hinf]
    have hsymbol : floats.value (.symbol name) = 0 := rfl
    have htokens := floats_tokens_atom hname rest
    omega
  | false =>
    have hread := atomValue_floatText hinf hnan (hfloat hinf)
    have hnone : Value.infinite (.float x) = 0 := by simp [Value.infinite, hinf]
    have hvalue : floats.value (.float x) = 1 := rfl
    have htokens := floats_tokens_atom hread rest
    omega

/-- A datum with an infinite float spells fewer floats than it holds. -/
theorem floats_spelled_le {v : Value} (hv : Datum v)
    (hfloat : ∀ x, .float x ∈ v.parts → x.isInf = false →
      Decimal.readFloat? (Decimal.floatText x).toList = some x)
    (hcomma : ∀ u, .unquote u ∈ v.parts → u.afterAt? = none) (rest : Bool) :
    floats.tokens (v.spelled rest) + v.total Value.infinite ≤ floats.value v := by
  induction hv generalizing rest with
  | nil => cases rest <;> exact Nat.le_refl 0
  | bool b =>
    have hread : atomValue (if b then ['#', 't'] else ['#', 'f']) = .ok (.bool b) := by
      cases b <;> rfl
    exact Nat.le_of_eq (floats_tokens_atom hread rest)
  | int n => exact Nat.le_of_eq (floats_tokens_atom (atomValue_intChars n) rest)
  | @float x hnan => exact floats_spelled_float hnan (hfloat x (by simp [Value.parts])) rest
  | symbol hrun hname => exact Nat.le_of_eq (floats_tokens_atom hname rest)
  | string text => exact Nat.le_of_eq (floats.tokens_restTokens rest _)
  | @pair a d ha hd iha ihd =>
    have hfst := Value.mem_parts_fst none a d
    have hsnd := Value.mem_parts_snd none a d
    have hfirst := iha (fun x hx => hfloat x (hfst _ hx)) (fun u hu => hcomma u (hfst _ hu)) false
    have hrest := ihd (fun x hx => hfloat x (hsnd _ hx)) (fun u hu => hcomma u (hsnd _ hu)) true
    have hopen : floats.tokens (if rest then [] else [.openParen]) = 0 := by
      cases rest <;> rfl
    have hpair : Value.infinite (.pair none a d) = 0 := rfl
    show floats.tokens (_ ++ (a.spelled false ++ d.spelled true)) + _ ≤ _
    rw [tokens_append, tokens_append, hopen, value_pair, Value.total_pair, hpair]
    omega
  | @wrapper w v hv ih =>
    have hparts := w.mem_parts_wrap v
    have hat : w = .unquote → v.afterAt? = none := by
      rintro rfl
      exact hcomma v (by simp [Wrapper.wrap, Value.parts])
    have hbody := ih (fun x hx => hfloat x (hparts _ hx)) (fun u hu => hcomma u (hparts _ hu)) false
    have hwrap : Value.infinite (w.wrap v) = 0 := by cases w <;> rfl
    rw [value_wrap, Wrapper.total_wrap, Value.spelled_wrap hat, tokens_restTokens, tokens_cons,
      token_wrapper, hwrap]
    omega

/-! ## §4. The round trip -/

/-- A datum that was read is read back from its readable text exactly if it holds no infinite float
and no unquoted symbol whose name begins with an at sign. That the decimal text of a finite float
denotes that float is assumed. -/
theorem readDatum_text_iff {s : String} {vs : List Value} (h : readData s = .ok vs) {v : Value}
    (hv : v ∈ vs)
    (hfloat : ∀ x, .float x ∈ v.parts → x.isInf = false →
      Decimal.readFloat? (Decimal.floatText x).toList = some x) :
    readDatum v.text = .ok v ↔
      (∀ x, .float x ∈ v.parts → x.isInf = false) ∧
        ∀ name, .unquote (.symbol name) ∈ v.parts → name.toList.head? ≠ some '@' := by
  have hdatum := readData_datum h v hv
  rw [readDatum_eq_ok_iff, readData_eq, significantTokens_text hdatum]
  show readTokens (v.spelled false) = .ok [v] ↔ _
  constructor
  · intro hread
    have hkept : ∀ m : Weighing, m.value v = m.tokens (v.spelled false) := by
      intro m
      have hvalues := m.values_of_readTokens hread
      rw [values_cons, values_nil, Nat.add_zero] at hvalues
      exact hvalues
    -- no splice may have come about, so no comma took an at sign
    have hjoined : v.total Value.joined = 0 := by
      have hle := le_splices_spelled hdatum false
      rw [← hkept splices] at hle
      omega
    have hcomma : ∀ u, .unquote u ∈ v.parts → u.afterAt? = none := by
      intro u hu
      have hnone : (if u.afterAt?.isSome then 1 else 0) = 0 :=
        (Value.total_eq_zero_iff _ v).1 hjoined _ hu
      cases hat : u.afterAt? with
      | none => rfl
      | some cs =>
        rw [hat] at hnone
        cases hnone
    -- and no float may have been lost
    have hinfinite : v.total Value.infinite = 0 := by
      have hle := floats_spelled_le hdatum hfloat hcomma false
      rw [← hkept floats] at hle
      omega
    refine ⟨?_, ?_⟩
    · intro x hx
      have hnone : (if x.isInf then 1 else 0) = 0 :=
        (Value.total_eq_zero_iff _ v).1 hinfinite _ hx
      cases hinf : x.isInf with
      | false => rfl
      | true =>
        rw [hinf] at hnone
        cases hnone
    · intro name hname
      exact Value.afterAt?_eq_none_iff.1 (hcomma _ hname) name rfl
  · rintro ⟨hinf, hcomma⟩
    obtain ⟨hreads, -⟩ := reads_spelled hdatum hinf hfloat hcomma
    rw [readTokens_eq, hreads _ Reader.initial_awaiting]
    rfl

/-- A pair with a float and a quoted symbol is read back; an unquoted symbol that begins with an at
sign is not. -/
theorem readDatum_text_pair_and_unquote :
    readDatum (Value.pair none (.float 2.5) (.quote (.symbol "x"))).text =
        .ok (.pair none (.float 2.5) (.quote (.symbol "x"))) ∧
      readDatum (Value.unquote (.symbol "@x")).text ≠ .ok (.unquote (.symbol "@x")) := by
  have hpair : readData "(2.5 . 'x)" = .ok [.pair none (.float 2.5) (.quote (.symbol "x"))] := rfl
  have hunquote : readData ", @x" = .ok [.unquote (.symbol "@x")] := rfl
  have hfloat : ∀ x, .float x ∈ (Value.pair none (.float 2.5) (.quote (.symbol "x"))).parts →
      x = 2.5 := by
    simp [Value.parts]
  refine ⟨(readDatum_text_iff hpair List.mem_cons_self ?_).2 ⟨?_, ?_⟩, ?_⟩
  · intro x hx hinf
    rw [hfloat x hx]
    rfl
  · intro x hx
    rw [hfloat x hx]
    rfl
  · simp [Value.parts]
  · intro hread
    have hboth := (readDatum_text_iff hunquote List.mem_cons_self (by simp [Value.parts])).1 hread
    exact hboth.2 "@x" (by simp [Value.parts]) rfl

end TinyLisp
