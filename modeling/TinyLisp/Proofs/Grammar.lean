import TinyLisp.Proofs.Reading.Completion

/-!
# The grammar of forms

What the reader accepts is given by a grammar:

    form ::= atom | string | mark form | ( form* ) | ( form form* . form )

where a mark is one of the four tokens that stand before a form. Tokens read to some data exactly if
they derive them (`readTokens_grammar`); so they derive at most one list of data. Where they do not
read, either one of them is refused, and no derivable list begins with the tokens up to it; or they
begin a derivable list that goes on, and what the failure says tells whether a bracket is open.

That what is derived is read is an induction on the derivation. For the converse, `Spans` tells how
the tokens read so far make up the data read and the constructs begun, and each token that is
accepted keeps it.
-/

namespace TinyLisp

/-! ## §1. Derivations -/

mutual

/-- The tokens of a form, with its datum. -/
inductive Derives : List Token → Value → Prop
  | spelled {t : Token} {v : Value} : t.Spells v → Derives [t] v
  | marked {ts : List Token} {v : Value} (w : Wrapper) :
      Derives ts v → Derives (w.token :: ts) (w.wrap v)
  | list {ts : List Token} {vs : List Value} :
      DerivesAll ts vs → Derives (.openParen :: (ts ++ [.closeParen])) (Value.ofList vs)
  | dotted {ts us : List Token} {vs : List Value} {v : Value} :
      DerivesAll ts vs → vs ≠ [] → Derives us v →
        Derives (.openParen :: (ts ++ .plain ['.'] :: (us ++ [.closeParen]))) (Value.chain v vs)

/-- The tokens of forms one after another, with their data. -/
inductive DerivesAll : List Token → List Value → Prop
  | nil : DerivesAll [] []
  | cons {ts us : List Token} {v : Value} {vs : List Value} :
      Derives ts v → DerivesAll us vs → DerivesAll (ts ++ us) (v :: vs)

end

section

variable {ts us : List Token} {v : Value} {vs : List Value}

theorem DerivesAll.append_form (h : DerivesAll ts vs) (hv : Derives us v) :
    DerivesAll (ts ++ us) (vs ++ [v]) := by
  induction vs generalizing ts with
  | nil =>
    cases h
    have hone := DerivesAll.cons hv .nil
    rwa [List.append_nil] at hone
  | cons w ws ih =>
    cases h with
    | cons hw hws =>
      rw [List.append_assoc]
      exact .cons hw (ih hws)

end

/-! ## §2. What is derived is read -/

namespace Reader

/-- Whether a reader gathers data one after another: outside of all constructs, or directly in an
open list. -/
def Gathers (r : Reader) : Prop :=
  r.stack = [] ∨ ∃ seen rest, r.stack = .list seen :: rest

variable {r : Reader}

theorem Gathers.awaiting (h : r.Gathers) : r.Awaiting := by
  intro seen last rest hst
  rcases h with hnil | ⟨seen', rest', hlist⟩
  · rw [hnil] at hst
    cases hst
  · rw [hlist] at hst
    cases hst

theorem Gathers.give (h : r.Gathers) (v : Value) : (r.give v).Gathers := by
  obtain ⟨done, stack⟩ := r
  rcases h with rfl | ⟨seen, rest, rfl⟩
  · exact .inl rfl
  · exact .inr ⟨v :: seen, rest, rfl⟩

theorem foldl_give_nil (done vs : List Value) :
    vs.foldl give ⟨done, []⟩ = ⟨vs.reverse ++ done, []⟩ := by
  induction vs generalizing done with
  | nil => rfl
  | cons v vs ih =>
    rw [List.foldl_cons, List.reverse_cons, List.append_assoc]
    exact ih (v :: done)

theorem foldl_give_list (done seen vs : List Value) (rest : List Pending) :
    vs.foldl give ⟨done, .list seen :: rest⟩ = ⟨done, .list (vs.reverse ++ seen) :: rest⟩ := by
  induction vs generalizing seen with
  | nil => rfl
  | cons v vs ih =>
    rw [List.foldl_cons, List.reverse_cons, List.append_assoc]
    exact ih (v :: seen)

end Reader

section

variable {ts us : List Token} {v : Value} {vs : List Value}

/-- Tokens that are read to data, wherever data are gathered. -/
def ReadsAll (ts : List Token) (vs : List Value) : Prop :=
  ∀ r : Reader, r.Gathers → r.readFrom ts = .ok (vs.foldl Reader.give r)

/-- Behind an opening parenthesis, the elements of a list are gathered. -/
theorem ReadsAll.elements (h : ReadsAll ts vs) {r : Reader} (hr : r.Awaiting) :
    r.readFrom (.openParen :: ts) = .ok ⟨r.done, .list vs.reverse :: r.stack⟩ := by
  have hopen : (r.push (.list [])).Gathers := .inr ⟨[], r.stack, rfl⟩
  have hlist := Reader.foldl_give_list r.done [] vs r.stack
  rw [List.append_nil] at hlist
  rw [Reader.readFrom_cons (.openList hr), h _ hopen]
  exact congrArg Except.ok hlist

theorem ReadsAll.list (h : ReadsAll ts vs) :
    Reads (.openParen :: (ts ++ [.closeParen])) (Value.ofList vs) := by
  intro r hr
  have hclose : Reader.Step ⟨r.done, .list vs.reverse :: r.stack⟩ .closeParen
      (Reader.supply r.done (Value.chain .nil vs.reverse.reverse) r.stack) := .closeList rfl
  rw [List.reverse_reverse] at hclose
  rw [← List.cons_append]
  exact Reader.readFrom_append_eq_ok_iff.2 ⟨_, h.elements hr, Reader.readFrom_singleton.2 hclose⟩

theorem ReadsAll.dotted (h : ReadsAll ts vs) (hne : vs ≠ []) (hv : Reads us v) :
    Reads (.openParen :: (ts ++ .plain ['.'] :: (us ++ [.closeParen]))) (Value.chain v vs) := by
  intro r hr
  have hdot : Reader.Step ⟨r.done, .list vs.reverse :: r.stack⟩ (.plain ['.'])
      ⟨r.done, .tail vs.reverse :: r.stack⟩ := .dot rfl (by simpa using hne)
  have htail : (⟨r.done, .tail vs.reverse :: r.stack⟩ : Reader).readFrom us =
      .ok ⟨r.done, .close vs.reverse v :: r.stack⟩ := hv _ fun _ _ _ hst => by cases hst
  have hclose : Reader.Step ⟨r.done, .close vs.reverse v :: r.stack⟩ .closeParen
      (Reader.supply r.done (Value.chain v vs.reverse.reverse) r.stack) := .closeTail rfl
  rw [List.reverse_reverse] at hclose
  rw [← List.cons_append]
  refine Reader.readFrom_append_eq_ok_iff.2 ⟨_, h.elements hr, ?_⟩
  rw [Reader.readFrom_cons hdot]
  exact Reader.readFrom_append_eq_ok_iff.2 ⟨_, htail, Reader.readFrom_singleton.2 hclose⟩

theorem ReadsAll.cons (hv : Reads ts v) (hvs : ReadsAll us vs) : ReadsAll (ts ++ us) (v :: vs) := by
  intro r hr
  exact Reader.readFrom_append_eq_ok_iff.2 ⟨_, hv r hr.awaiting, hvs _ (hr.give v)⟩

end

mutual

/-- The tokens of a form are read to its datum. -/
theorem Derives.reads {ts : List Token} {v : Value} : Derives ts v → Reads ts v
  | .spelled h => reads_of_spells h
  | .marked w h => h.reads.wrap w
  | .list h => h.readsAll.list
  | .dotted h hne hv => h.readsAll.dotted hne hv.reads

theorem DerivesAll.readsAll {ts : List Token} {vs : List Value} :
    DerivesAll ts vs → ReadsAll ts vs
  | .nil => fun _ _ => rfl
  | .cons hv hvs => .cons hv.reads hvs.readsAll

end

/-- What tokens derive, they are read to. -/
theorem DerivesAll.readTokens {ts : List Token} {vs : List Value} (h : DerivesAll ts vs) :
    readTokens ts = .ok vs := by
  have hread : Reader.initial.readFrom ts = .ok ⟨vs.reverse ++ [], []⟩ :=
    (h.readsAll _ (.inl rfl)).trans (congrArg Except.ok (Reader.foldl_give_nil [] vs))
  rw [readTokens_eq, hread, List.append_nil]
  exact congrArg Except.ok vs.reverse_reverse

/-! ## §3. What is read is derived -/

/-- The tokens of a construct that has begun. -/
inductive Begins : List Token → Pending → Prop
  | list {ts : List Token} {seen : List Value} :
      DerivesAll ts seen.reverse → Begins (.openParen :: ts) (.list seen)
  | tail {ts : List Token} {seen : List Value} :
      DerivesAll ts seen.reverse → seen ≠ [] →
        Begins (.openParen :: (ts ++ [.plain ['.']])) (.tail seen)
  | close {ts us : List Token} {seen : List Value} {last : Value} :
      DerivesAll ts seen.reverse → seen ≠ [] → Derives us last →
        Begins (.openParen :: (ts ++ .plain ['.'] :: us)) (.close seen last)
  | mark (w : Wrapper) : Begins [w.token] (.wrapper w)

/-- The tokens of what a reader has read and of what it has begun: the data, and behind them each
construct inside the one before it. -/
inductive Spans : List Token → List Value → List Pending → Prop
  | done {ts : List Token} {done : List Value} : DerivesAll ts done.reverse → Spans ts done []
  | push {ts us : List Token} {done : List Value} {stack : List Pending} {p : Pending} :
      Spans ts done stack → (⟨done, stack⟩ : Reader).Awaiting → Begins us p →
        Spans (ts ++ us) done (p :: stack)

section

variable {ts us : List Token} {done : List Value} {stack : List Pending} {v : Value}

/-- A datum where one is awaited. The induction follows the prefixes that it goes through. -/
theorem Spans.supply (h : Spans ts done stack) (hr : (⟨done, stack⟩ : Reader).Awaiting)
    (hv : Derives us v) :
    Spans (ts ++ us) (Reader.supply done v stack).done (Reader.supply done v stack).stack := by
  induction h generalizing us v with
  | done h =>
    refine .done ?_
    show DerivesAll _ (v :: _).reverse
    rw [List.reverse_cons]
    exact h.append_form hv
  | @push ts₁ ts₂ done stack p h hbelow hp ih =>
    rw [List.append_assoc]
    cases hp with
    | list hseen =>
      refine .push h hbelow (.list ?_)
      rw [List.reverse_cons]
      exact hseen.append_form hv
    | tail hseen hne =>
      refine .push h hbelow ?_
      rw [List.cons_append, List.append_assoc]
      exact .close hseen hne hv
    | close => exact absurd rfl (hr _ _ _)
    | mark w => exact ih hbelow (.marked w hv)

/-- What the innermost construct was, and what stands before it. -/
theorem Spans.innermost {p : Pending} (h : Spans ts done (p :: stack)) :
    ∃ us vs, ts = us ++ vs ∧ Spans us done stack ∧ (⟨done, stack⟩ : Reader).Awaiting ∧
      Begins vs p := by
  cases h with
  | push h hbelow hp => exact ⟨_, _, rfl, h, hbelow, hp⟩

end

section

variable {ts us : List Token} {r s : Reader} {t : Token}

/-- One more token that is accepted. -/
theorem Spans.step (h : Spans ts r.done r.stack) (hstep : Reader.Step r t s)
    (ht : t.isComment = false) : Spans (ts ++ [t]) s.done s.stack := by
  obtain ⟨done, stack⟩ := r
  cases hstep with
  | comment body => cases ht
  | openList hr => exact .push h hr (.list .nil)
  | wrapper w hr hw =>
    subst hw
    exact .push h hr (.mark w)
  | datum hr hv => exact h.supply hr (.spelled hv)
  | dot hst hne =>
    obtain rfl : stack = _ := hst
    obtain ⟨us, vs, rfl, hus, hbelow, hp⟩ := h.innermost
    cases hp with
    | list hseen =>
      rw [List.append_assoc]
      exact .push hus hbelow (.tail hseen hne)
  | closeList hst =>
    obtain rfl : stack = _ := hst
    obtain ⟨us, vs, rfl, hus, hbelow, hp⟩ := h.innermost
    cases hp with
    | list hseen =>
      rw [List.append_assoc]
      exact hus.supply hbelow (.list hseen)
  | closeTail hst =>
    obtain rfl : stack = _ := hst
    obtain ⟨us, vs, rfl, hus, hbelow, hp⟩ := h.innermost
    cases hp with
    | close hseen hne hlast =>
      have hform := Derives.dotted hseen (by simpa using hne) hlast
      rw [List.append_assoc, List.cons_append, List.append_assoc]
      exact hus.supply hbelow hform

/-- Tokens that are accepted, one after the other. -/
theorem Spans.readFrom (h : Spans ts r.done r.stack) (hus : ∀ t ∈ us, t.isComment = false)
    (hread : r.readFrom us = .ok s) : Spans (ts ++ us) s.done s.stack := by
  induction us generalizing ts r with
  | nil =>
    cases hread
    rwa [List.append_nil]
  | cons t us ih =>
    rw [List.forall_mem_cons] at hus
    obtain ⟨u, hstep, hrest⟩ := Reader.readFrom_cons_eq_ok_iff.1 hread
    have hnext := ih (h.step hstep hus.1) hus.2 hrest
    rwa [List.append_assoc] at hnext

/-- What tokens are read to, they derive. -/
theorem derivesAll_of_readTokens {vs : List Value} (hts : ∀ t ∈ ts, t.isComment = false)
    (h : readTokens ts = .ok vs) : DerivesAll ts vs := by
  have hstart : Spans [] Reader.initial.done Reader.initial.stack := .done .nil
  have hall : Spans ts vs.reverse [] := hstart.readFrom hts (readFrom_of_readTokens h)
  cases hall with
  | done hvs => rwa [List.reverse_reverse] at hvs

end

/-! ## §4. Open brackets -/

namespace Reader

variable {r s : Reader} {t : Token}

theorem depth_supply (done : List Value) (v : Value) (stack : List Pending) :
    (supply done v stack).depth = (⟨done, stack⟩ : Reader).depth := by
  induction stack generalizing v with
  | nil => rfl
  | cons p rest ih =>
    cases p with
    | wrapper w => exact ih (w.wrap v)
    | list seen => rfl
    | tail seen => rfl
    | close seen last => rfl

theorem depth_of_spells {v : Value} (h : t.Spells v) :
    [t].count .closeParen = 0 ∧ [t].count .openParen = 0 := by
  cases h <;> simp

/-- A parenthesis opens a list or closes one; no other token does. -/
theorem Step.depth (h : Step r t s) :
    s.depth + [t].count .closeParen = r.depth + [t].count .openParen := by
  obtain ⟨done, stack⟩ := r
  cases h with
  | comment body => simp
  | openList hr => rfl
  | wrapper w hr hw =>
    subst hw
    cases w <;> rfl
  | datum hr hv =>
    obtain ⟨hclose, hopen⟩ := depth_of_spells hv
    rw [hclose, hopen]
    exact depth_supply done _ stack
  | dot hst hne =>
    obtain rfl : stack = _ := hst
    rfl
  | closeList hst =>
    obtain rfl : stack = _ := hst
    rw [depth_supply]
    rfl
  | closeTail hst =>
    obtain rfl : stack = _ := hst
    rw [depth_supply]
    rfl

theorem depth_of_readFrom {ts : List Token} (h : r.readFrom ts = .ok s) :
    s.depth + ts.count .closeParen = r.depth + ts.count .openParen := by
  induction ts generalizing r with
  | nil =>
    cases h
    rfl
  | cons t ts ih =>
    obtain ⟨u, hstep, hrest⟩ := readFrom_cons_eq_ok_iff.1 h
    have hfirst := hstep.depth
    have hall := ih hrest
    rw [← List.singleton_append, List.count_append, List.count_append]
    omega

/-- When the tokens run out, a list is open exactly if the failure says so. -/
theorem depth_pos_iff {e : ReadError} (h : r.finish = .error e) :
    0 < r.depth ↔ e = .unclosedList := by
  have hany : 0 < r.depth ↔ r.stack.any Pending.isList = true := by
    unfold depth
    rw [List.length_pos_iff, List.any_eq_true, ne_eq, List.filter_eq_nil_iff]
    simp
  unfold finish at h
  split at h
  · cases h
  · cases h
    rw [hany]
    unfold endError
    split
    · next hopen => exact iff_of_true hopen rfl
    · next hnone => exact iff_of_false hnone (by simp)

end Reader

/-! ## §5. The reader and the grammar -/

/-- Whether a derivable list begins with some tokens. -/
def BeginsDerivable (ts : List Token) : Prop :=
  ∃ us vs, DerivesAll (ts ++ us) vs

section

variable {ts us : List Token}

/-- Tokens that are accepted can be completed to a derivable list. -/
theorem beginsDerivable_of_readFrom (hts : ∀ t ∈ ts, t.isComment = false) {r : Reader}
    (h : Reader.initial.readFrom ts = .ok r) : BeginsDerivable ts := by
  obtain ⟨vs, hvs⟩ := readTokens_closing h
  refine ⟨r.closing, vs, derivesAll_of_readTokens (fun t ht => ?_) hvs⟩
  rcases List.mem_append.1 ht with ht | ht
  · exact hts t ht
  · exact (r.isParen_closing t ht).isComment

/-- No derivable list begins with tokens of which one is refused. -/
theorem not_beginsDerivable {e : ReadError} (h : readTokens ts = .error e)
    (he : e.blamesToken = true) : ¬ BeginsDerivable ts := by
  rintro ⟨us, vs, hvs⟩
  have hread := hvs.readTokens
  rw [readTokens_append_error h he] at hread
  cases hread

/-- Tokens that are not comments read to some data exactly if they derive them, and they derive no
other. If a token is refused, the tokens before it begin a derivable list, and with it they begin
none. If no token is, the tokens begin a longer derivable list, and the failure is that of an open
list exactly if there are more opening than closing parentheses among them. -/
theorem readTokens_grammar (hts : ∀ t ∈ ts, t.isComment = false) :
    (∀ vs, readTokens ts = .ok vs ↔ DerivesAll ts vs) ∧
      (∀ vs ws, DerivesAll ts vs → DerivesAll ts ws → vs = ws) ∧
      (∀ e, readTokens ts = .error e → e.blamesToken = true →
        ∃ us t rest, ts = us ++ t :: rest ∧ BeginsDerivable us ∧
          readTokens (us ++ [t]) = .error e ∧ ¬ BeginsDerivable (us ++ [t])) ∧
      ∀ e, readTokens ts = .error e → e.blamesToken = false →
        (e = .unclosedList ∨ e = .nothingToRead) ∧
          (∃ us vs, us ≠ [] ∧ DerivesAll (ts ++ us) vs) ∧
          (e = .unclosedList ↔ ts.count .closeParen < ts.count .openParen) := by
  have hok (vs : List Value) : readTokens ts = .ok vs ↔ DerivesAll ts vs :=
    ⟨derivesAll_of_readTokens hts, DerivesAll.readTokens⟩
  refine ⟨hok, fun vs ws hvs hws => ?_, fun e he hblames => ?_, fun e he hblames => ?_⟩
  · have hsame := (hvs.readTokens).symm.trans hws.readTokens
    exact Except.ok.inj hsame
  · rcases readTokens_cases ts with ⟨fs, hread⟩ | ⟨e', -, hread, hrefused⟩ |
        ⟨e', r, hends, hread, -⟩
    · rw [hread] at he
      cases he
    · rw [hread] at he
      cases he
      obtain ⟨us, t, rest, r, rfl, hus, ht⟩ := Reader.refused_of_readFrom hrefused
      have hthere : readTokens (us ++ [t]) = .error e := by
        rw [readTokens_eq, Reader.readFrom_append, hus]
        show (r.readFrom [t] >>= Reader.finish) = _
        unfold Reader.readFrom
        rw [List.foldlM_cons, ht]
        rfl
      exact ⟨us, t, rest, rfl, beginsDerivable_of_readFrom (fun t ht => hts t (by simp [ht])) hus,
        hthere, not_beginsDerivable hthere hblames⟩
    · rw [hread] at he
      cases he
      rcases hends with rfl | rfl <;> cases hblames
  · rcases readTokens_cases ts with ⟨fs, hread⟩ | ⟨e', hb, hread, -⟩ |
        ⟨e', r, hends, hread, hr, hfinish⟩
    · rw [hread] at he
      cases he
    · rw [hread] at he
      cases he
      rw [hb] at hblames
      cases hblames
    · rw [hread] at he
      cases he
      obtain ⟨us, vs, hvs⟩ := beginsDerivable_of_readFrom hts hr
      refine ⟨hends, ⟨us, vs, ?_, hvs⟩, ?_⟩
      · rintro rfl
        rw [List.append_nil] at hvs
        rw [hvs.readTokens] at hread
        cases hread
      · have hcount := Reader.depth_of_readFrom hr
        have hzero : Reader.initial.depth = 0 := rfl
        rw [← Reader.depth_pos_iff hfinish]
        omega

/-- An open list behind a prefix. -/
theorem readTokens_grammar_open :
    let ts : List Token := [.quote, .openParen, .plain ['a'], .plain ['.']]
    readTokens ts = .error .unclosedList ∧ (∃ us vs, us ≠ [] ∧ DerivesAll (ts ++ us) vs) ∧
      ts.count .closeParen < ts.count .openParen := by
  intro ts
  have hread : readTokens ts = .error .unclosedList := by rfl
  obtain ⟨-, -, -, hopen⟩ := @readTokens_grammar ts (by decide)
  obtain ⟨-, hmore, hcount⟩ := hopen .unclosedList hread rfl
  exact ⟨hread, hmore, hcount.1 rfl⟩

end

end TinyLisp
