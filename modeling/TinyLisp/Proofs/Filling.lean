import TinyLisp.Proofs.EvalLaws
import TinyLisp.Eval.Step

/-!
# Templates are filled hole by hole

A template is a datum with holes, and to evaluate it is to fill them. `Value.openings` lists the
holes that stand at depth zero from left to right, each with what is to be put there: the value of
its payload, or the elements of the list that its payload gives, or nothing at all, for a splice
that has no list around it. `Value.filled` puts answers into the holes and leaves everything else
as it is. Neither evaluates anything.

`Engine.quasiquote_fills` says that evaluation brings the two together: it gets an answer for each
hole, one after another, and ends with the filled template; or it comes to a first hole that has no
answer, and fails as this hole fails. Between two holes nothing happens but that pairs are made.
-/

namespace TinyLisp

/-! ## §1. Holes -/

/-- A hole at depth zero of a template. -/
inductive Hole
  /-- An unquote: the value of the payload is put in its place. -/
  | value (payload : Value)
  /-- A splice in the place of an element: the elements of a list are put in its place. -/
  | elements (payload : Value)
  /-- A splice in any other place. -/
  | misplaced

namespace Value

/-- The holes at depth zero of a template that stands at depth `d`, from left to right. -/
def openings : Nat → Value → List Hole
  | 0, pair _ (unquoteSplicing payload) r => .elements payload :: r.openings 0
  | d, pair _ a r => a.openings d ++ r.openings d
  | 0, unquote payload => [.value payload]
  | d + 1, unquote v => v.openings d
  | 0, unquoteSplicing _ => [.misplaced]
  | d + 1, unquoteSplicing v => v.openings d
  | d, quasiquote v => v.openings (d + 1)
  | d, quote v => v.openings d
  | _, _ => []

/-- A template at depth `d` with answers put into its holes, the first answer into the first hole.
The answer to an unquote is a single value, and a hole without an answer stays. -/
def filled : Nat → Value → List (List Value) → Value
  | 0, pair _ (unquoteSplicing _) r, vs :: answers => chain (r.filled 0 answers) vs
  | d, pair cell a r, answers =>
    pair cell (a.filled d (answers.take (a.openings d).length))
      (r.filled d (answers.drop (a.openings d).length))
  | 0, unquote _, [v] :: _ => v
  | d + 1, unquote v, answers => unquote (v.filled d answers)
  | d + 1, unquoteSplicing v, answers => unquoteSplicing (v.filled d answers)
  | d, quasiquote v, answers => quasiquote (v.filled (d + 1) answers)
  | d, quote v, answers => quote (v.filled d answers)
  | _, v, _ => v

/-- A value without the tags of its pairs. -/
def bare : Value → Value
  | pair _ a d => pair none a.bare d.bare
  | quote v => quote v.bare
  | quasiquote v => quasiquote v.bare
  | unquote v => unquote v.bare
  | unquoteSplicing v => unquoteSplicing v.bare
  | v => v

end Value

/-! ## §2. Answers -/

/-- At most, pairs were made from one world to the other. -/
def World.PairsMade (w w' : World) : Prop :=
  ∃ n, w.nextTag ≤ n ∧ w' = { w with nextTag := n }

/-- A hole is answered, where `eval` evaluates a payload. -/
inductive Hole.Answered (eval : Value → Eval Value) : Hole → World → List Value → World → Prop
  | value {p v : Value} {w w' : World} : eval p w = .ok v w' → Answered eval (.value p) w [v] w'
  | elements {p v : Value} {vs : List Value} {w w' : World} : eval p w = .ok v w' →
      v.elements? = some vs → Answered eval (.elements p) w vs w'

/-- A hole has no answer: its payload fails, or gives no list where a list is needed, or there is
no place for a list. -/
inductive Hole.Fails (eval : Value → Eval Value) : Hole → World → Halt → World → Prop
  | value {p : Value} {w w' : World} {halt : Halt} : eval p w = .error halt w' →
      Fails eval (.value p) w halt w'
  | elements {p : Value} {w w' : World} {halt : Halt} : eval p w = .error halt w' →
      Fails eval (.elements p) w halt w'
  | notAList {p v : Value} {w w' : World} : eval p w = .ok v w' → v.elements? = none →
      Fails eval (.elements p) w (.failed (.type (.spliceNotAList v))) w'
  | misplaced {w : World} : Fails eval .misplaced w (.failed (.type .spliceOutsideList)) w

/-- Holes are answered one after another, each once, and only pairs are made in between. -/
inductive Hole.AllAnswered (eval : Value → Eval Value) :
    List Hole → World → List (List Value) → World → Prop
  | nil {w w' : World} : w.PairsMade w' → AllAnswered eval [] w [] w'
  | cons {h : Hole} {hs : List Hole} {vs : List Value} {answers : List (List Value)}
      {w w₁ w₂ w' : World} : w.PairsMade w₁ → h.Answered eval w₁ vs w₂ →
      AllAnswered eval hs w₂ answers w' → AllAnswered eval (h :: hs) w (vs :: answers) w'

/-- Of some holes, the first that has no answer fails; those before it are answered, and those
after it are left alone. -/
def Hole.FirstFails (eval : Value → Eval Value) (hs : List Hole) (w : World) (halt : Halt)
    (w' : World) : Prop :=
  ∃ before h after answers w₁, hs = before ++ h :: after ∧
    AllAnswered eval before w answers w₁ ∧ h.Fails eval w₁ halt w'

namespace World

variable {w w₁ w₂ : World}

theorem PairsMade.refl (w : World) : w.PairsMade w :=
  ⟨w.nextTag, Nat.le_refl _, rfl⟩

theorem PairsMade.trans (h : w.PairsMade w₁) (h' : w₁.PairsMade w₂) : w.PairsMade w₂ := by
  obtain ⟨n, hn, rfl⟩ := h
  obtain ⟨m, hm, rfl⟩ := h'
  exact ⟨m, Nat.le_trans hn hm, rfl⟩

end World

namespace Hole

variable {eval : Value → Eval Value} {hs hs' : List Hole} {as bs : List (List Value)}
  {w w₁ w₂ : World}

theorem AllAnswered.length_eq (h : AllAnswered eval hs w as w₁) : as.length = hs.length := by
  induction h with
  | nil => rfl
  | cons _ _ _ ih => rw [List.length_cons, List.length_cons, ih]

/-- Pairs may be made beforehand. -/
theorem AllAnswered.since (hw : w.PairsMade w₁) (h : AllAnswered eval hs w₁ as w₂) :
    AllAnswered eval hs w as w₂ := by
  cases h with
  | nil hpairs => exact .nil (hw.trans hpairs)
  | cons hpairs hfirst hrest => exact .cons (hw.trans hpairs) hfirst hrest

theorem AllAnswered.append (h : AllAnswered eval hs w as w₁)
    (h' : AllAnswered eval hs' w₁ bs w₂) : AllAnswered eval (hs ++ hs') w (as ++ bs) w₂ := by
  induction h with
  | nil hpairs => exact h'.since hpairs
  | cons hpairs hfirst _ ih => exact .cons hpairs hfirst (ih h')

/-- Only a hole can fail. -/
theorem not_firstFails_nil {halt : Halt} : ¬ FirstFails eval [] w halt w₁ := by
  rintro ⟨before, h, after, answers, w₂, hsplit, -⟩
  exact absurd hsplit (by simp)

/-- How a computation that fills holes ends: all are answered, and what it gives is related to the
answers; or the first that has no answer fails. -/
def Fill {α : Type} (eval : Value → Eval Value) (hs : List Hole) (w : World)
    (R : List (List Value) → α → Prop) : EStateM.Result Halt World α → Prop
  | .ok a w' => ∃ answers, AllAnswered eval hs w answers w' ∧ R answers a
  | .error halt w' => FirstFails eval hs w halt w'

namespace Fill

variable {α β : Type} {R : List (List Value) → α → Prop} {S : List (List Value) → β → Prop}

/-- The rest of the holes is filled after the first ones. -/
theorem bind {x : Eval α} {k : α → Eval β} (hx : Fill eval hs w R (x w))
    (hk : ∀ as a w₁, as.length = hs.length → R as a →
      Fill eval hs' w₁ (fun bs b => S (as ++ bs) b) (k a w₁)) :
    Fill eval (hs ++ hs') w S ((x >>= k) w) := by
  cases hfirst : x w with
  | error halt w₁ =>
    rw [hfirst] at hx
    rw [Eval.bind_of_error hfirst]
    obtain ⟨before, h, after, answers, w₂, rfl, hanswers, hfails⟩ := hx
    exact ⟨before, h, after ++ hs', answers, w₂, by simp, hanswers, hfails⟩
  | ok a w₁ =>
    rw [hfirst] at hx
    rw [Eval.bind_of_ok hfirst]
    obtain ⟨as, hanswers, hR⟩ := hx
    have hrest := hk as a w₁ hanswers.length_eq hR
    cases hsecond : k a w₁ with
    | ok b w₂ =>
      rw [hsecond] at hrest
      obtain ⟨bs, hanswers', hS⟩ := hrest
      exact ⟨as ++ bs, hanswers.append hanswers', hS⟩
    | error halt w₂ =>
      rw [hsecond] at hrest
      obtain ⟨before, h, after, answers, w₃, rfl, hanswers', hfails⟩ := hrest
      exact ⟨hs ++ before, h, after, as ++ answers, w₃, by simp, hanswers.append hanswers', hfails⟩

theorem mono {Q : List (List Value) → α → Prop} {r : EStateM.Result Halt World α}
    (h : Fill eval hs w R r) (hRQ : ∀ as a, R as a → Q as a) : Fill eval hs w Q r := by
  cases r with
  | error halt w₁ => exact h
  | ok a w₁ =>
    obtain ⟨as, hanswers, hR⟩ := h
    exact ⟨as, hanswers, hRQ as a hR⟩

theorem pure {a : α} (h : R [] a) : Fill eval [] w R ((pure a : Eval α) w) :=
  ⟨[], .nil (.refl w), h⟩

/-- Work without holes, at the end. -/
theorem map {x : Eval α} {k : α → Eval β} (hx : Fill eval hs w R (x w))
    (hk : ∀ as a w₁, as.length = hs.length → R as a → Fill eval [] w₁ (fun _ b => S as b) (k a w₁)) :
    Fill eval hs w S ((x >>= k) w) := by
  rw [← List.append_nil hs]
  refine hx.bind fun as a w₁ hlength hR => ?_
  have hrest := hk as a w₁ hlength hR
  cases hsecond : k a w₁ with
  | error halt w₂ =>
    rw [hsecond] at hrest
    exact absurd hrest not_firstFails_nil
  | ok b w₂ =>
    rw [hsecond] at hrest
    obtain ⟨bs, hanswers, hS⟩ := hrest
    cases hanswers with
    | nil hpairs => exact ⟨[], .nil hpairs, by simpa using hS⟩

/-- An unquote is answered by the value of its payload. -/
theorem value (p : Value) : Fill eval [.value p] w (fun as v => as = [[v]]) (eval p w) := by
  cases heval : eval p w with
  | error halt w₁ => exact ⟨[], _, [], [], w, rfl, .nil (.refl w), .value heval⟩
  | ok v w₁ => exact ⟨[[v]], .cons (.refl w) (.value heval) (.nil (.refl w₁)), rfl⟩

/-- A splice in the place of an element is answered by the elements of a list. -/
theorem elements (p : Value) :
    Fill eval [.elements p] w (fun as vs => as = [vs]) ((eval p >>= fun v => v.spliced) w) := by
  cases heval : eval p w with
  | error halt w₁ =>
    rw [Eval.bind_of_error heval]
    exact ⟨[], _, [], [], w, rfl, .nil (.refl w), .elements heval⟩
  | ok v w₁ =>
    rw [Eval.bind_of_ok heval]
    unfold Value.spliced
    cases hvs : v.elements? with
    | some vs => exact ⟨[vs], .cons (.refl w) (.elements heval hvs) (.nil (.refl w₁)), rfl⟩
    | none => exact ⟨[], _, [], [], w, rfl, .nil (.refl w), .notAList heval hvs⟩

/-- Chains are made of new pairs, and making them takes no answer. -/
theorem newChain (tail : Value) (vs : List Value) :
    Fill eval [] w (fun _ v => v.bare = (Value.chain tail vs).bare)
      (Eval.newChain tail vs w) := by
  induction vs generalizing w with
  | nil => exact pure rfl
  | cons v vs ih =>
    refine map ih fun _ rest w₁ _ hrest => ⟨[], .nil ⟨w₁.nextTag + 1, by omega, rfl⟩, ?_⟩
    show Value.pair none v.bare rest.bare = Value.pair none v.bare (Value.chain tail vs).bare
    rw [hrest]

/-- The holes are filled after a chain has been made. -/
theorem after_newChain {tail : Value} {vs : List Value} {k : Value → Eval β}
    (hk : ∀ v w₁, v.bare = (Value.chain tail vs).bare → Fill eval hs w₁ S (k v w₁)) :
    Fill eval hs w S ((Eval.newChain tail vs >>= k) w) := by
  refine bind (newChain tail vs) fun as v w₁ hlength hv => ?_
  obtain rfl : as = [] := List.eq_nil_of_length_eq_zero hlength
  exact hk v w₁ hv

end Fill

end Hole

/-! ## §3. Filling -/

namespace Value

variable {eval : Value → Eval Value} {w : World}

/-- A chain loses its tags part by part. -/
theorem bare_chain (tail : Value) (vs : List Value) :
    (chain tail vs).bare = chain tail.bare (vs.map bare) := by
  induction vs with
  | nil => rfl
  | cons v vs ih =>
    show pair none v.bare (chain tail vs).bare = _
    rw [ih]
    rfl

/-- What fills a template under a wrapper fills the wrapped template. -/
theorem wrapped_fill {hs : List Hole} {x : Eval (List Value × Value)}
    {template : List (List Value) → Value} {wrap : Value → Value}
    (hx : Hole.Fill eval hs w (fun as p => (chain p.2 p.1).bare = (template as).bare) (x w))
    (hwrap : ∀ {u v : Value}, u.bare = v.bare → (wrap u).bare = (wrap v).bare) :
    Hole.Fill eval hs w (fun as p => (chain p.2 p.1).bare = (wrap (template as)).bare)
      ((x >>= fun p => Eval.newChain p.2 p.1 >>= fun v => pure ([], wrap v)) w) := by
  refine hx.map fun as p w₁ _ hp => Hole.Fill.after_newChain fun v w₂ hv => Hole.Fill.pure ?_
  show (wrap v).bare = _
  exact hwrap (hv.trans hp)

/-- To fill a template at some depth is to fill the holes that it has there. -/
theorem fillParts_fill (d : Nat) (t : Value) (w : World) :
    Hole.Fill eval (t.openings d) w
      (fun as p => (chain p.2 p.1).bare = (t.filled d as).bare) (t.fillParts eval d w) := by
  -- the cases are those of the definition: a splice in the place of an element, an element, a
  -- hole, a wrapper, and a datum kept as it is
  induction d, t using Value.fillParts.induct generalizing w with
  | case1 cell payload r ihr =>
    rw [Value.fillParts.eq_1, ← bind_assoc]
    refine Hole.Fill.bind (Hole.Fill.elements payload) fun as here w₁ _ hhere => ?_
    subst hhere
    refine (ihr w₁).map fun bs p w₂ _ hp => Hole.Fill.pure ?_
    show (chain p.2 (here ++ p.1)).bare = (chain (r.filled 0 bs) here).bare
    rw [chain_append, bare_chain, hp, ← bare_chain]
  | case2 d cell a r hne iha ihr =>
    rw [Value.fillParts.eq_2 eval d cell a r hne, Value.openings.eq_2 d cell a r hne]
    refine Hole.Fill.bind (iha w) fun as p w₁ hlength hp => ?_
    refine Hole.Fill.after_newChain fun v w₂ hv => ?_
    refine (ihr w₂).map fun bs q w₃ _ hq => Hole.Fill.pure ?_
    rw [Value.filled.eq_2 d (as ++ bs) cell a r ?_, ← hlength, List.take_left, List.drop_left]
    · show pair none v.bare (chain q.2 q.1).bare = pair none _ _
      rw [hv, hp, hq]
    · intro payload vs answers hd _ ha
      exact hne payload hd ha
  | case3 payload =>
    refine (Hole.Fill.value payload).map fun as v w₁ _ hv => Hole.Fill.pure ?_
    subst hv
    rfl
  | case4 d v ih => exact wrapped_fill (ih w) (congrArg unquote)
  | case5 v => exact ⟨[], .misplaced, [], [], w, rfl, .nil (.refl w), .misplaced⟩
  | case6 d v ih => exact wrapped_fill (ih w) (congrArg unquoteSplicing)
  | case7 d v ih =>
    simp only [Value.fillParts, openings, filled]
    exact wrapped_fill (ih w) (congrArg quasiquote)
  | case8 d v ih =>
    simp only [Value.fillParts, openings, filled]
    exact wrapped_fill (ih w) (congrArg quote)
  | case9 d v _ hpair hvalue hdeep hsplice hdeepSplice hquasiquote hquote =>
    cases v with
    | pair cell a r => exact (hpair cell a r rfl).elim
    | quasiquote u => exact (hquasiquote u rfl).elim
    | quote u => exact (hquote u rfl).elim
    | unquote u =>
      cases d with
      | zero => exact (hvalue u rfl rfl).elim
      | succ d => exact (hdeep d u rfl rfl).elim
    | unquoteSplicing u =>
      cases d with
      | zero => exact (hsplice u rfl rfl).elim
      | succ d => exact (hdeepSplice d u rfl rfl).elim
    | _ => cases d <;> exact Hole.Fill.pure rfl

/-- A template without holes is filled already. -/
theorem filled_of_openings_eq_nil {d : Nat} {t : Value} (h : t.openings d = []) :
    t.filled d [] = t := by
  induction t generalizing d with
  | pair cell a r iha ihr =>
    have hne : ∀ payload, d = 0 → a = .unquoteSplicing payload → False := by
      rintro payload rfl rfl
      exact absurd h (by simp [openings])
    rw [Value.openings.eq_2 d cell a r hne] at h
    obtain ⟨ha, hr⟩ := List.append_eq_nil_iff.1 h
    rw [Value.filled.eq_2 d [] cell a r (by simp), List.take_nil, List.drop_nil, iha ha, ihr hr]
  | quote v ih =>
    simp only [openings] at h
    simp only [filled, ih h]
  | quasiquote v ih =>
    simp only [openings] at h
    simp only [filled, ih h]
  | unquote v ih =>
    cases d with
    | zero => exact absurd h (by simp [openings])
    | succ d => exact congrArg unquote (ih h)
  | unquoteSplicing v ih =>
    cases d with
    | zero => exact absurd h (by simp [openings])
    | succ d => exact congrArg unquoteSplicing (ih h)
  | _ => cases d <;> rfl

end Value

/-! ## §4. Quasiquote -/

namespace Engine

open Hole (Fill)

theorem fillTemplate_fill (en : Engine) (scope : Scope) (t : Value) (w : World) :
    Fill (en.evalForm scope) (t.openings 0) w (fun answers v => v.bare = (t.filled 0 answers).bare)
      (en.fillTemplate scope t w) := by
  unfold fillTemplate
  refine (Value.fillParts_fill 0 t w).map fun answers p w₁ _ hp => ?_
  exact (Fill.newChain p.2 p.1).mono fun _ v hv => hv.trans hp

/-- Quasiquote is the filling of holes. Evaluating a template evaluates the payloads of the holes
that it has at depth zero, each once and from left to right, and ends with the template in which
every unquote has been replaced by its value and every splice in the place of an element by the
elements of its list, and nothing else has changed; or it stops at the first hole whose payload
fails, is spliced in and gives no list, or is spliced in where there is no list, and fails with just
that. Without holes a template gives itself, and nothing happens but that pairs are made. -/
theorem quasiquote_fills (ctx : Context) (n : Nat) (scope : Scope) (t : Value) (w : World) :
    Fill ((ofDepth ctx n).evalForm scope) (t.openings 0) w
      (fun answers v => v.bare = (t.filled 0 answers).bare)
      ((ofDepth ctx (n + 1)).eval (.literal (.quasiquote t)) scope w) ∧
    (t.openings 0 = [] → ∃ v w', w.PairsMade w' ∧ v.bare = t.bare ∧
      (ofDepth ctx (n + 1)).eval (.literal (.quasiquote t)) scope w = .ok v w') := by
  have hfill := fillTemplate_fill (ofDepth ctx n) scope t w
  refine ⟨hfill, fun hnone => ?_⟩
  show ∃ v w', w.PairsMade w' ∧ v.bare = t.bare ∧ (ofDepth ctx n).fillTemplate scope t w = .ok v w'
  rw [hnone] at hfill
  cases hrun : (ofDepth ctx n).fillTemplate scope t w with
  | error halt w' =>
    rw [hrun] at hfill
    exact absurd hfill Hole.not_firstFails_nil
  | ok v w' =>
    rw [hrun] at hfill
    obtain ⟨answers, hanswers, hv⟩ := hfill
    cases hanswers with
    | nil hpairs =>
      rw [Value.filled_of_openings_eq_nil hnone] at hv
      exact ⟨v, w', hpairs, hv, rfl⟩

/-- The unquote in `(a `(b ,(c . d)))` stands at depth one: the template gives itself. -/
theorem quasiquote_fills_nested :
    let t := Value.ofList [.symbol "a", .quasiquote (Value.ofList [.symbol "b",
      .unquote (.pair none (.symbol "c") (.symbol "d"))])]
    t.openings 0 = [] ∧ ∃ v w', World.initial.PairsMade w' ∧ v.bare = t.bare ∧
      (ofDepth ⟨.default, ⟨[], []⟩⟩ 1).eval (.literal (.quasiquote t)) rootScope World.initial =
        .ok v w' :=
  ⟨rfl, (quasiquote_fills _ 0 rootScope _ World.initial).2 rfl⟩

end Engine

end TinyLisp
