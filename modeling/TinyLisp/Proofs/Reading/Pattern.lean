import TinyLisp.Text.Blank
import Mathlib.Data.List.Basic

/-!
# Patterns

Regular patterns over characters, matched in order of preference. At the head of a text a pattern
has a list of ways to match, the preferred one first: an alternative prefers its first branch, a
repetition prefers one more turn. `Pattern.search` takes the preferred way at the first place of
the text that has one. Of a pattern a part can be marked, and a way says what that part took.

`Prefers` names the preferred way. Its rules follow the constructors, as long as no part has to
give back what it took for the sake of a later one.
-/

namespace TinyLisp

/-- A regular pattern over characters. -/
inductive Pattern
  | empty
  | char (p : Char → Bool)
  | seq (p q : Pattern)
  /-- The first of the two, or else the second. -/
  | alt (p q : Pattern)
  /-- As many turns as can be. -/
  | star (p : Pattern)
  /-- A part whose text is kept. -/
  | mark (p : Pattern)

namespace Pattern

/-- One way to match at the head of a text: what it takes, what the marked part takes, and what it
leaves. -/
structure Way where
  taken : List Char
  marked : Option (List Char)
  rest : List Char

namespace Way

/-- To take nothing. -/
def stay (cs : List Char) : Way :=
  ⟨[], none, cs⟩

/-- One way after another. -/
def join (v w : Way) : Way :=
  ⟨v.taken ++ w.taken, w.marked.or v.marked, w.rest⟩

/-- The ways to take a number of turns, up to a limit; a turn takes something. -/
def turns (step : List Char → List Way) : Nat → List Char → List Way
  | 0, cs => [stay cs]
  | n + 1, cs =>
    ((step cs).filter fun v => !v.taken.isEmpty).flatMap
      (fun v => (turns step n v.rest).map v.join) ++ [stay cs]

end Way

/-- The ways to match at the head of a text, the preferred one first. -/
def ways : Pattern → List Char → List Way
  | empty, cs => [Way.stay cs]
  | char _, [] => []
  | char p, c :: cs => if p c then [⟨[c], none, cs⟩] else []
  | seq p q, cs => (p.ways cs).flatMap fun v => (q.ways v.rest).map v.join
  | alt p q, cs => p.ways cs ++ q.ways cs
  | star p, cs => Way.turns p.ways cs.length cs
  | mark p, cs => (p.ways cs).map fun w => { w with marked := some w.taken }

/-- A match in a text: how far from its head, and which way. -/
structure Match where
  start : Nat
  way : Way

/-- Where a match ends. -/
def Match.stop (m : Match) : Nat :=
  m.start + m.way.taken.length

/-- The preferred way at the first place that has one. -/
def search (p : Pattern) : List Char → Option Match
  | [] => (p.ways []).head?.map (Match.mk 0)
  | c :: cs =>
    match (p.ways (c :: cs)).head? with
    | some w => some ⟨0, w⟩
    | none => (p.search cs).map fun m => ⟨m.start + 1, m.way⟩

/-! ## §1. What a way takes and leaves -/

theorem turns_append {step : List Char → List Way}
    (hstep : ∀ cs, ∀ w ∈ step cs, w.taken ++ w.rest = cs) (n : Nat) (cs : List Char) :
    ∀ w ∈ Way.turns step n cs, w.taken ++ w.rest = cs := by
  induction n generalizing cs with
  | zero =>
    intro w hw
    rw [List.mem_singleton.1 hw]
    rfl
  | succ n ih =>
    intro w hw
    rcases List.mem_append.1 hw with hw | hw
    · obtain ⟨v, hv, hw⟩ := List.mem_flatMap.1 hw
      obtain ⟨u, hu, rfl⟩ := List.mem_map.1 hw
      have hfirst := hstep cs v (List.mem_filter.1 hv).1
      have hlater := ih v.rest u hu
      show (v.taken ++ u.taken) ++ u.rest = cs
      rw [List.append_assoc, hlater, hfirst]
    · rw [List.mem_singleton.1 hw]
      rfl

/-- What a way takes, and then what it leaves, is the text. -/
theorem ways_append (p : Pattern) (cs : List Char) :
    ∀ w ∈ p.ways cs, w.taken ++ w.rest = cs := by
  induction p generalizing cs with
  | empty =>
    intro w hw
    rw [List.mem_singleton.1 hw]
    rfl
  | char p =>
    intro w hw
    cases cs with
    | nil => cases hw
    | cons c cs =>
      unfold ways at hw
      split at hw
      · rw [List.mem_singleton.1 hw]
        rfl
      · cases hw
  | seq p q ihp ihq =>
    intro w hw
    obtain ⟨v, hv, hw⟩ := List.mem_flatMap.1 hw
    obtain ⟨u, hu, rfl⟩ := List.mem_map.1 hw
    show (v.taken ++ u.taken) ++ u.rest = cs
    rw [List.append_assoc, ihq v.rest u hu, ihp cs v hv]
  | alt p q ihp ihq =>
    intro w hw
    rcases List.mem_append.1 hw with hw | hw
    · exact ihp cs w hw
    · exact ihq cs w hw
  | star p ih => exact turns_append ih cs.length cs
  | mark p ih =>
    intro w hw
    obtain ⟨v, hv, rfl⟩ := List.mem_map.1 hw
    exact ih cs v hv

/-- A turn takes something, so what it leaves is shorter. -/
theorem rest_lt_of_turn {step : List Char → List Way}
    (hstep : ∀ cs, ∀ w ∈ step cs, w.taken ++ w.rest = cs) {cs : List Char} {v : Way}
    (hv : v ∈ (step cs).filter fun v => !v.taken.isEmpty) : v.rest.length < cs.length := by
  have hlen := congrArg List.length (hstep cs v (List.mem_filter.1 hv).1)
  rw [List.length_append] at hlen
  have htaken := (List.mem_filter.1 hv).2
  have hpos : v.taken.length ≠ 0 := by
    intro hzero
    rw [List.length_eq_zero_iff.1 hzero] at htaken
    simp at htaken
  omega

/-- A limit on the turns that is not below the length of the text is none. -/
theorem turns_limit {step : List Char → List Way}
    (hstep : ∀ cs, ∀ w ∈ step cs, w.taken ++ w.rest = cs) {n m : Nat} {cs : List Char}
    (hn : cs.length ≤ n) (hm : cs.length ≤ m) : Way.turns step n cs = Way.turns step m cs := by
  have hnothing : (step []).filter (fun v => !v.taken.isEmpty) = [] := by
    rw [List.filter_eq_nil_iff]
    intro v hv
    have hempty : v.taken = [] := (List.append_eq_nil_iff.1 (hstep [] v hv)).1
    simp [hempty]
  induction n generalizing m cs with
  | zero =>
    have hcs : cs = [] := List.length_eq_zero_iff.1 (by omega)
    subst hcs
    cases m with
    | zero => rfl
    | succ m => simp [Way.turns, hnothing]
  | succ n ih =>
    cases m with
    | zero =>
      have hcs : cs = [] := List.length_eq_zero_iff.1 (by omega)
      subst hcs
      simp [Way.turns, hnothing]
    | succ m =>
      unfold Way.turns
      congr 1
      refine List.flatMap_congr ?_
      intro v hv
      have hshort := rest_lt_of_turn hstep hv
      have hm' : v.rest.length ≤ m := by omega
      rw [ih (by omega) hm']

/-- A repetition is one more turn and then the repetition again, or nothing. -/
theorem ways_star (p : Pattern) (cs : List Char) :
    p.star.ways cs = ((p.ways cs).filter fun v => !v.taken.isEmpty).flatMap
      (fun v => (p.star.ways v.rest).map v.join) ++ [Way.stay cs] := by
  have hstep := p.ways_append
  calc p.star.ways cs
      = Way.turns p.ways (cs.length + 1) cs := turns_limit hstep (Nat.le_refl _) (Nat.le_succ _)
    _ = _ := by
      unfold Way.turns
      congr 1
      refine List.flatMap_congr ?_
      intro v hv
      have hshort := Nat.le_of_lt (rest_lt_of_turn hstep hv)
      exact congrArg (List.map v.join) (turns_limit hstep hshort (Nat.le_refl _))

/-! ## §2. The preferred way -/

/-- The way that a pattern prefers at the head of a text. -/
def Prefers (p : Pattern) (cs : List Char) (w : Way) : Prop :=
  (p.ways cs).head? = some w

variable {p q : Pattern} {cs : List Char} {v w : Way}

theorem Prefers.append (h : p.Prefers cs w) : w.taken ++ w.rest = cs :=
  p.ways_append cs w (List.mem_of_mem_head? h)

theorem prefers_empty (cs : List Char) : empty.Prefers cs (.stay cs) := rfl

theorem prefers_char {f : Char → Bool} {c : Char} (h : f c = true) (cs : List Char) :
    (char f).Prefers (c :: cs) ⟨[c], none, cs⟩ := by
  simp [Prefers, ways, h]

theorem ways_char_eq_nil {f : Char → Bool} (h : ∀ c ∈ cs.head?, f c = false) :
    (char f).ways cs = [] := by
  cases cs with
  | nil => rfl
  | cons c cs => simp [ways, h c (by simp)]

theorem ways_seq_eq_nil (h : p.ways cs = []) : (p.seq q).ways cs = [] := by
  simp [ways, h]

theorem Prefers.seq (h : p.Prefers cs v) (h' : q.Prefers v.rest w) :
    (p.seq q).Prefers cs (v.join w) := by
  obtain ⟨vs, hvs⟩ := List.head?_eq_some_iff.1 h
  obtain ⟨ws, hws⟩ := List.head?_eq_some_iff.1 h'
  simp [Prefers, ways, hvs, hws]

theorem Prefers.left (h : p.Prefers cs w) (q : Pattern) : (p.alt q).Prefers cs w := by
  obtain ⟨ws, hws⟩ := List.head?_eq_some_iff.1 h
  simp [Prefers, ways, hws]

theorem Prefers.right (h : q.Prefers cs w) (hp : p.ways cs = []) : (p.alt q).Prefers cs w := by
  unfold Prefers ways
  rw [hp]
  exact h

theorem Prefers.mark (h : p.Prefers cs w) :
    p.mark.Prefers cs { w with marked := some w.taken } := by
  obtain ⟨ws, hws⟩ := List.head?_eq_some_iff.1 h
  simp [Prefers, ways, hws]

/-- No turn can be taken. -/
theorem prefers_star_stay (h : p.ways cs = []) : p.star.Prefers cs (.stay cs) := by
  unfold Prefers
  rw [ways_star, h]
  rfl

/-- One more turn. -/
theorem Prefers.turn (h : p.Prefers cs v) (hv : v.taken ≠ []) (hw : p.star.Prefers v.rest w) :
    p.star.Prefers cs (v.join w) := by
  obtain ⟨vs, hvs⟩ := List.head?_eq_some_iff.1 h
  obtain ⟨ws, hws⟩ := List.head?_eq_some_iff.1 hw
  unfold Prefers
  rw [ways_star, hvs]
  simp [hv, hws]

/-- A repeated character takes the longest run. -/
theorem prefers_run (f : Char → Bool) (cs : List Char) :
    (char f).star.Prefers cs ⟨cs.takeWhile f, none, cs.dropWhile f⟩ := by
  induction cs with
  | nil => exact prefers_star_stay rfl
  | cons c cs ih =>
    cases hc : f c with
    | false =>
      simp only [List.takeWhile_cons, List.dropWhile_cons, hc]
      exact prefers_star_stay (ways_char_eq_nil (by simpa using hc))
    | true =>
      simp only [List.takeWhile_cons, List.dropWhile_cons, hc]
      exact (prefers_char hc cs).turn (by simp) ih

/-- Where a pattern has a way at the head of the text, the search takes it there. -/
theorem Prefers.search (h : p.Prefers cs w) : p.search cs = some ⟨0, w⟩ := by
  cases cs with
  | nil =>
    unfold Pattern.search
    rw [show (p.ways []).head? = some w from h]
    rfl
  | cons c cs =>
    unfold Pattern.search
    rw [show (p.ways (c :: cs)).head? = some w from h]

end Pattern

end TinyLisp
