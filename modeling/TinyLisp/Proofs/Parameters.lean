import TinyLisp.Proofs.Bindings

/-!
# Parameters and their arguments

A list of names is a parameter list if the names in it are distinct and the marker stands nowhere, or
once and last but one (`Params.exists_ofNames_iff`). Validation, arity and binding then fit together:
arguments can be bound in a fresh frame exactly if their number is right, and every name gets what is
its own (`Params.Bound`), since no name is bound twice. Otherwise nothing is bound at all
(`Params.arguments_fit`).
-/

namespace TinyLisp

namespace Params

variable {p : Params} {names : List String}

/-! ## §1. Lists of names -/

/-- The marker stands nowhere in a list of names, or once and last but one. -/
def MarkerFits (names : List String) : Prop :=
  restMark ∉ names ∨
    names.count restMark = 1 ∧ ∃ i, i + 2 = names.length ∧ names[i]? = some restMark

/-- Without the marker, the names that spell a parameter list are those that it binds. -/
theorem filter_toNames (h : restMark ∉ p.names) : p.toNames.filter (· ≠ restMark) = p.names := by
  have hkept : p.names.filter (· ≠ restMark) = p.names := by
    rw [List.filter_eq_self]
    intro name hname
    exact decide_eq_true fun heq => h (heq ▸ hname)
  obtain ⟨fixed, _ | r⟩ := p
  · exact hkept
  · -- the marker is the one name that is left out
    have hskip : [restMark, r].filter (· ≠ restMark) = [r].filter (· ≠ restMark) := by simp
    show (fixed ++ [restMark, r]).filter (· ≠ restMark) = fixed ++ [r]
    rw [List.filter_append, hskip, ← List.filter_append]
    exact hkept

theorem markerFits_toNames (h : restMark ∉ p.names) : MarkerFits p.toNames := by
  obtain ⟨fixed, _ | r⟩ := p
  · exact .inl h
  · simp only [Params.names, Option.toList_some, List.mem_append, List.mem_singleton, not_or] at h
    refine .inr ⟨?_, fixed.length, by simp [toNames], by simp [toNames]⟩
    simp [toNames, List.count_eq_zero.2 h.1, Ne.symm h.2]

/-- A list in which the marker stands once and last but one ends in the marker and a name. -/
theorem exists_of_count_one {i : Nat} (hcount : names.count restMark = 1)
    (hi : i + 2 = names.length) (hmark : names[i]? = some restMark) :
    ∃ fixed r, names = fixed ++ [restMark, r] ∧ restMark ∉ fixed ∧ r ≠ restMark := by
  obtain ⟨hlt, hfirst⟩ := List.getElem?_eq_some_iff.1 hmark
  have hsplit : names = names.take i ++ [restMark, names[i + 1]] := by
    have hdrop : names.drop i = [restMark, names[i + 1]] := by
      rw [List.drop_eq_getElem_cons hlt, List.drop_eq_getElem_cons (by omega), hfirst,
        List.drop_eq_nil_of_le (by omega)]
    rw [← hdrop, List.take_append_drop]
  refine ⟨_, _, hsplit, ?_⟩
  rw [hsplit, List.count_append, List.count_cons_self] at hcount
  exact ⟨List.count_eq_zero.1 (by omega), fun hr => by simp [hr] at hcount⟩

/-- The lists of names that are parameter lists. -/
theorem exists_ofNames_iff (names : List String) : (∃ p, ofNames names = .ok p) ↔
    (names.filter (· ≠ restMark)).Nodup ∧ MarkerFits names := by
  constructor
  · rintro ⟨p, hp⟩
    obtain ⟨rfl, hnodup, hmark⟩ := ofNames_eq_ok_iff.1 hp
    rw [filter_toNames hmark]
    exact ⟨hnodup, markerFits_toNames hmark⟩
  · rintro ⟨hnodup, hfits⟩
    obtain ⟨p, rfl, hmark⟩ : ∃ p : Params, p.toNames = names ∧ restMark ∉ p.names := by
      rcases hfits with hmark | ⟨hcount, i, hi, hmark⟩
      · exact ⟨⟨names, none⟩, List.append_nil names, by simpa [Params.names] using hmark⟩
      · obtain ⟨fixed, r, rfl, hfixed, hr⟩ := exists_of_count_one hcount hi hmark
        exact ⟨⟨fixed, some r⟩, rfl, by simp [Params.names, hfixed, Ne.symm hr]⟩
    rw [filter_toNames hmark] at hnodup
    exact ⟨p, ofNames_eq_ok_iff.2 ⟨rfl, hnodup, hmark⟩⟩

/-! ## §2. Arguments -/

/-- In a frame, the parameters have their arguments and nothing else is bound: the fixed parameters by
position, and the rest parameter the list of all other arguments. -/
structure Bound (p : Params) (args : List Value) (s : Store) (f : FrameId) : Prop where
  names : ∀ name, s.binds f name = true ↔ name ∈ p.names
  fixed : ∀ (i : Nat) name, p.fixed[i]? = some name →
    ∃ slot v, args[i]? = some v ∧ s.slotIn? f name = some slot ∧ s.content slot = some v
  rest : ∀ name, p.rest = some name →
    ∃ slot v, s.slotIn? f name = some slot ∧ s.content slot = some v ∧
      v.elements? = some (args.drop p.fixed.length)

variable {args : List Value} {s : Store} {f : FrameId}

/-- A fixed parameter that fits has the argument of its place. -/
theorem mem_bindings_of_fixed (h : p.arity.contains args.length = true) (rest : Value) {i : Nat}
    {name : String} (hi : p.fixed[i]? = some name) :
    ∃ v, args[i]? = some v ∧ (name, v) ∈ p.bindings args rest := by
  obtain ⟨hlt, rfl⟩ := List.getElem?_eq_some_iff.1 hi
  have hargs : i < args.length := Nat.lt_of_lt_of_le hlt (length_fixed_le h)
  refine ⟨args[i], List.getElem?_eq_getElem hargs, List.mem_append_left _ ?_⟩
  have hzip : i < (p.fixed.zip args).length := by
    rw [List.length_zip]
    omega
  have hmem := List.getElem_mem hzip
  rwa [List.getElem_zip] at hmem

/-- Arguments that fit are bound to the parameters in a fresh frame. -/
theorem bound_of_contains {rest : Value} (hnodup : p.names.Nodup)
    (h : p.arity.contains args.length = true) (hf : f < s.frames.size) (hempty : s.frame f = [])
    (hrest : rest.elements? = some (args.drop p.fixed.length)) :
    p.Bound args (s.bindAll f (p.bindings args rest)) f := by
  have hkeys := bindings_fst h rest
  have hnone : ∀ name, s.slotIn? f name = none := by
    intro name
    unfold Store.slotIn?
    rw [hempty]
    rfl
  -- the names are distinct, so that each is given a slot of its own and none is filled again
  obtain ⟨-, hbound, hothers⟩ := Store.bindAll_new s (p.bindings args rest) hf (hkeys ▸ hnodup)
    fun name _ => hnone name
  rw [hkeys] at hothers
  refine ⟨?_, ?_, ?_⟩
  · intro name
    unfold Store.binds
    by_cases hname : name ∈ p.names
    · rw [← hkeys] at hname
      obtain ⟨slot, hslot⟩ := Store.exists_slotIn?_bindAll hf hname
      rw [hkeys] at hname
      simp [hslot, hname]
    · rw [hothers name hname, hnone]
      simp [hname]
  · intro i name hi
    obtain ⟨v, hv, hb⟩ := mem_bindings_of_fixed h rest hi
    obtain ⟨slot, hslot, hcontent⟩ := hbound (name, v) hb
    exact ⟨slot, v, hv, hslot, hcontent⟩
  · intro name hname
    have hb : (name, rest) ∈ p.bindings args rest := by simp [bindings, hname]
    obtain ⟨slot, hslot, hcontent⟩ := hbound (name, rest) hb
    exact ⟨slot, rest, hslot, hcontent, hrest⟩

/-- The arity of a parameter list: as many arguments as there are fixed parameters, or also more of
them if there is a rest parameter. -/
theorem contains_arity_iff (p : Params) (n : Nat) : p.arity.contains n = true ↔
    if p.rest = none then n = p.fixed.length else p.fixed.length ≤ n := by
  unfold arity
  cases p.rest with
  | none => simpa using Arity.contains_exactly
  | some r => simpa using Arity.contains_atLeast

/-- The fixed parameters find an argument each, so that they can be bound one by one. -/
theorem bindExactly_of_contains (h : p.arity.contains args.length = true) (s : Store)
    (f : FrameId) : ∃ s', s.bindExactly f p.fixed (args.take p.fixed.length) = .ok s' := by
  have hlength : (args.take p.fixed.length).length = p.fixed.length := by
    rw [List.length_take, Nat.min_eq_left (length_fixed_le h)]
  unfold Store.bindExactly Arity.check
  rw [hlength, if_pos (Arity.contains_exactly.2 rfl)]
  exact ⟨_, rfl⟩

/-- Arguments that do not fit are refused before anything is bound. -/
theorem bindParams_error (h : ¬ p.arity.contains args.length = true) (scope : Scope)
    (label : String) (w : World) : Eval.bindParams p args scope label w =
      .error (.failed (.arity ⟨label, p.arity, args.length⟩)) w := by
  unfold Eval.bindParams
  rw [Eval.checkArity_of_not_contains h]
  rfl

/-! ## §3. Parameter lists and their arguments -/

/-- Parameter lists and the binding of arguments fit together. A list of names is accepted exactly if
the names other than the marker are distinct and the marker stands nowhere, or once and last but one;
the parameter list is the one that the names spell. In a fresh frame arguments are bound to it exactly
if there are as many as its arity says. Then there is an argument for every fixed parameter, and the
frame binds the names of the list and no others: the fixed ones to the arguments by position, and that
of the rest parameter to the list of all others in order. Otherwise the number is what the failure is
about, and nothing has changed. -/
theorem arguments_fit :
    (∀ names, (∃ p, ofNames names = .ok p) ↔
      (names.filter (· ≠ restMark)).Nodup ∧ MarkerFits names) ∧
    ∀ names p, ofNames names = .ok p →
      p.toNames = names ∧
      (∀ n, p.arity.contains n = true ↔
        if p.rest = none then n = p.fixed.length else p.fixed.length ≤ n) ∧
      ∀ (w : World) (f : FrameId) (outer : Scope) (args : List Value) (label : String),
        f < w.store.frames.size → w.store.frame f = [] →
        ((∃ w', Eval.bindParams p args (f :: outer) label w = .ok () w') ↔
          p.arity.contains args.length = true) ∧
        (p.arity.contains args.length = true → p.fixed.length ≤ args.length ∧
          ∃ s, w.store.bindExactly f p.fixed (args.take p.fixed.length) = .ok s) ∧
        (∀ w', Eval.bindParams p args (f :: outer) label w = .ok () w' →
          p.Bound args w'.store f) ∧
        ∀ e w', Eval.bindParams p args (f :: outer) label w = .error e w' →
          e = .failed (.arity ⟨label, p.arity, args.length⟩) ∧ w' = w := by
  refine ⟨exists_ofNames_iff, fun names p hp => ?_⟩
  obtain ⟨hnames, hnodup, -⟩ := ofNames_eq_ok_iff.1 hp
  refine ⟨hnames, contains_arity_iff p, fun w f outer args label hf hempty => ?_⟩
  by_cases h : p.arity.contains args.length = true
  · obtain ⟨rest, n, hrest, hrun⟩ := Eval.bindParams_ok h f outer label w
    have hbound := bound_of_contains hnodup h hf hempty hrest
    refine ⟨⟨fun _ => h, fun _ => ⟨_, hrun⟩⟩,
      fun _ => ⟨length_fixed_le h, bindExactly_of_contains h w.store f⟩, ?_, ?_⟩
    · intro w' hw'
      rw [hrun] at hw'
      cases hw'
      exact hbound
    · intro e w' hw'
      rw [hrun] at hw'
      exact absurd hw' (by simp)
  · have hrun := bindParams_error h (f :: outer) label w
    refine ⟨⟨?_, fun h' => absurd h' h⟩, fun h' => absurd h' h, ?_, ?_⟩
    · rintro ⟨w', hw'⟩
      rw [hrun] at hw'
      exact absurd hw' (by simp)
    · intro w' hw'
      rw [hrun] at hw'
      exact absurd hw' (by simp)
    · intro e w' hw'
      rw [hrun] at hw'
      cases hw'
      exact ⟨rfl, rfl⟩

/-- One fixed parameter and a rest parameter take three arguments; without any they are refused. -/
theorem arguments_fit_surplus :
    let p : Params := ⟨["a"], some "more"⟩
    let args : List Value := [.int 1, .int 2, .int 3]
    ofNames ["a", "&rest", "more"] = .ok p ∧ rootFrame < World.initial.store.frames.size ∧
      World.initial.store.frame rootFrame = [] ∧
      (∃ w', Eval.bindParams p args rootScope "f" .initial = .ok () w' ∧
        p.Bound args w'.store rootFrame) ∧
      ∀ w', Eval.bindParams p [] rootScope "f" .initial ≠ .ok () w' := by
  intro p args
  have hp : ofNames ["a", "&rest", "more"] = .ok p := rfl
  obtain ⟨-, -, hbind⟩ := arguments_fit.2 _ p hp
  have hlt : rootFrame < World.initial.store.frames.size := by decide
  have hempty : World.initial.store.frame rootFrame = [] := rfl
  obtain ⟨hok, -, hbound, -⟩ := hbind .initial rootFrame [] args "f" hlt hempty
  obtain ⟨w', hw'⟩ := hok.2 rfl
  refine ⟨hp, hlt, hempty, ⟨w', hw', hbound w' hw'⟩, fun w' hw' => ?_⟩
  have hnone := ((hbind .initial rootFrame [] [] "f" hlt hempty).1).1 ⟨w', hw'⟩
  exact absurd hnone (by decide)

end Params

end TinyLisp
