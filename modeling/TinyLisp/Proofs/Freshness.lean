import TinyLisp.Proofs.History
import TinyLisp.Proofs.Reading.Number
import Mathlib.Algebra.Group.Nat.Defs

/-!
# Fresh names are distinct

All sessions of a process share one counter of fresh names (`Process`). What a process does is a
sequence of actions: it starts a session, or one of its sessions takes a step. At every depth the
tasks of an action come in an order, and so do the names that they hand out (`Coined`), whatever
asks for them: a form, the body of a function or of an expander, a module or a file.

A name ends in the count behind its last underscore, so that its stem and its count can be read off
it (`Gensym.nameOf_inj`), and along a run the counter takes every value once (`Gensym.Counts`). It
follows that a process does not hand out a name twice before the counter has gone round
(`Process.fresh_names_distinct`).
-/

namespace TinyLisp

/-! ## §1. Stems and counts -/

namespace Gensym

/-- The digits of a name are what follows its last underscore. -/
theorem takeWhile_reverse_nameOf (stem : String) (n : UInt64) :
    (nameOf stem n).toList.reverse.takeWhile (· ≠ '_') = (Nat.toDigits 10 n.toNat).reverse := by
  have hdigits : ∀ c ∈ (Nat.toDigits 10 n.toNat).reverse, (decide (c ≠ '_')) = true := by
    intro c hc
    have hdigit := isDigit_toDigits c (List.mem_reverse.1 hc)
    refine decide_eq_true ?_
    rintro rfl
    exact absurd hdigit (by decide)
  have hunderscores : "__".toList = ['_', '_'] := rfl
  unfold nameOf
  rw [String.toList_append, String.toList_append, Nat.toList_repr, List.reverse_append,
    List.reverse_append, hunderscores, List.takeWhile_append_of_pos hdigits]
  simp

/-- A stem and a count can be read off the name that they make, whatever the stem. -/
theorem nameOf_inj {stem stem' : String} {n n' : UInt64} :
    nameOf stem n = nameOf stem' n' ↔ stem = stem' ∧ n = n' := by
  constructor
  · intro h
    have hcount : n = n' := by
      have hlast := takeWhile_reverse_nameOf stem n
      rw [h, takeWhile_reverse_nameOf, List.reverse_inj] at hlast
      have hvalue := congrArg Decimal.ofDigits hlast
      rw [ofDigits_toDigits, ofDigits_toDigits] at hvalue
      exact (UInt64.toNat_inj.1 hvalue).symm
    subst hcount
    refine ⟨String.toList_inj.1 ?_, rfl⟩
    have htexts : (nameOf stem n).toList = (nameOf stem' n).toList := congrArg _ h
    unfold nameOf at htexts
    simp only [String.toList_append] at htexts
    exact List.append_cancel_right (List.append_cancel_right htexts)
  · rintro ⟨rfl, rfl⟩
    rfl

/-- Names handed out one after another, from one state of the counter to another. -/
inductive Counts : Gensym → List String → Gensym → Prop
  | nil (g : Gensym) : Counts g [] g
  | cons {g g' : Gensym} (stem : String) {names : List String}
    (h : Counts (g.fresh stem).2 names g') : Counts g ((g.fresh stem).1 :: names) g'

namespace Counts

variable {g g' g'' : Gensym} {names names' : List String}

theorem append (h : Counts g names g') (h' : Counts g' names' g'') :
    Counts g (names ++ names') g'' := by
  induction h with
  | nil g => exact h'
  | cons stem _ ih => exact .cons stem (ih h')

/-- The counter has gone on by the number of the names. -/
theorem next_eq (h : Counts g names g') : g'.next = g.next + UInt64.ofNat names.length := by
  induction h with
  | nil g => exact (UInt64.add_zero g.next).symm
  | @cons g g' stem names _ ih =>
    rw [ih, List.length_cons, UInt64.ofNat_add, UInt64.add_comm (UInt64.ofNat names.length),
      ← UInt64.add_assoc]
    rfl

/-- Each name has the count of its place. -/
theorem exists_of_mem (h : Counts g names g') {name : String} (hname : name ∈ names) :
    ∃ stem k, k < names.length ∧ name = nameOf stem (g.next + UInt64.ofNat k) := by
  induction h with
  | nil g => exact absurd hname (by simp)
  | @cons g g' stem names _ ih =>
    rcases List.mem_cons.1 hname with rfl | hname
    · exact ⟨stem, 0, by simp, by simp [fresh]⟩
    · obtain ⟨stem', k, hk, rfl⟩ := ih hname
      refine ⟨stem', k + 1, by simpa using hk, congrArg _ ?_⟩
      show g.next + 1 + UInt64.ofNat k = g.next + UInt64.ofNat (k + 1)
      rw [UInt64.ofNat_add, UInt64.add_assoc, UInt64.add_comm 1]
      rfl

/-- Names are distinct as long as the counter does not go round. -/
theorem nodup (h : Counts g names g') (hfew : names.length < 2 ^ 64) : names.Nodup := by
  induction h with
  | nil g => exact .nil
  | @cons g g' stem names hrest ih =>
    have hlength : names.length + 1 < 2 ^ 64 := hfew
    refine List.nodup_cons.2 ⟨?_, ih (by omega)⟩
    intro hmem
    obtain ⟨stem', k, hk, heq⟩ := hrest.exists_of_mem hmem
    -- a later name of the same text would have the same count
    have hcount : g.next = g.next + 1 + UInt64.ofNat k := (nameOf_inj.1 heq).2
    have hround : g.next.toNat = (g.next.toNat + (k + 1)) % 2 ^ 64 := by
      have htoNat := congrArg UInt64.toNat hcount
      rw [UInt64.toNat_add, UInt64.toNat_add, UInt64.toNat_ofNat'] at htoNat
      have hone : UInt64.toNat 1 = 1 := rfl
      omega
    have hbound := g.next.toNat_lt
    omega

end Counts

end Gensym

/-! ## §2. Names handed out by tasks -/

/-- The tasks that a computation asks an engine for, in their order, if no fresh name is handed out
but by the tasks. -/
def Engine.CalmTrail (en : Engine) (x : Engine → Eval Value) (w : World)
    (l : List (Task × World)) : Prop :=
  ∃ c : Course Value, (∀ en', x en' w = c.under en') ∧ c.Paced World.Calm World.Nameless w ∧
    c.tasks en = l

namespace Engine

variable {en : Engine} {x : Engine → Eval Value} {w : World} {l : List (Task × World)}

theorem exists_calmTrail (h : Eval.Follows World.Calm World.Nameless x) (en : Engine) (w : World) :
    ∃ l, en.CalmTrail x w l := by
  obtain ⟨c, hc, hpaced⟩ := h w
  exact ⟨c.tasks en, c, hc, hpaced, rfl⟩

theorem CalmTrail.trail (h : en.CalmTrail x w l) : en.Trail x w l := by
  obtain ⟨c, hc, hpaced, hl⟩ := h
  exact ⟨c, hc, Course.paced_still_iff.1 (hpaced.mono (fun h => h.still) fun h => h.grows), hl⟩

/-- The call of the operation that makes fresh names consults about nothing. -/
theorem not_consults_of_coins {ctx : Context} {t t' : Task} {w' : World} (ht : t.Coins) :
    ¬ en.Consults (fun en => en.step ctx t) w t' w' := by
  obtain ⟨args⟩ := ht
  rintro ⟨en', -, hne⟩
  refine hne ?_
  show Primitive.gensym.call en' args w = Primitive.gensym.call en args w
  rcases Primitive.call_gensym args w with ⟨stem, hcall⟩ | ⟨e, hcall⟩
  · rw [hcall, hcall]
  · rw [hcall, hcall]

end Engine

/-- When an engine with some levels of recursion performs tasks, each of them in a world of its own,
it hands out these names in this order. -/
inductive Coined (ctx : Context) : Nat → List (Task × World) → List String → Prop
  | none (n : Nat) : Coined ctx n [] []
  | exhausted {t : Task} {w : World} {l : List (Task × World)} {names : List String}
    (h : Coined ctx 0 l names) : Coined ctx 0 ((t, w) :: l) names
  | name {n : Nat} {args : List Value} {w w' : World} {name : String} {l : List (Task × World)}
    {names : List String} (h : Coined ctx (n + 1) l names)
    (hname : Primitive.gensym.call (Engine.ofDepth ctx n) args w = .ok (.symbol name) w') :
    Coined ctx (n + 1) ((.apply (.primitive .gensym) args, w) :: l) (name :: names)
  | refusal {n : Nat} {args : List Value} {w w' : World} {e : Halt} {l : List (Task × World)}
    {names : List String} (h : Coined ctx (n + 1) l names)
    (hfails : Primitive.gensym.call (Engine.ofDepth ctx n) args w = .error e w') :
    Coined ctx (n + 1) ((.apply (.primitive .gensym) args, w) :: l) names
  | task {n : Nat} {t : Task} {w : World} {l l' : List (Task × World)} {names names' : List String}
    (h : Coined ctx (n + 1) l names) (ht : ¬ t.Coins)
    (hl' : (Engine.ofDepth ctx n).CalmTrail (fun en => en.step ctx t) w l')
    (h' : Coined ctx n l' names') : Coined ctx (n + 1) ((t, w) :: l) (names' ++ names)

/-- A task hands out names in an order. -/
theorem exists_coined (ctx : Context) (n : Nat) (l : List (Task × World)) :
    ∃ names, Coined ctx n l names := by
  -- on the depth, and then on the tasks
  induction n generalizing l with
  | zero =>
    induction l with
    | nil => exact ⟨[], .none 0⟩
    | cons p l ih =>
      obtain ⟨names, h⟩ := ih
      exact ⟨names, .exhausted h⟩
  | succ n ihn =>
    induction l with
    | nil => exact ⟨[], .none (n + 1)⟩
    | cons p l ih =>
      obtain ⟨t, w⟩ := p
      obtain ⟨names, h⟩ := ih
      by_cases ht : t.Coins
      · obtain ⟨args⟩ := ht
        rcases Primitive.call_gensym args w with ⟨stem, hcall⟩ | ⟨e, hcall⟩
        · exact ⟨_, .name h (hcall _)⟩
        · exact ⟨_, .refusal h (hcall _)⟩
      · obtain ⟨l', hl'⟩ :=
          Engine.exists_calmTrail (Engine.follows_step_nameless ht) (Engine.ofDepth ctx n) w
        obtain ⟨names', h'⟩ := ihn l'
        exact ⟨_, .task h ht hl' h'⟩

/-- The names that tasks hand out are counted through on a calm course with these tasks, from where
it begins to where it ends. -/
def CountedThrough (en : Engine) (l : List (Task × World)) (names : List String) : Prop :=
  ∀ (c : Course Value) (w : World), c.Paced World.Calm World.Nameless w → c.tasks en = l →
    w.gensym.Counts names (Eval.worldOf (c.under en)).gensym

theorem CountedThrough.nil (en : Engine) : CountedThrough en [] [] := by
  intro c w hc hl
  cases c with
  | ends r =>
    have hsame : (Eval.worldOf r).gensym = w.gensym := World.Nameless.gensym hc
    show w.gensym.Counts [] (Eval.worldOf r).gensym
    rw [hsame]
    exact .nil _
  | asks t w' go => exact absurd hl (by simp [Course.tasks])

/-- One more task first: it begins with the counter as it was at the beginning of the course, and
what follows begins with the counter as the task leaves it. -/
theorem CountedThrough.cons {en : Engine} {t : Task} {w₀ : World} {l : List (Task × World)}
    {names names' : List String} (h : CountedThrough en l names)
    (ht : w₀.gensym.Counts names' ((en.perform t).after w₀).gensym) :
    CountedThrough en ((t, w₀) :: l) (names' ++ names) := by
  intro c w hc hl
  cases c with
  | ends r => exact absurd hl (by simp [Course.tasks])
  | asks t' w' go =>
    obtain ⟨hfirst, hrest⟩ := List.cons.inj hl
    obtain ⟨rfl, rfl⟩ := Prod.mk.inj hfirst
    rw [← hc.1.gensym]
    rw [Eval.after_eq] at ht
    exact ht.append (h (go _) _ (hc.2.2 (en.perform t' w')) hrest)

namespace Coined

variable {ctx : Context} {n : Nat} {l : List (Task × World)} {names : List String}

/-- Names are counted through at every depth. -/
theorem countedThrough (h : Coined ctx n l names) :
    CountedThrough (Engine.ofDepth ctx n) l names := by
  induction h with
  | none n => exact .nil _
  | @exhausted t w l names _ ih =>
    -- a task without depth fails before it does anything
    have hsame : ((Engine.ofDepth ctx 0).perform t).after w = w := by
      cases t <;> rfl
    have hcounts : w.gensym.Counts [] (((Engine.ofDepth ctx 0).perform t).after w).gensym := by
      rw [hsame]
      exact .nil _
    exact ih.cons hcounts
  | @name n args w w' name l names _ hname ih =>
    have hcounts : w.gensym.Counts [name] (((Engine.ofDepth ctx (n + 1)).perform
        (.apply (.primitive .gensym) args)).after w).gensym := by
      show w.gensym.Counts [name] ((Primitive.gensym.call _ args).after w).gensym
      rw [Eval.after_of_ok hname]
      rcases Primitive.call_gensym args w with ⟨stem, hcall⟩ | ⟨e, hcall⟩
      · rw [hcall, Eval.gensym_eq] at hname
        cases hname
        exact .cons stem (.nil _)
      · rw [hcall] at hname
        cases hname
    exact ih.cons hcounts
  | @refusal n args w w' e l names _ hfails ih =>
    have hcounts : w.gensym.Counts [] (((Engine.ofDepth ctx (n + 1)).perform
        (.apply (.primitive .gensym) args)).after w).gensym := by
      show w.gensym.Counts [] ((Primitive.gensym.call _ args).after w).gensym
      rw [Eval.after_of_error hfails]
      rcases Primitive.call_gensym args w with ⟨stem, hcall⟩ | ⟨e, hcall⟩
      · rw [hcall, Eval.gensym_eq] at hfails
        cases hfails
      · rw [hcall] at hfails
        cases hfails
        exact .nil _
    exact ih.cons hcounts
  | @task n t w l l' names names' _ ht hl' _ ih ih' =>
    refine ih.cons ?_
    obtain ⟨c, hc, hpaced, htasks⟩ := hl'
    rw [Eval.after_eq]
    have hstep : (Engine.ofDepth ctx (n + 1)).perform t w = c.under (Engine.ofDepth ctx n) := by
      rw [Engine.perform_ofDepth_succ]
      exact hc _
    rw [hstep]
    exact ih' c w hpaced htasks

/-- The names that one of the tasks hands out are among all. -/
theorem exists_of_mem {p : Task × World} (h : Coined ctx n l names) (hp : p ∈ l) :
    ∃ names', names' ⊆ names ∧ Coined ctx n [p] names' := by
  induction h with
  | none n => exact absurd hp (by simp)
  | @exhausted t w l names _ ih =>
    rcases List.mem_cons.1 hp with rfl | hp
    · exact ⟨[], List.nil_subset _, .exhausted (.none 0)⟩
    · exact ih hp
  | @name n args w w' name l names _ hname ih =>
    rcases List.mem_cons.1 hp with rfl | hp
    · exact ⟨[name], by simp, .name (.none _) hname⟩
    · obtain ⟨names', hsub, h'⟩ := ih hp
      exact ⟨names', List.subset_cons_of_subset _ hsub, h'⟩
  | @refusal n args w w' e l names _ hfails ih =>
    rcases List.mem_cons.1 hp with rfl | hp
    · exact ⟨[], List.nil_subset _, .refusal (.none _) hfails⟩
    · exact ih hp
  | @task n t w l l' names names' _ ht hl' h' ih _ =>
    rcases List.mem_cons.1 hp with rfl | hp
    · exact ⟨names' ++ [], by simp, .task (.none _) ht hl' h'⟩
    · obtain ⟨names'', hsub, h''⟩ := ih hp
      exact ⟨names'', List.subset_append_of_subset_right _ hsub, h''⟩

/-- Whenever the operation that makes fresh names gives one in a part of a task, at whatever depth,
this name is among those that the task hands out. -/
theorem mem_of_part {a : Moment} {t : Task} {w : World} (h : Coined ctx n [(t, w)] names)
    (ha : Moment.Part ctx a ⟨n, t, w⟩) {args : List Value} {name : String} {w' : World}
    (hargs : a.task = .apply (.primitive .gensym) args)
    (hname : a.result ctx = .ok (.symbol name) w') : name ∈ names := by
  generalize hwhole : (⟨n, t, w⟩ : Moment) = whole at ha
  -- on the way down from the task to its part
  induction ha generalizing n t w names with
  | self =>
    subst hwhole
    cases hargs
    cases h with
    | exhausted _ => cases hname
    | @name _ _ _ w₁ name' _ names _ hname' =>
      have hsame := hname.symm.trans hname'
      cases hsame
      simp
    | refusal _ hfails => exact absurd (hname.symm.trans hfails) (by simp)
    | task _ ht => exact absurd (.call args) ht
  | @task m u u' v v' a hconsults hpart ih =>
    cases hwhole
    cases h with
    | name _ _ => exact absurd hconsults (Engine.not_consults_of_coins (.call _))
    | refusal _ _ => exact absurd hconsults (Engine.not_consults_of_coins (.call _))
    | @task _ _ _ _ l' _ names' hnone ht hl' h' =>
      have hmem := hl'.trail.mem_iff.2 hconsults
      obtain ⟨names'', hsub, h''⟩ := h'.exists_of_mem hmem
      exact List.mem_append_left _ (hsub (ih h'' hargs hname rfl))

end Coined

/-! ## §3. Processes -/

namespace Session

/-- The names that the forms of a text hand out. A text that cannot be read has none. -/
inductive CoinsIn (s : Session) (source : String) : List String → Prop
  | unread {e : ReadError} (hread : readData source = .error e) : CoinsIn s source []
  | forms {forms : List Value} {l : List (Task × World)} {names : List String}
    (hread : readData source = .ok forms)
    (hl : s.engine.CalmTrail (fun en => en.evalForms rootScope .nil forms) s.world l)
    (h : Coined s.context s.depth l names) : CoinsIn s source names

/-- The names that a step hands out. A file that cannot be read has none. -/
inductive CoinsAt (s : Session) : SessionStep → List String → Prop
  | text {source : String} {names : List String} (h : s.CoinsIn source names) :
    CoinsAt s (.text source) names
  | unreadable {path : String} {e : FileError}
    (hfile : s.context.disk.readText path = .error e) : CoinsAt s (.file path) []
  | file {path source : String} {names : List String}
    (hfile : s.context.disk.readText path = .ok source) (h : s.CoinsIn source names) :
    CoinsAt s (.file path) names

/-- The session with another counter of fresh names. -/
def withGensym (s : Session) (g : Gensym) : Session :=
  { s with world := { s.world with gensym := g } }

variable {s : Session} {names : List String}

theorem exists_coinsIn (s : Session) (source : String) : ∃ names, s.CoinsIn source names := by
  cases hread : readData source with
  | error e => exact ⟨[], .unread hread⟩
  | ok forms =>
    have hfollows := (Eval.follows_evalForms rootScope .nil forms).mono (fun h => h)
      fun h => h.nameless
    obtain ⟨l, hl⟩ := Engine.exists_calmTrail hfollows s.engine s.world
    obtain ⟨names, h⟩ := exists_coined s.context s.depth l
    exact ⟨names, .forms hread hl h⟩

theorem exists_coinsAt (s : Session) (step : SessionStep) : ∃ names, s.CoinsAt step names := by
  cases step with
  | text source =>
    obtain ⟨names, h⟩ := s.exists_coinsIn source
    exact ⟨names, .text h⟩
  | file path =>
    cases hfile : s.context.disk.readText path with
    | error e => exact ⟨[], .unreadable hfile⟩
    | ok source =>
      obtain ⟨names, h⟩ := s.exists_coinsIn source
      exact ⟨names, .file hfile h⟩

theorem CoinsIn.counts {source : String} (h : s.CoinsIn source names) :
    s.world.gensym.Counts names (s.evalText source).2.world.gensym := by
  unfold evalText
  cases h with
  | unread hread =>
    rw [hread]
    exact .nil _
  | @forms forms l names hread hl h =>
    obtain ⟨c, hc, hpaced, htasks⟩ := hl
    have hforms : s.engine.evalForms rootScope .nil forms s.world = c.under s.engine := hc _
    rw [hread]
    show s.world.gensym.Counts names (s.run _).2.world.gensym
    rw [run_world, Eval.after_eq, hforms]
    exact h.countedThrough c s.world hpaced htasks

theorem CoinsAt.counts {step : SessionStep} (h : s.CoinsAt step names) :
    s.world.gensym.Counts names (s.take step).2.world.gensym := by
  cases h with
  | text h => exact h.counts
  | @unreadable path e hfile =>
    show s.world.gensym.Counts [] (s.evalFile path).2.world.gensym
    unfold evalFile
    rw [hfile]
    exact .nil _
  | @file path source names hfile h =>
    show s.world.gensym.Counts names (s.evalFile path).2.world.gensym
    unfold evalFile
    rw [hfile]
    exact h.counts

end Session

/-- A process: the counter of fresh names, and the sessions, which share it. -/
structure Process where
  gensym : Gensym
  sessions : List Session

/-- What a process does next: it starts a session, or takes a step in one. -/
inductive Process.Action
  | start (ctx : Context) (depth : Nat)
  | take (i : Nat) (step : SessionStep)

namespace Process

/-- A session takes a step: it takes the counter over from the one that had it last, and is then put
among the others. -/
def stepIn (p : Process) (s : Session) (step : SessionStep) (put : Session → List Session) :
    Process :=
  let s := ((s.withGensym p.gensym).take step).2
  ⟨s.world.gensym, put s⟩

/-- Does what is next. A new session evaluates the prelude first. -/
def act (p : Process) : Action → Process
  | .start ctx depth =>
    p.stepIn ⟨ctx, depth, Session.primitiveWorld⟩ (.text prelude) fun s => p.sessions ++ [s]
  | .take i step =>
    match p.sessions[i]? with
    | none => p
    | some s => p.stepIn s step fun s => p.sessions.set i s

/-- The names that an action hands out. There are none where there is no session. -/
inductive Coins (p : Process) : Action → List String → Prop
  | start {ctx : Context} {depth : Nat} {names : List String}
    (h : (Session.withGensym ⟨ctx, depth, Session.primitiveWorld⟩ p.gensym).CoinsAt
      (.text prelude) names) : Coins p (.start ctx depth) names
  | absent {i : Nat} {step : SessionStep} (hs : p.sessions[i]? = none) :
    Coins p (.take i step) []
  | take {i : Nat} {step : SessionStep} {s : Session} {names : List String}
    (hs : p.sessions[i]? = some s) (h : (s.withGensym p.gensym).CoinsAt step names) :
    Coins p (.take i step) names

/-- The names that a run of actions hands out, in their order. -/
def CoinsAll (p : Process) : List Action → List String → Prop
  | [], names => names = []
  | a :: actions, names => ∃ names₁ names₂, names = names₁ ++ names₂ ∧ p.Coins a names₁ ∧
      (p.act a).CoinsAll actions names₂

variable {p : Process} {names : List String}

theorem exists_coins (p : Process) (a : Action) : ∃ names, p.Coins a names := by
  cases a with
  | start ctx depth =>
    obtain ⟨names, h⟩ := Session.exists_coinsAt
      (Session.withGensym ⟨ctx, depth, Session.primitiveWorld⟩ p.gensym) (.text prelude)
    exact ⟨names, .start h⟩
  | take i step =>
    cases hs : p.sessions[i]? with
    | none => exact ⟨[], .absent hs⟩
    | some s =>
      obtain ⟨names, h⟩ := (s.withGensym p.gensym).exists_coinsAt step
      exact ⟨names, .take hs h⟩

theorem exists_coinsAll (p : Process) (actions : List Action) :
    ∃ names, p.CoinsAll actions names := by
  induction actions generalizing p with
  | nil => exact ⟨[], rfl⟩
  | cons a actions ih =>
    obtain ⟨names₁, h₁⟩ := p.exists_coins a
    obtain ⟨names₂, h₂⟩ := ih (p.act a)
    exact ⟨_, names₁, names₂, rfl, h₁, h₂⟩

theorem counts_stepIn {s : Session} {step : SessionStep}
    (h : (s.withGensym p.gensym).CoinsAt step names) (put : Session → List Session) :
    p.gensym.Counts names (p.stepIn s step put).gensym :=
  h.counts

/-- An action takes the counter on by the names that it hands out. -/
theorem Coins.counts {a : Action} (h : p.Coins a names) :
    p.gensym.Counts names (p.act a).gensym := by
  unfold act
  cases h with
  | start h => exact counts_stepIn h _
  | absent hs =>
    simp only [hs]
    exact .nil _
  | take hs h =>
    simp only [hs]
    exact counts_stepIn h _

/-- So does a run. -/
theorem CoinsAll.counts {actions : List Action} (h : p.CoinsAll actions names) :
    p.gensym.Counts names (actions.foldl act p).gensym := by
  induction actions generalizing p names with
  | nil =>
    subst h
    exact .nil _
  | cons a actions ih =>
    obtain ⟨names₁, names₂, rfl, h₁, h₂⟩ := h
    exact h₁.counts.append (ih h₂)

/-- A process that hands out fewer than 2^64 fresh names hands out none of them twice, whatever
stems are asked for, in whichever of its sessions and at whatever depth. Every run of a process
hands out names in some order. -/
theorem fresh_names_distinct (p : Process) (actions : List Action) :
    (∃ names, p.CoinsAll actions names) ∧
      ∀ names, p.CoinsAll actions names → names.length < 2 ^ 64 → names.Nodup :=
  ⟨p.exists_coinsAll actions, fun _ h hfew => h.counts.nodup hfew⟩

/-- A call for a fresh name hands out one, where nothing else goes by the name of the operation. -/
theorem coinsIn_gensym {s : Session} {n : Nat} (hdepth : s.depth = n + 2)
    (hlookup : s.world.store.lookup rootScope "gensym" = .ok (.primitive .gensym)) :
    s.CoinsIn "(gensym)" [Gensym.nameOf Gensym.defaultStem s.world.gensym.next] := by
  let call : Task := .eval (.call (.var "gensym") [] []) rootScope
  let operation : Task := .eval (.var "gensym") rootScope
  let w : World := { s.world with nextTag := s.world.nextTag + 1 }
  have hread : readData "(gensym)" = .ok [Value.ofList [.symbol "gensym"]] := rfl
  -- the form is the one task of the text; its own tasks are the operation and its application
  have htext : s.engine.CalmTrail
      (fun en => en.evalForms rootScope .nil [Value.ofList [.symbol "gensym"]]) s.world
      [(call, w)] := by
    refine ⟨.asks call w .ends, fun en => ?_, ?_, rfl⟩
    · show (en.eval _ rootScope >>= pure) w = _
      rw [bind_pure]
      rfl
    · exact ⟨Eval.calm_aside _ _ _, fun e w => ⟨w, rfl, rfl, rfl⟩, fun r => (World.Calm.refl _).nameless⟩
  have hfound : Eval.lookup rootScope "gensym" w = .ok (.primitive .gensym) w :=
    Eval.lookup_of_ok hlookup
  have hvar : Engine.evalVar rootScope "gensym" w = .ok (.primitive .gensym) w :=
    Eval.bind_of_ok hfound
  have hexpander : Engine.expanderAt rootScope (.var "gensym") w = .ok none w := by
    show EStateM.Result.ok ((w.store.expander? rootScope "gensym").map _) w = _
    unfold Store.expander?
    rw [hlookup]
    rfl
  have hcall : (Engine.ofDepth s.context (n + 1)).CalmTrail (fun en => en.step s.context call) w
      [(operation, w), (.apply (.primitive .gensym) [], w)] := by
    refine ⟨.asks operation w (Course.next fun f w => .asks (.apply f []) w .ends),
      fun en => ?_, ?_, ?_⟩
    · show (Engine.expanderAt rootScope (.var "gensym") >>= _) w = _
      rw [Eval.bind_of_ok hexpander]
      show (en.eval (.var "gensym") rootScope >>= fun f => en.apply f []) w =
        (Course.next _ (en.eval (.var "gensym") rootScope w)).under en
      rw [Eval.bind_eq]
      cases en.eval (.var "gensym") rootScope w with
      | ok f w => rfl
      | error e w => rfl
    · refine ⟨.refl w, fun e w => ⟨w, rfl, rfl, rfl⟩, fun r => ?_⟩
      cases r with
      | ok f w =>
        exact ⟨.refl w, fun e w => ⟨w, rfl, rfl, rfl⟩, fun r => (World.Calm.refl _).nameless⟩
      | error e w => exact (World.Calm.refl w).nameless
    · show (operation, w) :: (Course.next _ (Engine.evalVar rootScope "gensym" w)).tasks _ = _
      rw [hvar]
      rfl
  have hoperation : (Engine.ofDepth s.context n).CalmTrail
      (fun en => en.step s.context operation) w [] :=
    ⟨.ends (.ok (.primitive .gensym) w), fun _ => hvar, (World.Calm.refl w).nameless, rfl⟩
  have happlied : Coined s.context (n + 1) [(.apply (.primitive .gensym) [], w)]
      [Gensym.nameOf Gensym.defaultStem s.world.gensym.next] := .name (.none _) rfl
  refine .forms hread htext ?_
  rw [hdepth]
  exact .task (.none _) (Task.not_coins_eval _ _) hcall
    (.task happlied (Task.not_coins_eval _ _) hoperation (.none _))

set_option maxRecDepth 100000 in
/-- Two sessions in which one asks for a fresh name after the other. -/
theorem fresh_names_distinct_sessions :
    let s : Session := ⟨⟨.default, ⟨[], []⟩⟩, 2, Session.primitiveWorld⟩
    let p : Process := ⟨.start, [s, s]⟩
    let actions : List Action := [.take 0 (.text "(gensym)"), .take 1 (.text "(gensym)")]
    p.CoinsAll actions ["g__0", "g__1"] ∧ ["g__0", "g__1"].length < 2 ^ 64 ∧
      ["g__0", "g__1"].Nodup := by
  intro s p actions
  have hlookup : s.world.store.lookup rootScope "gensym" = .ok (.primitive .gensym) := rfl
  have hnames : Gensym.nameOf Gensym.defaultStem 0 = "g__0" ∧
      Gensym.nameOf Gensym.defaultStem 1 = "g__1" := by
    decide +kernel
  have hcoins : ∀ g, (s.withGensym g).CoinsIn "(gensym)"
      [Gensym.nameOf Gensym.defaultStem g.next] :=
    fun g => coinsIn_gensym (s := s.withGensym g) (n := 0) rfl hlookup
  have hfirst : p.Coins (.take 0 (.text "(gensym)")) ["g__0"] :=
    .take rfl (.text (hnames.1 ▸ hcoins ⟨0⟩))
  -- the first session has taken the counter on, and the second one begins with it
  have hcounter : (p.act (.take 0 (.text "(gensym)"))).gensym.next = 1 := hfirst.counts.next_eq
  have hsecond : (p.act (.take 0 (.text "(gensym)"))).Coins (.take 1 (.text "(gensym)"))
      ["g__1"] := by
    have hlater := hcoins (p.act (.take 0 (.text "(gensym)"))).gensym
    rw [hcounter, hnames.2] at hlater
    exact .take rfl (.text hlater)
  have hall : p.CoinsAll actions ["g__0", "g__1"] :=
    ⟨["g__0"], ["g__1"], rfl, hfirst, ["g__1"], [], rfl, hsecond, rfl⟩
  exact ⟨hall, by decide, (fresh_names_distinct p actions).2 _ hall (by decide)⟩

end Process

end TinyLisp
