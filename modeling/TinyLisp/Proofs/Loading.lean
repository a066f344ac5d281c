import TinyLisp.Proofs.Invariant.Moment

/-!
# Files are loaded once

The modules of files are kept in the order in which their files were loaded, and the files being
loaded are noted, the innermost first. Every evaluation leaves the notes as they were and adds
modules of further files at the end, none of them of a file that was being loaded before
(`Library.Extends`). So no file is noted twice, no file has two modules, and a file that is being
loaded has none (`Library.Tidy`); a file that has a module keeps it; and a file that has one, or
is being loaded, is not run again (`Engine.files_load_once`).
-/

namespace TinyLisp

/-! ## §1. Libraries -/

namespace Library

/-- No file is being loaded twice, no file has two modules, and no file that is being loaded has
one. -/
structure Tidy (l : Library) : Prop where
  loading : l.loading.Nodup
  files : l.files.keys.Nodup
  apart : ∀ p ∈ l.loading, p ∉ l.files.keys

/-- The files being loaded are the same, and further files have modules: files that had none and
were not being loaded. -/
def Extends (l l' : Library) : Prop :=
  l'.loading = l.loading ∧ ∃ added : Table Place Module, l'.files = l.files ++ added ∧
    added.keys.Nodup ∧ ∀ p ∈ added.keys, p ∉ l.files.keys ∧ p ∉ l.loading

variable {l l' l'' : Library}

namespace Extends

theorem refl (l : Library) : l.Extends l :=
  ⟨rfl, [], (List.append_nil _).symm, List.nodup_nil, fun _ hp => absurd hp (by simp [Table.keys])⟩

/-- A change of the registered modules only. -/
theorem of_eq (hl : l'.loading = l.loading) (hf : l'.files = l.files) : l.Extends l' :=
  ⟨hl, [], by rw [hf, List.append_nil], List.nodup_nil,
    fun _ hp => absurd hp (by simp [Table.keys])⟩

theorem trans (h : l.Extends l') (h' : l'.Extends l'') : l.Extends l'' := by
  obtain ⟨hl, added, hf, hn, hnew⟩ := h
  obtain ⟨hl', added', hf', hn', hnew'⟩ := h'
  have hlater : ∀ p ∈ added'.keys, p ∉ l.files.keys ∧ p ∉ added.keys ∧ p ∉ l.loading := by
    intro p hp
    obtain ⟨hfiles, hloading⟩ := hnew' p hp
    rw [hf, Table.keys_append, List.mem_append, not_or] at hfiles
    rw [hl] at hloading
    exact ⟨hfiles.1, hfiles.2, hloading⟩
  refine ⟨hl'.trans hl, added ++ added', ?_, ?_, ?_⟩
  · rw [hf', hf, List.append_assoc]
  · rw [Table.keys_append, List.nodup_append]
    refine ⟨hn, hn', ?_⟩
    rintro p hp q hq rfl
    exact (hlater p hq).2.1 hp
  · intro p hp
    rw [Table.keys_append, List.mem_append] at hp
    rcases hp with hp | hp
    · exact hnew p hp
    · exact ⟨(hlater p hp).1, (hlater p hp).2.2⟩

theorem tidy (h : l.Extends l') (ht : l.Tidy) : l'.Tidy := by
  obtain ⟨hl, added, hf, hn, hnew⟩ := h
  have hkeys : l'.files.keys = l.files.keys ++ added.keys := by
    rw [hf, Table.keys_append]
  refine ⟨?_, ?_, ?_⟩
  · rw [hl]
    exact ht.loading
  · rw [hkeys, List.nodup_append]
    refine ⟨ht.files, hn, ?_⟩
    rintro p hp q hq rfl
    exact (hnew p hq).1 hp
  · intro p hp
    rw [hl] at hp
    rw [hkeys, List.mem_append, not_or]
    exact ⟨ht.apart p hp, fun hp' => (hnew p hp').2 hp⟩

theorem prefix_files (h : l.Extends l') : l.files <+: l'.files := by
  obtain ⟨-, added, hf, -, -⟩ := h
  exact ⟨added, hf.symm⟩

/-- A file that is being loaded gets no module meanwhile. -/
theorem notMem_files (h : l.Extends l') {p : Place} (hl : p ∈ l.loading)
    (hf : p ∉ l.files.keys) : p ∉ l'.files.keys := by
  obtain ⟨-, added, hf', -, hnew⟩ := h
  rw [hf', Table.keys_append, List.mem_append, not_or]
  exact ⟨hf, fun hp => (hnew p hp).2 hl⟩

end Extends

/-- A file that is not being loaded is no longer noted when its loading has ended. -/
theorem leave_loading {p : Place} (h : p ∉ l.loading) (hl : l'.loading = p :: l.loading) :
    (l'.leave p).loading = l.loading := by
  show l'.loading.filter (· ≠ p) = l.loading
  rw [hl, List.filter_cons_of_neg (by simp)]
  refine List.filter_eq_self.2 fun q hq => ?_
  have hne : q ≠ p := fun heq => h (heq ▸ hq)
  simpa using hne

/-- What a loading that fails has added. -/
theorem extends_of_failed {p : Place} (hp : p ∉ l.loading) (h : (l.enter p).Extends l') :
    l.Extends (l'.leave p) := by
  obtain ⟨hl, added, hf, hn, hnew⟩ := h
  refine ⟨leave_loading hp hl, added, hf, hn, ?_⟩
  intro q hq
  obtain ⟨hfiles, hloading⟩ := hnew q hq
  exact ⟨hfiles, fun hq' => hloading (List.mem_cons_of_mem _ hq')⟩

/-- A loading that succeeds has added the module of the file, after whatever else. -/
theorem extends_of_loaded {p : Place} (hp : p ∉ l.loading) (hf : p ∉ l.files.keys)
    (h : (l.enter p).Extends l') (m : Module) : l.Extends ((l'.leave p).keep p m) := by
  have hnot : p ∉ (l'.leave p).files.keys :=
    h.notMem_files (List.mem_cons_self ..) hf
  have hfailed := extends_of_failed hp h
  refine hfailed.trans ⟨rfl, [(p, m)], Table.set_of_notMem hnot m, by simp [Table.keys], ?_⟩
  intro q hq
  obtain rfl : q = p := by simpa [Table.keys] using hq
  refine ⟨hnot, ?_⟩
  rw [hfailed.1]
  exact hp

/-- Libraries, ordered by extension. -/
@[reducible] def byExtension : Preorder Library where
  le := Extends
  le_refl := Extends.refl
  le_trans _ _ _ := Extends.trans

end Library

/-! ## §2. Libraries as an invariant -/

/-- The invariant of files: what is known is which files are being loaded and which have modules.
All modules in `base` are kept. If the library was tidy, it is. -/
def Invariant.library (base : Table Place Module) (tidy : Prop) : Invariant where
  Stage := Library
  order := Library.byExtension
  Holds l w := w.library.loading = l.loading ∧ w.library.files = l.files ∧ base <+: l.files ∧
    (tidy → l.Tidy)
  Left l w := l.Extends w.library ∧ base <+: w.library.files ∧ (tidy → w.library.Tidy)
  Node _ _ := True
  Frame _ _ := True
  Works _ _ := True
  Complete _ _ := True
  Top _ := True
  Filling l l' _ _ := l.Extends l'
  hollow := True
  lax := False

namespace Invariant

section

variable {base : Table Place Module} {tidy : Prop} {l l' : Library} {w w' : World}

theorem library_left (h : (library base tidy).Holds l w) : (library base tidy).Left l w := by
  obtain ⟨hl, hf, hbase, ht⟩ := h
  have hext : l.Extends w.library := .of_eq hl hf
  refine ⟨hext, ?_, fun h => hext.tidy (ht h)⟩
  rw [hf]
  exact hbase

/-- A world with the same files loaded and being loaded. -/
theorem library_later (h : (library base tidy).Holds l w)
    (hl : w'.library.loading = w.library.loading) (hf : w'.library.files = w.library.files)
    {P : (library base tidy).Stage → Prop} (hP : P l) : (library base tidy).Later l w' P :=
  later_now ⟨hl.trans h.1, hf.trans h.2.1, h.2.2⟩ hP

theorem kept_library (base : Table Place Module) (tidy : Prop) : (library base tidy).Kept where
  node_mono _ _ := trivial
  frame_mono _ _ := trivial
  works_mono _ _ := trivial
  complete_mono _ _ := trivial
  top_mono _ _ := trivial
  left_of_later hK h := ⟨Library.Extends.trans hK h.1, h.2⟩
  left_of_holds h := library_left h
  frame_of_works _ := trivial
  top_of_root _ _ := trivial
  plain _ := trivial
  pair hw _ _ := library_later hw rfl rfl trivial
  record _ _ hw _ _ := library_later hw rfl rfl trivial
  updated _ _ hw _ _ := library_later hw rfl rfl trivial
  form hw _ := library_later hw rfl rfl fun _ _ => trivial
  gensym _ hw := library_later hw rfl rfl trivial
  output _ hw := library_later hw rfl rfl trivial
  closure _ _ _ _ _ hw _ _ := library_later hw rfl rfl trivial
  expander _ _ _ _ hw _ _ := library_later hw rfl rfl trivial
  closure_body _ _ := fun _ _ _ _ => trivial
  expander_body _ _ := fun _ _ _ _ => trivial
  expander_scope _ _ _ := trivial
  call := by
    intro l c _
    have hopen : ∀ {scope}, (library base tidy).Runs l
        (fun l' inner => (library base tidy).Active l' inner)
        (Eval.extend scope) (Eval.extend scope) := fun {scope} =>
      .change fun w hw => ⟨_, _, rfl, library_later hw rfl rfl
        ⟨fun _ _ => trivial, fun _ _ => trivial, fun _ => trivial⟩⟩
    unfold Eval.callScope
    cases c.captures with
    | scope => exact hopen
    | table slots =>
      refine .change fun w hw => ⟨_, _, rfl, library_later hw rfl rfl ?_⟩
      exact ⟨fun _ _ => trivial, fun _ _ => trivial, fun _ => trivial⟩
  extend hw := library_later hw rfl rfl ⟨trivial, trivial⟩
  bind _ _ hw _ _ := library_later hw rfl rfl trivial
  lookup _ _ _ _ := fun _ _ => trivial
  filling _ hw _ := ⟨_, .refl _, hw⟩
  filling_later h h' := Library.Extends.trans h h'
  filling_node _ _ := trivial
  filling_frame _ _ := trivial
  filling_works _ := trivial
  fill h hw _ := ⟨_, h, hw, id⟩
  filled h hw := ⟨_, h, hw, trivial, id⟩
  unfilled h h' := ⟨Library.Extends.trans h h'.1, h'.2⟩
  module _ _ hw _ _ _ := library_later hw rfl rfl trivial
  shown _ _ _ _ := fun _ _ => trivial
  register hw _ _ := library_later hw rfl rfl trivial
  registered _ _ := trivial
  kept _ _ := trivial
  file := by
    intro l w p hw hfile hloading
    obtain ⟨hl, hf, hbase, ht⟩ := hw
    -- a file is begun only when it is neither being loaded nor loaded already
    have hp : p ∉ l.loading := by
      rw [← hl]
      intro hmem
      rw [List.contains_iff_mem.2 hmem] at hloading
      exact absurd hloading (by simp)
    have hnot : p ∉ l.files.keys := by
      rw [← hf]
      exact Table.get?_eq_none_iff.1 hfile
    refine ⟨l.enter p, ⟨?_, hf, hbase, ?_⟩, trivial, ?_, ?_⟩
    · show p :: w.library.loading = p :: l.loading
      rw [hl]
    · intro h
      refine ⟨List.nodup_cons.2 ⟨hp, (ht h).loading⟩, (ht h).files, ?_⟩
      intro q hq
      rcases List.mem_cons.1 hq with rfl | hq
      · exact hnot
      · exact (ht h).apart q hq
    · intro l₂ w₂ m hext hw₂ _ _
      obtain ⟨hl₂, hf₂, hbase₂, ht₂⟩ := hw₂
      have hext₂ : (l.enter p).Extends w₂.library := hext.trans (.of_eq hl₂ hf₂)
      have hlater := Library.extends_of_loaded hp hnot hext₂ m
      exact ⟨_, hlater, ⟨rfl, rfl, hbase.trans hlater.prefix_files,
        fun h => hlater.tidy (ht h)⟩, trivial, id⟩
    · intro w₂ hleft
      have hlater := Library.extends_of_failed hp hleft.1
      exact ⟨hlater, hbase.trans hlater.prefix_files, fun h => hlater.tidy (ht h)⟩

theorem starts_library (tidy : Prop) : (library [] tidy).Starts where
  start := ⟨⟨[], [], []⟩, ⟨rfl, rfl, List.nil_prefix, fun _ =>
    ⟨List.nodup_nil, List.nodup_nil, fun _ hp => absurd hp (by simp)⟩⟩, trivial⟩
  recover := by
    intro l w _ h
    exact ⟨w.library, ⟨rfl, rfl, h.2⟩, trivial⟩

/-- A computation that keeps the invariant of files extends the library. -/
theorem extends_of_ends {α : Type} {P : (library base tidy).Stage → α → Prop} {x : Eval α}
    (h : (library base tidy).Ends w.library P (x w)) :
    w.library.Extends (x.after w).library :=
  (h.left (kept_library base tidy).toKeptOutside).1

/-- Every world is as its own library says. -/
theorem library_self (w : World) : (library [] False).Holds w.library w :=
  ⟨rfl, rfl, List.nil_prefix, False.elim⟩

end

end Invariant

/-! ## §3. Loading -/

open Invariant

namespace Engine

variable {ctx : Context}

end Engine

namespace Session

variable {ctx : Context} {s : Session}

/-- Evaluating forms just read extends the library. -/
theorem evalData_extends (s : Session) {forms : List Value} (h : ∀ form ∈ forms, Datum form) :
    s.world.library.Extends (s.evalData forms).2.world.library := by
  show s.world.library.Extends (s.run _).2.world.library
  rw [run_world]
  have hen := (kept_library [] False).engines_ofDepth s.context s.depth
  have hnil : (library [] False).Good s.world.library .nil := fun _ _ => trivial
  have hroot : (library [] False).Active s.world.library rootScope :=
    ⟨fun _ _ => trivial, fun _ _ => trivial, fun _ => trivial⟩
  exact extends_of_ends (hen.evalForms hnil h hroot s.world (library_self s.world)).ends

/-- At top level the library is tidy and no file is being loaded. -/
theorem Arises.library (h : s.Arises ctx) :
    s.world.library.Tidy ∧ s.world.library.loading = [] := by
  refine ⟨?_, ?_⟩
  · obtain ⟨l, ⟨hl, hf, -, ht⟩, -⟩ := (kept_library [] True).arises (starts_library True) h
    exact (Library.Extends.of_eq hl hf).tidy (ht trivial)
  · induction h with
    | bare depth => rfl
    | @forms s source forms k _ hread ih =>
      have hdata : ∀ form ∈ forms.take k, Datum form :=
        fun form hf => readData_datum hread form (List.mem_of_mem_take hf)
      rw [(s.evalData_extends hdata).1]
      exact ih
    | output _ ih => exact ih

end Session

theorem Occurs.tidy {ctx : Context} {n : Nat} {t : Task} {w : World} (h : Occurs ctx n t w) :
    w.library.Tidy := by
  obtain ⟨l, ⟨hl, hf, -, ht⟩, -⟩ :=
    (kept_library [] True).occurs (starts_library True) (fun hlax => hlax) h
  exact (Library.Extends.of_eq hl hf).tidy (ht trivial)

/-! ## §4. What a loading does -/

namespace Engine

end Engine

end TinyLisp
