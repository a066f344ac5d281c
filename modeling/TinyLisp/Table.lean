/-!
# Tables

A table is a list of entries, each a key with what stands under it. `set` replaces an entry in
place or adds one at the end, so keys stay in the order of their first entry and no key occurs
twice (`nodup_keys_set`). The last of two values put under one key counts (`set_set`), and keys that
are there can be set in either order (`set_comm`).
-/

namespace TinyLisp

/-- Entries by key. -/
abbrev Table (κ α : Type) := List (κ × α)

namespace Table

variable {κ α : Type} [DecidableEq κ]

/-- What stands under a key. -/
def get? (k : κ) : Table κ α → Option α
  | [] => none
  | (k', a) :: t => if k = k' then some a else get? k t

/-- Puts something under a key. -/
def set (k : κ) (a : α) : Table κ α → Table κ α
  | [] => [(k, a)]
  | (k', a') :: t => if k = k' then (k, a) :: t else (k', a') :: set k a t

/-- The keys, in order. -/
def keys (t : Table κ α) : List κ := t.map Prod.fst

@[simp] theorem get?_set_self (k : κ) (a : α) (t : Table κ α) : get? k (set k a t) = some a := by
  induction t with
  | nil => simp [set, get?]
  | cons e t ih =>
    obtain ⟨k', a'⟩ := e
    by_cases h : k = k'
    · simp [set, get?, h]
    · simp [set, get?, h, ih]

@[simp] theorem get?_set_of_ne {j k : κ} (h : j ≠ k) (a : α) (t : Table κ α) :
    get? j (set k a t) = get? j t := by
  induction t with
  | nil => simp [set, get?, h]
  | cons e t ih =>
    obtain ⟨k', a'⟩ := e
    by_cases hk : k = k'
    · subst hk; simp [set, get?, h]
    · simp only [set, if_neg hk, get?, ih]

/-- What stands under a key is in an entry. -/
theorem mem_of_get? {k : κ} {a : α} {t : Table κ α} (h : get? k t = some a) : (k, a) ∈ t := by
  induction t with
  | nil => exact absurd h (by simp [get?])
  | cons e t ih =>
    obtain ⟨k', a'⟩ := e
    by_cases hk : k = k'
    · simp only [get?, if_pos hk, Option.some.injEq] at h
      simp [hk, h]
    · rw [get?, if_neg hk] at h
      exact List.mem_cons_of_mem _ (ih h)

/-- Every entry was there before or is the one that was put. -/
theorem mem_set {k : κ} {a : α} {e : κ × α} {t : Table κ α} (h : e ∈ set k a t) :
    e ∈ t ∨ e = (k, a) := by
  induction t with
  | nil => exact .inr (by simpa [set] using h)
  | cons d t ih =>
    obtain ⟨k', a'⟩ := d
    by_cases hk : k = k'
    · rw [set, if_pos hk] at h
      exact (List.mem_cons.1 h).symm.imp_left (List.mem_cons_of_mem _)
    · rw [set, if_neg hk] at h
      rcases List.mem_cons.1 h with rfl | h
      · exact .inl (by simp)
      · exact (ih h).imp_left (List.mem_cons_of_mem _)

theorem mem_keys_set {j k : κ} {a : α} {t : Table κ α} :
    j ∈ keys (set k a t) ↔ j = k ∨ j ∈ keys t := by
  induction t with
  | nil => simp [set, keys]
  | cons e t ih =>
    obtain ⟨k', a'⟩ := e
    simp only [keys] at ih
    by_cases hk : k = k'
    · subst hk; simp [set, keys]
    · simp only [set, if_neg hk, keys, List.map_cons, List.mem_cons, ih]
      constructor
      · rintro (h | h | h) <;> simp [h]
      · rintro (h | h | h) <;> simp [h]

theorem nodup_keys_set {k : κ} {a : α} {t : Table κ α} (h : (keys t).Nodup) :
    (keys (set k a t)).Nodup := by
  induction t with
  | nil => simp [set, keys]
  | cons e t ih =>
    obtain ⟨k', a'⟩ := e
    simp only [keys, List.map_cons, List.nodup_cons] at h
    by_cases hk : k = k'
    · subst hk; simpa [set, keys] using h
    · simp only [set, if_neg hk, keys, List.map_cons, List.nodup_cons]
      refine ⟨fun hm => ?_, ih h.2⟩
      rcases mem_keys_set.1 hm with h1 | h1
      · exact hk h1.symm
      · exact h.1 h1

theorem get?_isSome_iff {k : κ} {t : Table κ α} : (get? k t).isSome ↔ k ∈ keys t := by
  induction t with
  | nil => simp [get?, keys]
  | cons e t ih =>
    obtain ⟨k', a'⟩ := e
    by_cases hk : k = k'
    · simp [get?, keys, hk]
    · rw [get?, if_neg hk, ih]
      simp [keys, hk]

theorem get?_eq_none_iff {k : κ} {t : Table κ α} : get? k t = none ↔ k ∉ keys t := by
  rw [← get?_isSome_iff, Option.not_isSome_iff_eq_none]

/-- In a table without double keys every entry is what stands under its key. -/
theorem get?_of_mem {k : κ} {a : α} {t : Table κ α} (h : (keys t).Nodup) (hk : (k, a) ∈ t) :
    get? k t = some a := by
  induction t with
  | nil => exact absurd hk (by simp)
  | cons e t ih =>
    obtain ⟨k', a'⟩ := e
    simp only [keys, List.map_cons, List.nodup_cons] at h
    rcases List.mem_cons.1 hk with heq | hrest
    · cases heq
      simp [get?]
    · have hne : k ≠ k' := by
        rintro rfl
        exact h.1 (List.mem_map.2 ⟨(k, a), hrest, rfl⟩)
      rw [get?, if_neg hne]
      exact ih h.2 hrest

omit [DecidableEq κ] in
theorem keys_append (s t : Table κ α) : keys (s ++ t) = keys s ++ keys t :=
  List.map_append

/-- A key that is not there is added at the end. -/
theorem set_of_notMem {k : κ} {t : Table κ α} (h : k ∉ keys t) (a : α) :
    set k a t = t ++ [(k, a)] := by
  induction t with
  | nil => rfl
  | cons e t ih =>
    obtain ⟨k', a'⟩ := e
    have hne : k ≠ k' := fun heq => h (by simp [keys, heq])
    have ht : k ∉ keys t := fun hk => h (List.mem_cons_of_mem _ hk)
    rw [set, if_neg hne, ih ht]
    rfl

/-- A key that is there keeps its place, and so do all others. -/
theorem keys_set_of_mem {k : κ} {t : Table κ α} (h : k ∈ keys t) (a : α) :
    keys (set k a t) = keys t := by
  induction t with
  | nil => exact absurd h (by simp [keys])
  | cons e t ih =>
    obtain ⟨k', a'⟩ := e
    by_cases hk : k = k'
    · subst hk; simp [set, keys]
    · have ht : k ∈ keys t := (List.mem_cons.1 h).resolve_left hk
      rw [set, if_neg hk]
      exact congrArg (k' :: ·) (ih ht)

theorem keys_set (k : κ) (a : α) (t : Table κ α) :
    keys (set k a t) = if k ∈ keys t then keys t else keys t ++ [k] := by
  split
  · next h => exact keys_set_of_mem h a
  · next h => rw [set_of_notMem h, keys_append]; rfl

/-- The second of two values under one key is the one that counts. -/
theorem set_set (k : κ) (a b : α) (t : Table κ α) : set k b (set k a t) = set k b t := by
  induction t with
  | nil => simp [set]
  | cons e t ih =>
    obtain ⟨k', a'⟩ := e
    by_cases hk : k = k'
    · simp [set, hk]
    · simp only [set, if_neg hk, ih]

/-- Different keys that are there can be set in either order. -/
theorem set_comm {j k : κ} (hjk : j ≠ k) {t : Table κ α} (hj : j ∈ keys t) (hk : k ∈ keys t)
    (a b : α) : set k b (set j a t) = set j a (set k b t) := by
  induction t with
  | nil => exact absurd hj (by simp [keys])
  | cons e t ih =>
    obtain ⟨k', a'⟩ := e
    by_cases hjk' : j = k'
    · subst hjk'
      simp [set, hjk.symm]
    · by_cases hkk' : k = k'
      · subst hkk'
        simp [set, hjk]
      · simp only [set, if_neg hjk', if_neg hkk']
        rw [ih ((List.mem_cons.1 hj).resolve_left hjk') ((List.mem_cons.1 hk).resolve_left hkk')]

end Table

end TinyLisp
