/-!
# Sets of names

A set of names is a list that is strictly ascending in the order of code points. `insert`
keeps it so; `ofList` sorts a list and drops repetitions.
-/

namespace TinyLisp.Names

/-- Adds a name to an ascending list, unless it is there. -/
def insert (x : String) : List String → List String
  | [] => [x]
  | y :: ys => if x = y then y :: ys else if x < y then x :: y :: ys else y :: insert x ys

/-- The names of a list in ascending order, each once. -/
def ofList (xs : List String) : List String :=
  xs.foldr insert []

@[simp] theorem mem_insert {a x : String} {xs : List String} :
    a ∈ insert x xs ↔ a = x ∨ a ∈ xs := by
  induction xs with
  | nil => simp [insert]
  | cons y ys ih =>
    unfold insert
    split
    · next h => subst h; simp
    · split
      · simp
      · simp only [List.mem_cons, ih]
        constructor
        · rintro (h | h | h) <;> simp [h]
        · rintro (h | h | h) <;> simp [h]

/-- Sorting loses no name and adds none. -/
@[simp] theorem mem_ofList {a : String} {xs : List String} : a ∈ ofList xs ↔ a ∈ xs := by
  induction xs with
  | nil => simp [ofList]
  | cons x xs ih =>
    have : ofList (x :: xs) = insert x (ofList xs) := rfl
    simp [this, ih]

end TinyLisp.Names
