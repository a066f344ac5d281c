/-!
# Dotted names

A name with a dot inside reaches into a module: the part before the first dot names the
module, the part behind it a member, which may be dotted again.
-/

namespace TinyLisp

/-- The characters of a name before its first dot. -/
def headChars (name : String) : List Char :=
  name.toList.takeWhile (· ≠ '.')

/-- The characters of a name from its first dot on. -/
def tailChars (name : String) : List Char :=
  name.toList.dropWhile (· ≠ '.')

/-- Splits a name at its first dot, if there is text on both sides. -/
def splitMember? (name : String) : Option (String × String) :=
  match headChars name, tailChars name with
  | c :: first, _ :: d :: rest => some (String.ofList (c :: first), String.ofList (d :: rest))
  | _, _ => none

/-- The first segment of a name: all before its first dot. -/
def firstSegment (name : String) : String :=
  String.ofList (headChars name)

/-- The member behind the dot is shorter than the name. -/
theorem length_lt_of_splitMember? {name first rest : String}
    (h : splitMember? name = some (first, rest)) : rest.length < name.length := by
  unfold splitMember? at h
  split at h
  · next c f e d r hf hr =>
    simp only [Option.some.injEq, Prod.mk.injEq] at h
    obtain ⟨rfl, rfl⟩ := h
    have hl := congrArg List.length
      (List.takeWhile_append_dropWhile (p := (· ≠ '.')) (l := name.toList))
    simp only [headChars] at hf
    simp only [tailChars] at hr
    rw [hf, hr] at hl
    simp only [List.length_append, List.length_cons, String.length_toList] at hl
    simp only [String.length_ofList, List.length_cons]
    omega
  · cases h

/-- What stands before the first dot is the first segment. -/
theorem firstSegment_of_some {name first rest : String}
    (h : splitMember? name = some (first, rest)) : firstSegment name = first := by
  unfold splitMember? at h
  unfold firstSegment
  split at h
  · next c f e d r hf hr =>
    simp only [Option.some.injEq, Prod.mk.injEq] at h
    rw [hf, h.1]
  · exact absurd h (by simp)

example : splitMember? "a.b.c" = some ("a", "b.c") := by cbv
example : splitMember? ".b" = none := by cbv
example : splitMember? "a." = none := by cbv

end TinyLisp
