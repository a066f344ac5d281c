/-!
# Paths

The text of a path: parts between slashes, from the root if a slash comes first and from the
working directory otherwise.
-/

namespace TinyLisp.Path

/-- Whether a path starts at the root. -/
def isAbsolute (p : String) : Bool :=
  p.toList.head? == some '/'

/-- A path seen from a directory. An absolute path stays what it is. -/
def join (dir p : String) : String :=
  if isAbsolute p || dir.isEmpty then p
  else if dir.toList.getLast? == some '/' then dir ++ p
  else dir ++ "/" ++ p

/-- The pieces of a text between slashes; never none. -/
def pieces : List Char → List (List Char)
  | [] => [[]]
  | '/' :: cs => [] :: pieces cs
  | c :: cs =>
    match pieces cs with
    | [] => [[c]]
    | p :: ps => (c :: p) :: ps

/-- The parts of a path. A slash at the end asks for a directory, as a last part `.` does. -/
def parts (p : String) : List String :=
  let named := (pieces p.toList).filter (!·.isEmpty)
  (named ++ if p.toList.getLast? == some '/' then [['.']] else []).map String.ofList

/-- The text of an absolute path with these parts. -/
def ofParts (ps : List String) : String :=
  "/" ++ "/".intercalate ps

/-- The name of a file without its extension, which starts at the last dot; a dot in front
starts none. -/
def stem (name : String) : String :=
  match name.toList.reverse.dropWhile (· ≠ '.') with
  | _ :: c :: cs => String.ofList (c :: cs).reverse
  | _ => name

example : join "lib" "a" = "lib/a" := by cbv
example : join "lib/" "a" = "lib/a" := by cbv
example : join "lib" "/a" = "/a" := by cbv
example : join "" "a" = "a" := by cbv
example : parts "./a//b/" = [".", "a", "b", "."] := by cbv
example : stem "a.b.c" = "a.b" := by cbv
example : stem ".c" = ".c" := by cbv

end TinyLisp.Path
