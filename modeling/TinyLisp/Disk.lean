import TinyLisp.Path

/-!
# Files

A disk is a tree of directories and files, seen from a working directory. A file holds bytes,
which need not be text. Resolving a path follows its parts from left to right: each part but
the last must be reached in a directory, `.` stays and `..` goes up.
-/

namespace TinyLisp

/-- Why a file cannot be had. -/
inductive FileError
  | notFound
  | notADirectory
  | isADirectory
  | nameTooLong
  /-- A path with a zero character, which no file system admits. -/
  | zeroCharacter
  /-- A file whose bytes are not UTF-8. -/
  | notText
  deriving Repr, DecidableEq

/-- The wording of a file error. -/
def FileError.message : FileError → String
  | notFound => "No such file or directory (os error 2)"
  | notADirectory => "Not a directory (os error 20)"
  | isADirectory => "Is a directory (os error 21)"
  | nameTooLong => "File name too long (os error 36)"
  | zeroCharacter => "file name contained an unexpected NUL byte"
  | notText => "stream did not contain valid UTF-8"

/-- What stands at a place of a disk. -/
inductive Node
  | directory
  | file (content : ByteArray)

/-- A place on a disk: the parts from the root. -/
abbrev Place := List String

/-- A tree of files. Directories above an entry need no entry of their own. -/
structure Disk where
  workingDirectory : Place
  entries : List (Place × Node)

namespace Disk

/-- What stands at a place. -/
def node? (d : Disk) (p : Place) : Option Node :=
  match d.entries.lookup p with
  | some n => some n
  | none =>
    if p.isPrefixOf d.workingDirectory || d.entries.any fun e => p.isPrefixOf e.1 then
      some .directory
    else none

/-- The greatest number of bytes in a part of a path. -/
def maxPartBytes : Nat := 255

/-- The number of bytes that a path handed over as a whole must stay below. -/
def maxPathBytes : Nat := 4096

/-- Follows the parts of a path from a place. -/
def follow (d : Disk) (here : Place) : List String → Except FileError Place
  | [] => .ok here
  | part :: rest =>
    match d.node? here with
    | none => .error .notFound
    | some (.file _) => .error .notADirectory
    | some .directory =>
      if part = "." then d.follow here rest
      else if part = ".." then d.follow here.dropLast rest
      else if maxPartBytes < part.utf8ByteSize then .error .nameTooLong
      else if (d.node? (here ++ [part])).isNone then .error .notFound
      else d.follow (here ++ [part]) rest

/-- The place that a path leads to, if something is there. The parts are followed one at a time,
so a path may be of any length. -/
def resolve (d : Disk) (path : String) : Except FileError Place :=
  if path.isEmpty then .error .notFound
  else if path.toList.contains '\x00' then .error .zeroCharacter
  else d.follow (if Path.isAbsolute path then [] else d.workingDirectory) (Path.parts path)

/-- The place that a path leads to when it is handed to the file system as a whole, as for
looking at a file or opening it. The length of the path is then limited. -/
def resolveWhole (d : Disk) (path : String) : Except FileError Place :=
  if path.toList.contains '\x00' then .error .zeroCharacter
  else if maxPathBytes ≤ path.utf8ByteSize then .error .nameTooLong
  else d.resolve path

/-- Whether a path leads to anything. -/
def exists? (d : Disk) (path : String) : Bool :=
  (d.resolveWhole path).toBool

/-- Whether a path leads to a file. -/
def isFile (d : Disk) (path : String) : Bool :=
  match d.resolveWhole path with
  | .ok p =>
    match d.node? p with
    | some (.file _) => true
    | _ => false
  | .error _ => false

/-- The text of the file at a place. -/
def readPlace (d : Disk) (p : Place) : Except FileError String :=
  match d.node? p with
  | some (.file content) =>
    match String.fromUTF8? content with
    | some s => .ok s
    | none => .error .notText
  | some .directory => .error .isADirectory
  | none => .error .notFound

/-- The text of the file that a path leads to. -/
def readText (d : Disk) (path : String) : Except FileError String := do
  d.readPlace (← d.resolveWhole path)

end Disk

end TinyLisp
