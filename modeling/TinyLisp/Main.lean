import TinyLisp.Dialogue

/-!
# The program

Everything that touches the outside world: the arguments, the files, the terminal. The program
sees the files that were there when it started: module files below the working directory and
the directories it searches, and the files named on the command line.
-/

namespace TinyLisp.Program

/-- How many levels of directories the program looks into. -/
def searchDepth : Nat := 16

/-- The place that a path leads to from a working directory, by its text alone. -/
def placeOf (cwd : Place) (path : String) : Place :=
  (Path.parts path).foldl
    (fun here part =>
      if part = "." then here else if part = ".." then here.dropLast else here ++ [part])
    (if Path.isAbsolute path then [] else cwd)

/-- The module files in a directory and, up to some depth, below it. Hidden directories and
what cannot be read are passed over. -/
def gather : Nat → String → Place → IO (List (Place × Node))
  | 0, _, _ => pure []
  | depth + 1, dir, p => do
    try
      let mut found := [(p, Node.directory)]
      for entry in ← (← IO.FS.realPath dir).readDir do
        let name := entry.fileName
        let path := dir ++ "/" ++ name
        if ← entry.path.isDir then
          unless name.startsWith "." do
            found := found ++ (← gather depth path (p ++ [name]))
        else if name.endsWith moduleExtension then
          found := found ++ [(p ++ [name], .file (← IO.FS.readBinFile path))]
      pure found
    catch _ => pure []

/-- The file that a path leads to, if it can be read. -/
def gatherFile (path : String) (p : Place) : IO (List (Place × Node)) := do
  try pure [(p, .file (← IO.FS.readBinFile path))]
  catch _ => pure []

/-- The files that a command line can reach. -/
def reachable (args : List String) (path : Option String) : IO Disk := do
  let cwd := placeOf [] (toString (← IO.currentDir))
  match Invocation.ofArguments args path with
  | .error _ => pure ⟨cwd, []⟩
  | .ok inv =>
    let dirs := ("." :: inv.settings.searchPath).eraseDups
    let files ← inv.files.mapM fun f => gatherFile f (placeOf cwd f)
    let below ← dirs.mapM fun d => gather searchDepth d (placeOf cwd d)
    pure ⟨cwd, (files ++ below).flatten⟩

/-- Talks to the user up to the end of the input. -/
partial def talk (d : Dialogue) : IO Unit := do
  IO.print d.prompt
  (← IO.getStdout).flush
  let line ← (← IO.getStdin).getLine
  if line.isEmpty then
    IO.println ""
  else
    let typed := if line.endsWith "\n" then line.dropEnd 1 else line.toSlice
    let (reply, d) := d.feed typed.toString
    let (output, session) := d.session.takeOutput
    IO.print output
    match reply with
    | .more => pure ()
    | .value text => IO.println text
    | .failure report => IO.eprintln report
    talk { d with session := session }

end TinyLisp.Program

open TinyLisp in
/-- Runs the command line; fails with exit code 1. -/
def main (args : List String) : IO UInt32 := do
  let path ← IO.getEnv Invocation.pathVariable
  let disk ← Program.reachable args path
  let (result, output) := runCommandLine args path disk
  IO.print output
  match result with
  | .ok .done => pure 0
  | .ok (.interactive session) =>
    Program.talk (.start session)
    pure 0
  | .error e =>
    IO.eprintln (report e.message)
    pure 1
