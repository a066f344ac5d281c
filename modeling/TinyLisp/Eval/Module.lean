import TinyLisp.Eval.Engine

/-!
# Modules

A module is a scope with a list of names to show. It is made by a module form, whose body runs
in a frame of its own, or from a file, whose forms run in a frame inside the outermost scope. A
module made at top level, there or in a file, is registered under its name, and a later import
finds it by name alone. A file is loaded once; its module is kept with the place of the file.
-/

namespace TinyLisp

/-! ## §1. The library -/

namespace Library

/-- Registers a module under its name. -/
def register (l : Library) (m : Module) : Library :=
  { l with registry := l.registry.set m.name m }

/-- Notes that the loading of a file begins. -/
def enter (l : Library) (p : Place) : Library :=
  { l with loading := p :: l.loading }

/-- Notes that the loading of a file has ended. -/
def leave (l : Library) (p : Place) : Library :=
  { l with loading := l.loading.filter (· ≠ p) }

/-- Keeps the module of a file. -/
def keep (l : Library) (p : Place) (m : Module) : Library :=
  { l with files := l.files.set p m }

end Library

namespace Eval

/-- What is known of modules. -/
def library : Eval Library := do
  pure (← get).library

/-- Changes what is known of modules. -/
def modifyLibrary (f : Library → Library) : Eval Unit :=
  modify fun w => { w with library := f w.library }

/-- Registers a module under its name. -/
def register (m : Module) : Eval Unit :=
  modifyLibrary (·.register m)

/-- A new module. -/
def newModule (name : String) (scope : Scope) (exports : List String) : Eval Module := do
  pure ⟨← newTag, name, scope, exports⟩

/-- Fails for a module that cannot be had. -/
def refuse {α : Type} (path : String) (fault : LoadFault) : Eval α :=
  fail (.unavailable path fault)

end Eval

/-! ## §2. Module forms -/

/-- The first of some names that a frame does not bind. -/
def Store.firstMissing? (s : Store) (f : FrameId) (names : List String) : Option String :=
  names.find? fun name => !s.binds f name

/-- The innermost frame of a scope. -/
def Scope.innermost (scope : Scope) : FrameId :=
  scope.headD rootFrame

/-- Runs the body of a module form in a frame of its own, checks that it binds every exported
name, and gives the module its name in the surrounding scope. Only at top level is the module
registered. -/
def Engine.defineModule (en : Engine) (name : String) (exports : List String)
    (body : List Expr) (scope : Scope) : Eval Module := do
  let inner ← Eval.extend scope
  let _ ← en.evalEach inner body
  match (← get).store.firstMissing? inner.innermost exports with
  | some missing => Eval.refuse name (.missingExport missing)
  | none =>
    let m ← Eval.newModule name inner exports
    if scope = rootScope then Eval.register m
    Eval.bindName scope name (.module m)
    pure m

/-! ## §3. Files -/

/-- What the name of a module is followed by in the name of its file. -/
def moduleExtension : String := ".mlisp"

namespace Context

/-- The first file in the search path with a given path beneath its directory. -/
def search? (ctx : Context) (path : String) : Option String :=
  (ctx.settings.searchPath.map fun dir => Path.join dir path).find? ctx.disk.isFile

/-- The path to load for a path in an import. A relative path that leads to nothing from the
working directory is tried in the search path. -/
def pathToLoad (ctx : Context) (path : String) : String :=
  if Path.isAbsolute path || ctx.disk.exists? path then path
  else (ctx.search? path).getD path

end Context

/-- The modules that a frame binds to their own names, in the order of names. -/
def Store.ownModules (s : Store) (f : FrameId) : List Module :=
  (s.names f).filterMap fun name =>
    match (s.slotIn? f name).map s.read with
    | some (.module m) => if m.name = name then some m else none
    | _ => none

namespace Engine

/-- Builds and evaluates forms just read from left to right; gives the last value. -/
def evalForms (en : Engine) (scope : Scope) (last : Value) : List Value → Eval Value
  | [] => pure last
  | form :: forms => do
    let v ← en.evalForm scope (← Eval.tagForm form)
    en.evalForms scope v forms

/-- Registers the modules that a file defined at its top, and gives the module of the file: the
one that has the file's name, or else one that shows every name the file bound. -/
def fileModule (name : String) (scope : Scope) : Eval Module := do
  let store := (← get).store
  let own := store.ownModules scope.innermost
  Eval.modifyLibrary fun l => own.foldl Library.register l
  match own.find? fun m => m.name = name with
  | some m => pure m
  | none =>
    let m ← Eval.newModule name scope (store.names scope.innermost)
    Eval.register m
    pure m

/-- Reads and evaluates the file at a place, and gives its module. -/
def runFile (en : Engine) (ctx : Context) (p : Place) : Eval Module := do
  match ctx.disk.readPlace p with
  | .error e => Eval.refuse (Path.ofParts p) (.file e)
  | .ok source =>
    match readData source with
    | .error e => Eval.refuse (Path.ofParts p) (.read e)
    | .ok forms =>
      let scope ← Eval.extend rootScope
      let _ ← en.evalForms scope .nil forms
      fileModule (Path.stem (p.getLast?.getD "")) scope

/-- Gives the module of the file that a path leads to: the one kept, if the file was loaded
before. A file that is being loaded cannot be loaded again. -/
def load (en : Engine) (ctx : Context) (path : String) : Eval Module := do
  match ctx.disk.resolve path with
  | .error e => Eval.refuse path (.file e)
  | .ok p =>
    match (← Eval.library).files.get? p with
    | some m => pure m
    | none =>
      if (← Eval.library).loading.contains p then Eval.refuse path .circular
      else
        Eval.modifyLibrary (·.enter p)
        let result ← Eval.observe (en.runFile ctx p)
        Eval.modifyLibrary (·.leave p)
        match result with
        | .error halt => throw halt
        | .ok m =>
          Eval.modifyLibrary (·.keep p m)
          pure m

/-! ## §4. Imports -/

/-- The module with a name, where no scope says what the name means: a registered one, or the
module of a file in the search path. -/
def resolveUnbound (en : Engine) (ctx : Context) (name : String) : Eval Module := do
  match (← Eval.library).registry.get? name with
  | some m => pure m
  | none =>
    match ctx.search? (name ++ moduleExtension) with
    | some path => en.load ctx path
    | none => Eval.refuse (name ++ moduleExtension) .notInSearchPath

/-- The module that an import names. -/
def resolve (en : Engine) (ctx : Context) (scope : Scope) : ImportTarget → Eval Module
  | .path path => en.load ctx (ctx.pathToLoad path)
  | .name name => do
    match (← get).store.lookup scope name with
    | .ok (.module m) => pure m
    | .ok _ => Eval.fail (.notAModule name)
    | .error (.unbound _) => en.resolveUnbound ctx name
    | .error e => Eval.fail e

end Engine

namespace Eval

/-- Gives a scope the bindings that a module has under some names, one after another. -/
def importNames (m : Module) (scope : Scope) : List String → Eval Unit
  | [] => pure ()
  | name :: names => do
    bindName scope name (← lookup m.scope name)
    importNames m scope names

/-- Gives a scope the bindings that a module shows under some names, one after another. -/
def importShown (m : Module) (scope : Scope) : List String → Eval Unit
  | [] => pure ()
  | name :: names => do
    if m.exports.contains name then
      bindName scope name (← lookup m.scope name)
      importShown m scope names
    else fail (.unbound (m.name ++ "." ++ name))

/-- Brings a module into a scope. -/
def importModule (m : Module) (scope : Scope) : ImportSpec → Eval Unit
  | .all => importNames m scope m.exports
  | .only names => importShown m scope names
  | .renamed name => bindName scope name (.module m)

end Eval

end TinyLisp
