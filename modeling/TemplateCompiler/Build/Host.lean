import TemplateCompiler.Build.Workspace

/-!
# Hosts

What a build needs from the world around it: files to read, a place to write them, and two streams
to print lines to. A host that keeps all of it as a value makes the build a function.
-/

namespace TemplateCompiler

/-- The operations of a host. Those on files say whether they succeeded. -/
structure Host (m : Type → Type) where
  read : String → m (Option String)
  isDirectory : String → m Bool
  /-- Makes one directory. -/
  makeDirectory : String → m Making
  write : String → String → m Bool
  /-- Prints a line of the result. -/
  print : String → m Unit
  /-- Prints a line about the run. -/
  report : String → m Unit

namespace Host

variable {m : Type → Type} [Monad m]

/-- Makes the first of some directories, each standing in the next. Only when the next is not there
it is made before, and a directory that is there already will do. -/
def makeFirst (h : Host m) : List String → m Bool
  | [] => pure true
  | path :: above => do
    match ← h.makeDirectory path with
    | .made => pure true
    | .refused => h.isDirectory path
    | .lost =>
      if ← h.makeFirst above then
        match ← h.makeDirectory path with
        | .made => pure true
        | _ => h.isDirectory path
      else pure false

/-- Makes a directory and all around it that are missing. -/
def makeDirectories (h : Host m) (path : String) : m Bool := h.makeFirst (Path.ancestors path)

end Host

/-- A run so far: the files as they are, and the lines printed. -/
structure Session where
  workspace : Workspace := {}
  printed : List String := []
  reported : List String := []
  deriving Inhabited

namespace Session

/-- Goes on with changed files, if the change succeeded. -/
def change (s : Session) : Option Workspace → Bool × Session
  | some workspace => (true, { s with workspace })
  | none => (false, s)

/-- The host that keeps files and lines in a session. -/
def host : Host (StateM Session) where
  read path := return (← get).workspace.read? path
  isDirectory path := return (← get).workspace.isDirectory path
  makeDirectory path := modifyGet fun s =>
    let (result, workspace) := s.workspace.makeDirectory path
    (result, { s with workspace })
  write path content := modifyGet fun s => s.change (s.workspace.write? path content)
  print line := modify fun s => { s with printed := s.printed ++ [line] }
  report line := modify fun s => { s with reported := s.reported ++ [line] }

end Session

end TemplateCompiler
