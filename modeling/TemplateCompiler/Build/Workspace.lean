import TemplateCompiler.Build.FileTree
import TemplateCompiler.Build.Path

/-!
# Workspaces

A file tree with a working directory, and the operations on files by their paths. A path is followed
name by name, so all names before its last must be those of directories that are there; one that
ends in a dot needs all of them.
-/

namespace TemplateCompiler

/-- A file tree with a working directory. -/
structure Workspace where
  tree : FileTree := .folder "home" .empty .empty
  /-- The names that lead from the root to the working directory. -/
  home : List String := ["home"]
  deriving DecidableEq, Inhabited

/-- The directories on the way from the root, innermost first, with what they hold. -/
abbrev Trail := List (String × FileTree)

/-- Where a path leads. -/
inductive Destination where
  | directory (trail : Trail)
  | file (trail : Trail) (name content : String)
  /-- To a name that is free in a directory that is there. -/
  | free (trail : Trail) (name : String)
  /-- Through a directory that is not there. -/
  | lost
  /-- Through a file, or by names that cannot be. -/
  | blocked
  deriving Inhabited

/-- How an attempt to make a directory ends. -/
inductive Making where
  | made
  /-- The directory around it is not there. -/
  | lost
  | refused
  deriving DecidableEq, Inhabited

namespace Trail

/-- What the directory at the end of a trail holds. -/
def contents (root : FileTree) : Trail → FileTree
  | [] => root
  | (_, inside) :: _ => inside

/-- The tree from its root, when the directory at the end of a trail holds something else. -/
def rebuild (root : FileTree) : Trail → FileTree → FileTree
  | [], inside => inside
  | (name, _) :: above, inside =>
    rebuild root above (FileTree.set name (.directory inside) (contents root above))

/-- Follows the pieces of a path from the end of a trail. There is nothing around the root. -/
def follow (root : FileTree) (trail : Trail) : List String → Destination
  | [] => .directory trail
  | piece :: rest =>
    if Path.staysPut piece then follow root trail rest
    else if piece = ".." then follow root trail.tail rest
    else if !Path.isName piece then .blocked
    else
      match (contents root trail).get? piece with
      | some (.directory inside) => follow root ((piece, inside) :: trail) rest
      | some (.file content) => if rest.isEmpty then .file trail piece content else .blocked
      | none => if rest.all (· = "") then .free trail piece else .lost

end Trail

namespace Workspace

def resolve (w : Workspace) (path : String) : Destination :=
  if !Path.isUsable path then .blocked
  else
    Trail.follow w.tree [] ((if Path.isAbsolute path then [] else w.home) ++ Path.pieces path)

def put (w : Workspace) (trail : Trail) (name : String) (entry : FileTree.Entry) : Workspace :=
  { w with tree := trail.rebuild w.tree ((trail.contents w.tree).set name entry) }

def read? (w : Workspace) (path : String) : Option String :=
  match w.resolve path with
  | .file _ _ content => some content
  | _ => none

def isDirectory (w : Workspace) (path : String) : Bool :=
  match w.resolve path with
  | .directory _ => true
  | _ => false

def makeDirectory (w : Workspace) (path : String) : Making × Workspace :=
  match w.resolve path with
  | .free trail name => (.made, w.put trail name (.directory .empty))
  | .lost => (.lost, w)
  | _ => (.refused, w)

def write? (w : Workspace) (path content : String) : Option Workspace :=
  match w.resolve path with
  | .file trail name _ => some (w.put trail name (.file content))
  | .free trail name =>
    if Path.endsInSeparator path then none else some (w.put trail name (.file content))
  | _ => none

/-- The files below the working directory with their paths. -/
def files (w : Workspace) : List (String × String) :=
  match Trail.follow w.tree [] w.home with
  | .directory trail => (trail.contents w.tree).files
  | _ => []

end Workspace

end TemplateCompiler
