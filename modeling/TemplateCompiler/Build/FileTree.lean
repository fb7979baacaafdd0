/-!
# File trees

What a directory holds: files and directories under their names, in the order in which they were
made.
-/

namespace TemplateCompiler

/-- The contents of a directory. -/
inductive FileTree where
  | empty
  | file (name content : String) (rest : FileTree)
  | folder (name : String) (inside rest : FileTree)
  deriving DecidableEq, Inhabited

namespace FileTree

/-- What stands under a name. -/
inductive Entry where
  | file (content : String)
  | directory (inside : FileTree)
  deriving DecidableEq, Inhabited

/-- Adds an entry in front of others. -/
def cons (name : String) : Entry → FileTree → FileTree
  | .file content, rest => .file name content rest
  | .directory inside, rest => .folder name inside rest

def get? (name : String) : FileTree → Option Entry
  | .empty => none
  | .file n content rest => if n = name then some (.file content) else rest.get? name
  | .folder n inside rest => if n = name then some (.directory inside) else rest.get? name

/-- Replaces the entry under a name where it stands, or adds it at the end. -/
def set (name : String) (entry : Entry) : FileTree → FileTree
  | .empty => cons name entry .empty
  | .file n content rest =>
    if n = name then cons name entry rest else .file n content (rest.set name entry)
  | .folder n inside rest =>
    if n = name then cons name entry rest else .folder n inside (rest.set name entry)

def files : FileTree → List (String × String)
  | .empty => []
  | .file name content rest => (name, content) :: rest.files
  | .folder name inside rest =>
    inside.files.map (fun f => (name ++ "/" ++ f.1, f.2)) ++ rest.files

end FileTree

end TemplateCompiler
