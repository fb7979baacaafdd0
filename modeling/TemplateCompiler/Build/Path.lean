import TemplateCompiler.Text.Cut

/-!
# Paths

Paths as texts: names with separators between them. A path may repeat separators, and may name the
directory that it has come to by a dot and the one around it by two.
-/

namespace TemplateCompiler.Path

def pieces (path : String) : List String :=
  let split := Text.splitAt '/' path.toList
  (split.1 :: split.2).map String.ofList

/-- Whether a path starts at the root of the file system. -/
def isAbsolute (path : String) : Bool := path.toList.head? = some '/'

def endsInSeparator (path : String) : Bool := path.toList.getLast? = some '/'

def staysPut (piece : String) : Bool := piece = "" || piece = "."

/-- A path is usable when it is not empty, has fewer than 4096 bytes and holds no null character. -/
def isUsable (path : String) : Bool :=
  path ≠ "" && path.utf8ByteSize < 4096 && !path.toList.contains '\x00'

def isName (name : String) : Bool := name.utf8ByteSize ≤ 255

/-- The paths that go on from `start` through each of the pieces that lead somewhere, shortest
first. -/
def stagesFrom (start : String) : List String → List String
  | [] => []
  | piece :: rest =>
    let path := start ++ "/" ++ piece
    if staysPut piece then stagesFrom path rest else path :: stagesFrom path rest

/-- The parts of a path that end where it has come to another directory, shortest first. A dot
counts only where a path starts with it. -/
def stages (path : String) : List String :=
  match pieces path with
  | [] => []
  | first :: rest => (if first = "" then [] else [first]) ++ stagesFrom first rest

/-- A path and the paths of the directories around it, the path first. A path without names has
none. -/
def ancestors (path : String) : List String :=
  match (stages path).reverse with
  | [] => []
  | _ :: above => path :: above

/-- The name of a file without its ending. A name that only starts with a dot has none. -/
def stem (path : String) : String :=
  let split := Text.splitAt '/' path.toList
  let name := split.2.getLast?.getD split.1
  match Text.cutLast? '.' name with
  | some (stem, _) => String.ofList (if stem.isEmpty then name else stem)
  | none => String.ofList name

def join (directory file : String) : String :=
  if directory = "" then file
  else if endsInSeparator directory then directory ++ file
  else directory ++ "/" ++ file

end TemplateCompiler.Path
