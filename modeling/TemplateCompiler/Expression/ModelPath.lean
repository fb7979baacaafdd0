import TemplateCompiler.Text.Blank
import TemplateCompiler.Text.Cut

/-!
# Model paths

The target of a two-way binding, `form.users[0].name`, split into the expression that holds the last
segment and the list of segments. Names come back as quoted literals and bracketed segments as they
were written. Writing to a path of several segments goes through `$set`.
-/

namespace TemplateCompiler

/-- A bound path: the expression of all but its last segment, and its segments. -/
structure ModelPath where
  exp : String
  segments : List String
  deriving DecidableEq, Inhabited

namespace ModelPath

open Text

/-- The state of a scan over a path. -/
structure Scan where
  /-- The characters since the last segment ended, latest first. -/
  current : List Char := []
  /-- How many square brackets are open, counted without a bound. -/
  depth : Int := 0
  previous : Option Char := none
  /-- The segments found, latest first. -/
  found : List String := []

/-- The characters since the last segment ended, in order. -/
def Scan.text (s : Scan) : String := String.ofList s.current.reverse

def quotedName (name : String) : String := "\"" ++ name ++ "\""

/-- The state after a dot: outside brackets it ends a name. -/
def Scan.dot (s : Scan) : Scan :=
  if s.depth ≠ 0 then { s with current := '.' :: s.current, previous := some '.' }
  else
    { s with
      current := []
      previous := some '.'
      found := if s.previous = some ']' then s.found else quotedName s.text :: s.found }

/-- The state after an opening bracket: the outermost one ends a name. -/
def Scan.openBracket (s : Scan) : Scan :=
  if s.depth ≠ 0 then
    { s with current := '[' :: s.current, depth := s.depth + 1, previous := some '[' }
  else
    { current := []
      depth := 1
      previous := some '['
      found :=
        if s.current.isEmpty then s.found
        else if s.previous = some ']' then s.text :: s.found
        else quotedName s.text :: s.found }

/-- The state after a closing bracket: the outermost one ends a bracketed segment. -/
def Scan.closeBracket (s : Scan) : Scan :=
  if s.depth ≠ 1 then
    { s with current := ']' :: s.current, depth := s.depth - 1, previous := some ']' }
  else { current := [], depth := 0, previous := some ']', found := s.text :: s.found }

/-- The state after a character. -/
def Scan.step (s : Scan) (c : Char) : Scan :=
  if c = '.' then s.dot
  else if c = '[' then s.openBracket
  else if c = ']' then s.closeBracket
  else { s with current := c :: s.current, previous := some c }

/-- The segments when the path has ended. -/
def Scan.finish (s : Scan) : List String :=
  (if s.current.isEmpty then s.found else quotedName s.text :: s.found).reverse

def segmentsOf (path : List Char) : List String := (path.foldl Scan.step {}).finish

/-- How many bytes the last segment takes at the end of a path, with its dot or its brackets. -/
def trailingBytes (path : List Char) (segments : List String) : Nat :=
  let last := (segments.getLast?.map String.utf8ByteSize).getD 0
  if path.getLast? = some ']' then last + 2 else last - 1

def parse (value : String) : ModelPath :=
  let path := trimmed value.toList
  if path.any fun c => c = '[' || c = ']' || c = '.' then
    let segments := segmentsOf path
    let front := byteLength path - trailingBytes path segments
    { exp := String.ofList ((takeBytes? front path).getD []), segments }
  else { exp := String.ofList path, segments := [String.ofList path] }

def assignment (value assigned : String) : String :=
  let path := parse value
  if path.segments.length ≤ 1 then value ++ "=" ++ assigned
  else if "state.".toList.isPrefixOf (trimStart value.toList) then
    "$set(state, [" ++ String.intercalate "," path.segments.tail ++ "], " ++ assigned ++ ")"
  else
    "$set(" ++ path.exp ++ ", " ++ path.segments.getLast?.getD "" ++ ", " ++ assigned ++ ")"

end ModelPath

end TemplateCompiler
