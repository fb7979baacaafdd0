import TemplateCompiler.Web.ClassModule

/-!
# Style attributes

Reads the declarations of a style attribute, and merges the plain and the bound style of an element
into one entry of its data object. A semicolon inside parentheses does not end a declaration.
-/

namespace TemplateCompiler.Web

open Text

/-- How a character changes the number of open parentheses. -/
def parenChange (c : Char) : Int := if c = '(' then 1 else if c = ')' then -1 else 0

/-- The first declaration of a style text and the ones after it, given how many parentheses are
open. -/
def splitStyle : Int → List Char → List Char × List (List Char)
  | _, [] => ([], [])
  | depth, c :: cs =>
    let rest := splitStyle (depth + parenChange c) cs
    if c = ';' ∧ depth ≤ 0 then ([], rest.1 :: rest.2) else (c :: rest.1, rest.2)

def declaration? (cs : List Char) : Option (String × String) :=
  (cut? [':'] cs).map fun p => (String.ofList (trimmed p.1), String.ofList (trimmed p.2))

/-- The declarations of a style text. A repeated property keeps its place and takes the last
value. -/
def parseStyle (text : String) : List (String × String) :=
  let parts := splitStyle 0 text.toList
  ((parts.1 :: parts.2).filterMap declaration?).foldl (fun all d => upsert all d.1 d.2) []

def styleObject (declarations : List (String × String)) : String :=
  (Json.object (declarations.map fun d => (d.1, .string d.2))).compact

def keepStyle (plain : Option String) (el : Element) : Element :=
  let declarations := plain.elim [] parseStyle
  if declarations.isEmpty then el
  else { el with staticStyle := some (styleObject declarations) }

def takeBoundStyle (s : Settings) (el : Element) : Element :=
  match el.takeBound "style" s.directivePrefix with
  | (some code, el) => { el with styleBinding := some code }
  | (none, el) => el

def takeStyle (s : Settings) (el : Element) : Noted Element := do
  let plain ← takePlain s "style" el
  return takeBoundStyle s (keepStyle plain.1 plain.2)

/-- What stands between the first and the last character. -/
def inside (cs : List Char) : List Char := cs.tail.dropLast

/-- The entry for both a plain and a bound style: an object literal is merged at compile time. -/
def mergedStyle (plain bound : String) : String :=
  let object := trimmed bound.toList
  if object.head? = some '\x7b' ∧ object.getLast? = some '\x7d' then
    "style:(" ++
      braced (String.ofList (inside plain.toList) ++ "," ++ String.ofList (inside object)) ++ "),"
  else "style:_rs(" ++ bound ++ ", " ++ plain ++ "),"

def styleData (el : Element) : String :=
  match el.staticStyle, el.styleBinding with
  | some plain, some bound => mergedStyle plain bound
  | none, some bound => "style:(_rs(" ++ bound ++ ")),"
  | some plain, none => "style:(" ++ plain ++ "),"
  | none, none => ""

def styleModule : Module where
  transform s el := takeStyle s el
  data el := pure (styleData el)

end TemplateCompiler.Web
