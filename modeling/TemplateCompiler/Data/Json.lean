import TemplateCompiler.Text.Quoted

/-!
# JSON values

The values that extensions attach to elements and that the compiler's output is written as. Objects
keep their fields in order. There is a compact text and one with two spaces of indentation.
-/

namespace TemplateCompiler

/-- A JSON value with whole numbers. -/
inductive Json where
  | null
  | bool (value : Bool)
  | number (value : Int)
  | string (value : String)
  | array (items : List Json)
  | object (fields : List (String × Json))
  deriving Inhabited

namespace Json

open Text

mutual

/-- The text of a value without any blanks. -/
def compact : Json → String
  | .null => "null"
  | .bool value => if value then "true" else "false"
  | .number value => value.repr
  | .string value => quoted value
  | .array items => "[" ++ String.intercalate "," (compactItems items) ++ "]"
  | .object fields => "\x7b" ++ String.intercalate "," (compactFields fields) ++ "\x7d"

def compactItems : List Json → List String
  | [] => []
  | item :: rest => item.compact :: compactItems rest

def compactFields : List (String × Json) → List String
  | [] => []
  | (key, value) :: rest => (quoted key ++ ":" ++ value.compact) :: compactFields rest

end

/-- Lines of a bracketed list, each indented by one step more than the brackets. -/
def bracketed (opening closing indent : String) (items : List String) : String :=
  if items.isEmpty then opening ++ closing
  else
    opening ++ "\n" ++ String.intercalate ",\n" (items.map (indent ++ "  " ++ ·)) ++ "\n" ++
      indent ++ closing

mutual

/-- The text of a value with each item and field on a line of its own. -/
def pretty (indent : String) : Json → String
  | .null => "null"
  | .bool value => if value then "true" else "false"
  | .number value => value.repr
  | .string value => quoted value
  | .array items => bracketed "[" "]" indent (prettyItems (indent ++ "  ") items)
  | .object fields => bracketed "\x7b" "\x7d" indent (prettyFields (indent ++ "  ") fields)

def prettyItems (indent : String) : List Json → List String
  | [] => []
  | item :: rest => item.pretty indent :: prettyItems indent rest

def prettyFields (indent : String) : List (String × Json) → List String
  | [] => []
  | (key, value) :: rest =>
    (quoted key ++ ": " ++ value.pretty indent) :: prettyFields indent rest

end

end Json

end TemplateCompiler
