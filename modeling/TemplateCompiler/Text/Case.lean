import TemplateCompiler.Text.Numeral
import TemplateCompiler.Text.Upper

/-!
# Letter case

Names written with hyphens and their camel case form, and the ASCII lower case by which tags are
compared.
-/

namespace TemplateCompiler.Text

/-- Whether a hyphen before the character marks a new word. -/
def startsWord (c : Char) : Bool := isAlphanumeric c || c == '_'

/-- Replaces each hyphen before a word character, and that character, by its upper case. -/
def camelizeChars : List Char → List Char
  | [] => []
  | [c] => [c]
  | '-' :: c :: rest =>
    if startsWord c then upper c ++ camelizeChars rest else '-' :: camelizeChars (c :: rest)
  | c :: rest => c :: camelizeChars rest

/-- The camel case of a hyphenated name: `foo-bar` becomes `fooBar`. -/
def camelize (s : String) : String := String.ofList (camelizeChars s.toList)

/-- The text with its first character in upper case. -/
def capitalize (s : String) : String :=
  match s.toList with
  | [] => ""
  | c :: rest => String.ofList (upper c ++ rest)

def asciiLower (s : String) : String := String.ofList (s.toList.map Char.toLower)

end TemplateCompiler.Text
