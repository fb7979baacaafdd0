import TemplateCompiler.Text.Range

/-!
# Blank characters

White space in the sense of the Unicode property *White_Space*, and trimming by it.
-/

namespace TemplateCompiler.Text

/-- The code point ranges of white space, in ascending order. -/
def blankRanges : List (Nat × Nat) := [
  (0x9, 0xD), (0x20, 0x20), (0x85, 0x85), (0xA0, 0xA0), (0x1680, 0x1680), (0x2000, 0x200A),
  (0x2028, 0x2029), (0x202F, 0x202F), (0x205F, 0x205F), (0x3000, 0x3000)]

def isBlankChar (c : Char) : Bool := inRanges blankRanges c.toNat

def isBlank (s : String) : Bool := s.toList.all isBlankChar

def trimStart (cs : List Char) : List Char := cs.dropWhile isBlankChar

def trimEnd (cs : List Char) : List Char := (cs.reverse.dropWhile isBlankChar).reverse

/-- Drops the white space at both ends. -/
def trimmed (cs : List Char) : List Char := trimEnd (trimStart cs)

/-- The text without the white space at its ends. -/
def trim (s : String) : String := String.ofList (trimmed s.toList)

end TemplateCompiler.Text
