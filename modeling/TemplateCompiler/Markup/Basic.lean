/-!
# Places and attributes

Byte ranges of the source, and attributes as they are written in a start tag.
-/

namespace TemplateCompiler

/-- A range of bytes of the template source. -/
structure Span where
  start : Nat := 0
  stop : Nat := 0
  deriving DecidableEq, Inhabited

/-- An attribute as written: its references are decoded, and a missing value is empty. -/
structure Attr where
  name : String
  value : String
  span : Span := {}
  deriving DecidableEq, Inhabited

end TemplateCompiler
