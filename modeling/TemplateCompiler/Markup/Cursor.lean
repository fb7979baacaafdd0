import TemplateCompiler.Text.Blank
import TemplateCompiler.Text.Cut

/-!
# Cursors

A place in the source: the characters ahead and how many bytes lie behind.
-/

namespace TemplateCompiler.Markup

open Text

/-- The characters ahead and the number of bytes behind them. -/
structure Cursor where
  offset : Nat := 0
  rest : List Char
  deriving Inhabited

namespace Cursor

def past (c : Cursor) (taken rest : List Char) : Cursor := ⟨c.offset + byteLength taken, rest⟩

/-- The longest run of characters of a class ahead, and the cursor past it. -/
def takeWhile (c : Cursor) (p : Char → Bool) : List Char × Cursor :=
  (c.rest.takeWhile p, c.past (c.rest.takeWhile p) (c.rest.dropWhile p))

/-- The cursor past the white space ahead. -/
def skipBlank (c : Cursor) : Cursor := (c.takeWhile isBlankChar).2

theorem length_rest_skipBlank_le (c : Cursor) : c.skipBlank.rest.length ≤ c.rest.length :=
  (List.dropWhile_sublist _).length_le

end Cursor

end TemplateCompiler.Markup
