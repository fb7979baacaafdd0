import TemplateCompiler.Text.Blank
import TemplateCompiler.Text.Cut
import TemplateCompiler.Text.Numeral

/-!
# Filter chains

`expression | first | second(argument)` in a binding or an interpolation. A bar separates only where
it stands alone, outside every bracket and outside string, template and regular expression
literals. The chain is written as nested calls `_f("second")(_f("first")(expression),argument)`.
-/

namespace TemplateCompiler.FilterChain

open Text

/-- What the scan is inside of. -/
inductive Mode where
  | code
  | single
  | double
  | template
  | regex
  deriving DecidableEq, Inhabited

/-- The state of a scan over an expression. -/
structure Scan where
  mode : Mode := .code
  /-- The character before the current one. -/
  previous : Char := '\x00'
  /-- The last character other than a space. -/
  operand : Option Char := none
  curly : Int32 := 0
  square : Int32 := 0
  paren : Int32 := 0
  deriving Inhabited

/-- Whether a slash after this character divides. Anywhere else it opens a regular expression. -/
def endsOperand (c : Char) : Bool :=
  isAlphanumeric c || ['_', ')', '.', '+', '-', '$', ']'].contains c

/-- Leaves a literal at its closing character, unless that is escaped. -/
def Scan.leaveAt (s : Scan) (close c : Char) : Mode :=
  if c = close ∧ s.previous ≠ '\\' then .code else s.mode

/-- The mode after a character met in code. -/
def Scan.enterAt (s : Scan) (c : Char) : Mode :=
  if c = '"' then .double
  else if c = '\'' then .single
  else if c = '`' then .template
  else if c = '/' ∧ ¬ s.operand.any endsOperand then .regex
  else .code

def Scan.modeAfter (s : Scan) (c : Char) : Mode :=
  match s.mode with
  | .code => s.enterAt c
  | .single => s.leaveAt '\'' c
  | .double => s.leaveAt '"' c
  | .template => s.leaveAt '`' c
  | .regex => s.leaveAt '/' c

/-- How far a character moves the depth of a pair of brackets, which only counts in code. -/
def Scan.depthChange (s : Scan) (opening closing c : Char) : Int32 :=
  if s.mode ≠ .code then 0 else if c = opening then 1 else if c = closing then -1 else 0

/-- The state after a character. -/
def Scan.advance (s : Scan) (c : Char) : Scan where
  mode := s.modeAfter c
  previous := c
  operand := if c = ' ' then s.operand else some c
  curly := s.curly + s.depthChange '\x7b' '\x7d' c
  square := s.square + s.depthChange '[' ']' c
  paren := s.paren + s.depthChange '(' ')' c

/-- Whether a character separates two filters, given the one after it. -/
def Scan.splits (s : Scan) (c : Char) (next : Option Char) : Bool :=
  s.mode == .code && c == '|' && next != some '|' && s.previous != '|' &&
    s.curly == 0 && s.square == 0 && s.paren == 0

/-- Splits an expression at its separating bars: what stands before the first, and the filters. -/
def split : Scan → List Char → List Char × List (List Char)
  | _, [] => ([], [])
  | s, c :: cs =>
    let rest := split (s.advance c) cs
    if s.splits c cs.head? then ([], rest.1 :: rest.2) else (c :: rest.1, rest.2)

/-- One filter applied to an expression; declared arguments follow the expression. -/
def wrap (exp filter : String) : String :=
  match cut? ['('] filter.toList with
  | none => "_f(\"" ++ filter ++ "\")(" ++ exp ++ ")"
  | some (name, args) =>
    "_f(\"" ++ String.ofList name ++ "\")(" ++ exp ++ (if args = [')'] then "" else ",") ++
      String.ofList args

/-- Writes a possibly filtered expression as nested filter calls. -/
def parse (exp : String) : String :=
  let parts := split {} exp.toList
  (parts.2.map fun filter => String.ofList (trimmed filter)).foldl wrap
    (String.ofList (trimmed parts.1))

end TemplateCompiler.FilterChain
