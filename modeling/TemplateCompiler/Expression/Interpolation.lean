import TemplateCompiler.Expression.FilterChain
import TemplateCompiler.Text.Quoted

/-!
# Interpolated text

Text with expressions between delimiters, such as a pair of double braces, split into literal and
expression tokens. An interpolation holds at least one character, and ends at the first closing
delimiter after that character.
-/

namespace TemplateCompiler

/-- A piece of an interpolated text. -/
inductive TextToken where
  | literal (text : String)
  | expression (code : String)
  deriving DecidableEq, Inhabited

namespace Interpolation

open Text

/-- The opening and closing delimiter; either being empty stands for double braces. -/
def delimiters : Option (String × String) → List Char × List Char
  | some (opening, closing) =>
    if opening = "" ∨ closing = "" then (['\x7b', '\x7b'], ['\x7d', '\x7d'])
    else (opening.toList, closing.toList)
  | none => (['\x7b', '\x7b'], ['\x7d', '\x7d'])

/-- The first interpolation of a text: what precedes it, its body, and what follows it. -/
def next? (opening closing text : List Char) : Option (List Char × List Char × List Char) :=
  match cut? opening text with
  | some (before, first :: rest) =>
    (cut? closing rest).map fun p => (before, first :: p.1, p.2)
  | _ => none

theorem length_lt_of_next? {opening closing text before body after : List Char}
    (h : next? opening closing text = some (before, body, after)) :
    after.length < text.length := by
  unfold next? at h
  split at h
  · next b first rest hopen =>
    obtain ⟨⟨x, y⟩, hclose, heq⟩ := Option.map_eq_some_iff.mp h
    cases heq
    have h1 := length_eq_of_cut? hopen
    have h2 := length_eq_of_cut? hclose
    simp only [List.length_cons] at h1
    show y.length < text.length
    omega
  · cases h

def literalTokens (text : List Char) : List TextToken :=
  if text.isEmpty then [] else [.literal (String.ofList text)]

/-- The tokens of a text: literals and the expressions between them. -/
def tokens (opening closing text : List Char) : List TextToken :=
  match _h : next? opening closing text with
  | some (before, body, after) =>
    literalTokens before ++
      .expression (FilterChain.parse (String.ofList (trimmed body))) :: tokens opening closing after
  | none => literalTokens text
termination_by text.length
decreasing_by exact length_lt_of_next? _h

def parse? (pair : Option (String × String)) (text : String) : Option (List TextToken) :=
  let (opening, closing) := delimiters pair
  if (next? opening closing text.toList).isSome then
    some (tokens opening closing text.toList)
  else none

def tokenCode : TextToken → String
  | .literal text => literal text
  | .expression code => "_s(" ++ code ++ ")"

def toExpression (tokens : List TextToken) : String :=
  String.intercalate "+" (tokens.map tokenCode)

end Interpolation

end TemplateCompiler
