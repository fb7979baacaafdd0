import TemplateCompiler.Text.Cut
import TemplateCompiler.Text.Word

/-!
# Character references

`&name;`, `&#number;` and `&#xhex;` in markup. A reference whose body is unknown, empty or longer
than ten bytes, or whose number is no character, stays as written.
-/

namespace TemplateCompiler.Text

def namedReferences : List (String × Char) := [
  ("lt", '<'), ("gt", '>'), ("amp", '&'), ("quot", '"'), ("apos", '\''), ("nbsp", '\u00a0'),
  ("copy", '\u00a9'), ("reg", '\u00ae'), ("hellip", '\u2026'), ("mdash", '\u2014'),
  ("ndash", '\u2013')]

/-- The character with a code point, if the code point is one. -/
def charOfCode? (n : Nat) : Option Char := if n.isValidChar then some (Char.ofNat n) else none

/-- The character that a numeric reference stands for, given what follows the `#`. -/
def numericReference? : List Char → Option Char
  | 'x' :: digits => (word? 16 digits).bind charOfCode?
  | 'X' :: digits => (word? 16 digits).bind charOfCode?
  | digits => (word? 10 digits).bind charOfCode?

def referenceBody? (body : List Char) : Option Char :=
  if body.isEmpty || 10 < byteLength body then none
  else
    match body with
    | '#' :: number => numericReference? number
    | name => namedReferences.lookup (String.ofList name)

/-- Reads a reference after its ampersand: the character and what follows the semicolon. -/
def reference? (cs : List Char) : Option (Char × List Char) :=
  match cut? [';'] cs with
  | some (body, rest) => (referenceBody? body).map fun c => (c, rest)
  | none => none

theorem length_lt_of_reference? {cs rest : List Char} {c : Char}
    (h : reference? cs = some (c, rest)) : rest.length < cs.length := by
  unfold reference? at h
  split at h
  · next body rest' hcut =>
    obtain ⟨c', -, heq⟩ := Option.map_eq_some_iff.mp h
    cases heq
    have := length_eq_of_cut? hcut
    simp only [List.length_cons, List.length_nil] at this
    omega
  · cases h

/-- Replaces every reference in a list of characters by its character. -/
def decodeChars (cs : List Char) : List Char :=
  match cs with
  | [] => []
  | c :: rest =>
    if c = '&' then
      match _h : reference? rest with
      | some (decoded, after) => decoded :: decodeChars after
      | none => c :: decodeChars rest
    else c :: decodeChars rest
termination_by cs.length
decreasing_by
  · have := length_lt_of_reference? _h
    simp only [List.length_cons]
    omega
  all_goals simp

def decodeReferences (s : String) : String := String.ofList (decodeChars s.toList)

end TemplateCompiler.Text
