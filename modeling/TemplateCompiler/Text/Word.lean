/-!
# Words

Numbers as they are written in modifiers and character references: digits of a base, after at most
one plus sign, whose value fits in 32 bits.
-/

namespace TemplateCompiler.Text

/-- The value of a hexadecimal digit in either case. -/
def hexDigit? (c : Char) : Option Nat :=
  if '0' ≤ c ∧ c ≤ '9' then some (c.toNat - '0'.toNat)
  else if 'a' ≤ c ∧ c ≤ 'f' then some (c.toNat - 'a'.toNat + 10)
  else if 'A' ≤ c ∧ c ≤ 'F' then some (c.toNat - 'A'.toNat + 10)
  else none

def digit? (base : Nat) (c : Char) : Option Nat := (hexDigit? c).filter (· < base)

/-- The value of a list of digits, continuing from the value of those before it. -/
def digits? (base : Nat) : Nat → List Char → Option Nat
  | value, [] => some value
  | value, c :: cs =>
    match digit? base c with
    | some d => digits? base (value * base + d) cs
    | none => none

/-- Reads a number of up to 32 bits: at least one digit, after at most one plus sign. -/
def word? (base : Nat) (cs : List Char) : Option Nat :=
  let digits := ((['+'] : List Char).isPrefixOf? cs).getD cs
  if digits.isEmpty then none else (digits? base 0 digits).filter (· < 0x100000000)

end TemplateCompiler.Text
