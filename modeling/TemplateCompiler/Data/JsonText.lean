import TemplateCompiler.Data.Json
import TemplateCompiler.Text.Word

/-!
# Reading JSON

Strict readers for JSON text: each takes the characters ahead and returns what it read and the
characters after it. A value that is not needed can be skipped, which checks its form only.
-/

namespace TemplateCompiler.Json

open Text

def isSpace (c : Char) : Bool := [' ', '\t', '\n', '\r'].contains c

def skipSpace (cs : List Char) : List Char := cs.dropWhile isSpace

/-- Reads the four digits of a hexadecimal escape. -/
def hexEscape? : List Char → Option (Nat × List Char)
  | a :: b :: c :: d :: rest => (digits? 16 0 [a, b, c, d]).map fun n => (n, rest)
  | _ => none

def simpleEscape? (c : Char) : Option Char :=
  [('"', '"'), ('\\', '\\'), ('/', '/'), ('b', '\x08'), ('f', '\x0c'), ('n', '\n'), ('r', '\r'),
    ('t', '\t')].lookup c

/-- Reads the escape after a backslash and `u`. A character above the first plane is written with
two escapes, and half of such a pair is no character. -/
def unicodeEscape? (cs : List Char) : Option (Char × List Char) :=
  match hexEscape? cs with
  | none => none
  | some (high, rest) =>
    if 0xD800 ≤ high ∧ high < 0xDC00 then
      match rest with
      | '\\' :: 'u' :: rest =>
        match hexEscape? rest with
        | some (low, rest) =>
          if 0xDC00 ≤ low ∧ low < 0xE000 then
            some (Char.ofNat (0x10000 + (high - 0xD800) * 0x400 + (low - 0xDC00)), rest)
          else none
        | none => none
      | _ => none
    else if 0xDC00 ≤ high ∧ high < 0xE000 then none
    else some (Char.ofNat high, rest)

def stringChar? : List Char → Option (Char × List Char)
  | '\\' :: 'u' :: cs => unicodeEscape? cs
  | '\\' :: c :: cs => (simpleEscape? c).map fun c => (c, cs)
  | c :: cs => if c = '\\' ∨ c.toNat < 0x20 then none else some (c, cs)
  | [] => none

/-- Skips one character of a string, also half of a pair of escapes. -/
def skipStringChar? : List Char → Option (List Char)
  | '\\' :: 'u' :: cs => (hexEscape? cs).map (·.2)
  | '\\' :: c :: cs => (simpleEscape? c).map fun _ => cs
  | c :: cs => if c = '\\' ∨ c.toNat < 0x20 then none else some cs
  | [] => none

/-- Reads a string up to its closing quote, in at most `fuel` characters. -/
def stringBody? : Nat → List Char → Option (List Char × List Char)
  | 0, _ => none
  | _ + 1, '"' :: cs => some ([], cs)
  | fuel + 1, cs =>
    match stringChar? cs with
    | some (c, rest) => (stringBody? fuel rest).map fun p => (c :: p.1, p.2)
    | none => none

/-- Skips a string up to its closing quote, in at most `fuel` characters. -/
def skipStringBody? : Nat → List Char → Option (List Char)
  | 0, _ => none
  | _ + 1, '"' :: cs => some cs
  | fuel + 1, cs =>
    match skipStringChar? cs with
    | some rest => skipStringBody? fuel rest
    | none => none

/-- Reads a string. A text has no more characters than the bound on them. -/
def string? : List Char → Option (String × List Char)
  | '"' :: cs => (stringBody? (cs.length + 1) cs).map fun p => (String.ofList p.1, p.2)
  | _ => none

def skipString? : List Char → Option (List Char)
  | '"' :: cs => skipStringBody? (cs.length + 1) cs
  | _ => none

def skipDigits? : List Char → Option (List Char)
  | c :: cs => if c.isDigit then some (cs.dropWhile Char.isDigit) else none
  | [] => none

/-- Reads the digits of a whole number, which has no leading zero. -/
def whole? : List Char → Option (List Char × List Char)
  | '0' :: cs => if cs.head?.any Char.isDigit then none else some (['0'], cs)
  | c :: cs =>
    if c.isDigit then some (c :: cs.takeWhile Char.isDigit, cs.dropWhile Char.isDigit) else none
  | [] => none

def skipFraction? : List Char → Option (List Char)
  | '.' :: cs => skipDigits? cs
  | cs => some cs

def skipExponent? : List Char → Option (List Char)
  | [] => some []
  | c :: cs =>
    if c = 'e' ∨ c = 'E' then
      match cs with
      | '+' :: cs => skipDigits? cs
      | '-' :: cs => skipDigits? cs
      | cs => skipDigits? cs
    else some (c :: cs)

def skipMinus : List Char → List Char
  | '-' :: cs => cs
  | cs => cs

def skipNumber? (cs : List Char) : Option (List Char) := do
  skipExponent? (← skipFraction? (← whole? (skipMinus cs)).2)

/-- Skips a word such as `true`. -/
def word? (word : String) (cs : List Char) : Option (List Char) := word.toList.isPrefixOf? cs

/-- Reads one of the values that are a single word. -/
def constant? (cs : List Char) : Option (Json × List Char) :=
  ((word? "null" cs).map fun r => (.null, r)).or
    (((word? "true" cs).map fun r => (.bool true, r)).or
      ((word? "false" cs).map fun r => (.bool false, r)))

/-- Reads a number without fraction and exponent. -/
def number? (cs : List Char) : Option (Json × List Char) :=
  match whole? (skipMinus cs) with
  | some (digits, rest) =>
    (digits? 10 0 digits).map fun n =>
      (.number (if cs.head? = some '-' then -(n : Int) else n), rest)
  | none => none

mutual

/-- Reads a value that is nested at most `fuel` characters deep. -/
def value? : Nat → List Char → Option (Json × List Char)
  | 0, _ => none
  | fuel + 1, cs =>
    match skipSpace cs with
    | '"' :: rest => (string? ('"' :: rest)).map fun p => (.string p.1, p.2)
    | '[' :: rest =>
      match skipSpace rest with
      | ']' :: rest => some (.array [], rest)
      | rest => (items? fuel rest).map fun p => (.array p.1, p.2)
    | '\x7b' :: rest =>
      match skipSpace rest with
      | '\x7d' :: rest => some (.object [], rest)
      | rest => (fields? fuel rest).map fun p => (.object p.1, p.2)
    | rest => (constant? rest).or (number? rest)

/-- Reads the items of an array up to its closing bracket. -/
def items? : Nat → List Char → Option (List Json × List Char)
  | 0, _ => none
  | fuel + 1, cs =>
    match value? fuel cs with
    | none => none
    | some (item, rest) =>
      match skipSpace rest with
      | ',' :: rest => (items? fuel rest).map fun p => (item :: p.1, p.2)
      | ']' :: rest => some ([item], rest)
      | _ => none

/-- Reads the fields of an object up to its closing brace. -/
def fields? : Nat → List Char → Option (List (String × Json) × List Char)
  | 0, _ => none
  | fuel + 1, cs =>
    match string? (skipSpace cs) with
    | none => none
    | some (key, rest) =>
      match skipSpace rest with
      | ':' :: rest =>
        match value? fuel rest with
        | none => none
        | some (value, rest) =>
          match skipSpace rest with
          | ',' :: rest => (fields? fuel rest).map fun p => ((key, value) :: p.1, p.2)
          | '\x7d' :: rest => some ([(key, value)], rest)
          | _ => none
      | _ => none

end

mutual

/-- Skips a value that is nested at most `fuel` characters deep. -/
def skipValue? : Nat → List Char → Option (List Char)
  | 0, _ => none
  | fuel + 1, cs =>
    match skipSpace cs with
    | '"' :: rest => skipString? ('"' :: rest)
    | '[' :: rest =>
      match skipSpace rest with
      | ']' :: rest => some rest
      | rest => skipItems? fuel rest
    | '\x7b' :: rest =>
      match skipSpace rest with
      | '\x7d' :: rest => some rest
      | rest => skipFields? fuel rest
    | rest => ((constant? rest).map (·.2)).or (skipNumber? rest)

/-- Skips the items of an array up to its closing bracket. -/
def skipItems? : Nat → List Char → Option (List Char)
  | 0, _ => none
  | fuel + 1, cs =>
    match skipValue? fuel cs with
    | none => none
    | some rest =>
      match skipSpace rest with
      | ',' :: rest => skipItems? fuel rest
      | ']' :: rest => some rest
      | _ => none

/-- Skips the fields of an object up to its closing brace. -/
def skipFields? : Nat → List Char → Option (List Char)
  | 0, _ => none
  | fuel + 1, cs =>
    match skipString? (skipSpace cs) with
    | none => none
    | some rest =>
      match skipSpace rest with
      | ':' :: rest =>
        match skipValue? fuel rest with
        | none => none
        | some rest =>
          match skipSpace rest with
          | ',' :: rest => skipFields? fuel rest
          | '\x7d' :: rest => some rest
          | _ => none
      | _ => none

end

/-- Reads a text that is one value and nothing else. -/
def parse? (text : String) : Option Json :=
  match value? (text.length + 1) text.toList with
  | some (value, rest) => if (skipSpace rest).isEmpty then some value else none
  | none => none

def skip? (cs : List Char) : Option (List Char) := skipValue? (cs.length + 1) cs

end TemplateCompiler.Json
