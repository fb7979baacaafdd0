/-!
# Quoted texts

The double-quoted form of a text: quotes, backslashes and control characters are escaped, and all
else stands for itself. In generated code the two line separators are escaped as well, since a line
of code ends at them.
-/

namespace TemplateCompiler.Text

/-- The lower case hexadecimal digit of a number below sixteen. -/
def hexChar (n : Nat) : Char := Char.ofNat (if n < 10 then 0x30 + n else 0x57 + n)

/-- How a character is written between double quotes. -/
def escape (c : Char) : List Char :=
  if c = '"' then ['\\', '"']
  else if c = '\\' then ['\\', '\\']
  else if c = '\x08' then ['\\', 'b']
  else if c = '\t' then ['\\', 't']
  else if c = '\n' then ['\\', 'n']
  else if c = '\x0c' then ['\\', 'f']
  else if c = '\r' then ['\\', 'r']
  else if c.toNat < 0x20 then
    ['\\', 'u', '0', '0', hexChar (c.toNat / 16), hexChar (c.toNat % 16)]
  else [c]

def quotedChars (cs : List Char) : List Char := '"' :: cs.flatMap escape ++ ['"']

def quoted (s : String) : String := String.ofList (quotedChars s.toList)

/-- A line or paragraph separator as an escape, any other character as itself. -/
def escapeSeparator (c : Char) : List Char :=
  if c = '\u2028' then ['\\', 'u', '2', '0', '2', '8']
  else if c = '\u2029' then ['\\', 'u', '2', '0', '2', '9']
  else [c]

/-- Escapes the line and paragraph separators of a piece of code. -/
def escapeSeparators (s : String) : String := String.ofList (s.toList.flatMap escapeSeparator)

def literal (s : String) : String := escapeSeparators (quoted s)

end TemplateCompiler.Text
