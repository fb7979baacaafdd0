import TemplateCompiler.Text.Blank
import TemplateCompiler.Text.Cut

/-!
# Loop heads

`item in items`, `(item, key, index) of items`: the value of a loop directive. The alias ends at the
first keyword that has a gap on both sides; up to two names after its last commas are iterators, and
destructuring patterns are kept as they are.
-/

namespace TemplateCompiler

/-- What a loop runs over and the names it binds. -/
structure LoopHead where
  source : String
  binder : String
  iterator1 : Option String := none
  iterator2 : Option String := none
  deriving DecidableEq, Inhabited

namespace LoopHead

open Text

/-- The characters that may stand around the keyword. -/
def isGap (c : Char) : Bool := [' ', '\t', '\r', '\n'].contains c

/-- Skips at least one gap character and all that follow. -/
def gap? : List Char → Option (List Char)
  | c :: cs => if isGap c then some (cs.dropWhile isGap) else none
  | [] => none

def word? : List Char → Option (List Char)
  | 'i' :: 'n' :: cs => some cs
  | 'o' :: 'f' :: cs => some cs
  | _ => none

/-- Skips the keyword with the gaps on both its sides. -/
def keyword? (cs : List Char) : Option (List Char) := do gap? (← word? (← gap? cs))

def cutKeyword? (cs : List Char) : Option (List Char × List Char) :=
  match keyword? cs with
  | some source => some ([], source)
  | none =>
    match cs with
    | [] => none
    | c :: cs => (cutKeyword? cs).map fun p => (c :: p.1, p.2)

/-- Removes one opening parenthesis at the start and one closing parenthesis at the end. -/
def stripParens (cs : List Char) : List Char :=
  let cs := if cs.head? = some '(' then cs.tail else cs
  if cs.getLast? = some ')' then cs.dropLast else cs

/-- Whether a piece between commas may name an iterator: it does not close a pattern. -/
def isIterator (cs : List Char) : Bool := !cs.contains '\x7d' && !cs.contains ']'

/-- The trimmed text of a piece. -/
def name (cs : List Char) : String := String.ofList (trimmed cs)

/-- Takes at most two iterators off the end of the bound names. -/
def ofNames (source : String) (names : List Char) : LoopHead :=
  match cutLast? ',' names with
  | none => { source, binder := String.ofList names }
  | some (front, last) =>
    if !isIterator last then { source, binder := String.ofList names }
    else
      match cutLast? ',' front with
      | some (first, middle) =>
        if isIterator middle then
          { source, binder := name first, iterator1 := name middle, iterator2 := name last }
        else { source, binder := name front, iterator1 := name last }
      | none => { source, binder := name front, iterator1 := name last }

def parse? (exp : String) : Option LoopHead :=
  match cutKeyword? (exp.toList.dropWhile isGap) with
  | some (binder, source) =>
    if source.isEmpty then none
    else some (ofNames (name source) (stripParens (trimmed binder)))
  | none => none

/-- The parameter list of the loop's callback. -/
def params (loop : LoopHead) : String :=
  let more (iterator : Option String) : String := iterator.elim "" ("," ++ ·)
  loop.binder ++ more loop.iterator1 ++ more loop.iterator2

end LoopHead

end TemplateCompiler
