import TemplateCompiler.Expression.LoopHead

/-!
# Shapes of handlers

The value of a listener is a path to a method (`a.b['c'][0][d]`), a function expression (`x => …`,
`(a, b) => …`, `function name(…`), or statements. The first two are recognised here; names are made
of ASCII letters, digits, `_` and `$`.
-/

namespace TemplateCompiler.HandlerShape

open Text

def isNameStart (c : Char) : Bool := c.isAlpha || c == '_' || c == '$'

def isNameChar (c : Char) : Bool := c.isAlphanum || c == '_' || c == '$'

def name? : List Char → Option (List Char)
  | c :: cs => if isNameStart c then some (cs.dropWhile isNameChar) else none
  | [] => none

/-- Skips at least one digit and all that follow. -/
def digits? : List Char → Option (List Char)
  | c :: cs => if c.isDigit then some (cs.dropWhile Char.isDigit) else none
  | [] => none

def bracket? : List Char → Option (List Char)
  | ']' :: cs => some cs
  | _ => none

/-- Skips one step of a path: `.name`, `['…']`, `["…"]`, `[digits]` or `[name]`. -/
def step? : List Char → Option (List Char)
  | '.' :: cs => name? cs
  | '[' :: '\'' :: cs => (cut? ['\''] cs).bind fun p => bracket? p.2
  | '[' :: '"' :: cs => (cut? ['"'] cs).bind fun p => bracket? p.2
  | '[' :: cs => ((digits? cs).bind bracket?).or ((name? cs).bind bracket?)
  | _ => none

theorem length_lt_of_run {p q : Char → Bool} {c : Char} {cs rest : List Char}
    (h : (if p c then some (cs.dropWhile q) else none) = some rest) :
    rest.length < (c :: cs).length := by
  split at h
  · cases h
    exact Nat.lt_succ_of_le (List.dropWhile_sublist q).length_le
  · cases h

theorem length_lt_of_name? {cs rest : List Char} (h : name? cs = some rest) :
    rest.length < cs.length := by
  cases cs with
  | nil => cases h
  | cons c cs => exact length_lt_of_run h

theorem length_lt_of_digits? {cs rest : List Char} (h : digits? cs = some rest) :
    rest.length < cs.length := by
  cases cs with
  | nil => cases h
  | cons c cs => exact length_lt_of_run h

theorem length_lt_of_bracket? {cs rest : List Char} (h : bracket? cs = some rest) :
    rest.length < cs.length := by
  unfold bracket? at h
  split at h
  · cases h
    simp
  · cases h

/-- A step of a path takes at least one character. -/
theorem length_lt_of_step? {cs rest : List Char} (h : step? cs = some rest) :
    rest.length < cs.length := by
  unfold step? at h
  split at h
  · have := length_lt_of_name? h
    simp only [List.length_cons]
    omega
  · obtain ⟨p, hcut, hb⟩ := Option.bind_eq_some_iff.mp h
    have h1 := length_eq_of_cut? hcut
    have h2 := length_lt_of_bracket? hb
    simp only [List.length_cons]
    omega
  · obtain ⟨p, hcut, hb⟩ := Option.bind_eq_some_iff.mp h
    have h1 := length_eq_of_cut? hcut
    have h2 := length_lt_of_bracket? hb
    simp only [List.length_cons]
    omega
  · rcases Option.or_eq_some_iff.mp h with h | ⟨-, h⟩
    · obtain ⟨r, hd, hb⟩ := Option.bind_eq_some_iff.mp h
      have h1 := length_lt_of_digits? hd
      have h2 := length_lt_of_bracket? hb
      simp only [List.length_cons]
      omega
    · obtain ⟨r, hn, hb⟩ := Option.bind_eq_some_iff.mp h
      have h1 := length_lt_of_name? hn
      have h2 := length_lt_of_bracket? hb
      simp only [List.length_cons]
      omega
  · cases h

/-- Whether a text is a sequence of path steps. -/
def isSteps (cs : List Char) : Bool :=
  if cs.isEmpty then true
  else
    match _h : step? cs with
    | some rest => isSteps rest
    | none => false
termination_by cs.length
decreasing_by exact length_lt_of_step? _h

def isMethodPath (value : String) : Bool :=
  match name? value.toList with
  | some rest => isSteps rest
  | none => false

/-- Skips the parameters of an arrow function: a word, or anything in parentheses. -/
def arrowParams? : List Char → Option (List Char)
  | '(' :: cs => (cut? [')'] cs).map (·.2)
  | c :: cs => if isNameChar c then some (cs.dropWhile isNameChar) else none
  | [] => none

def startsArrow (cs : List Char) : Bool :=
  match arrowParams? cs with
  | some rest => ['=', '>'].isPrefixOf (rest.dropWhile LoopHead.isGap)
  | none => false

/-- Skips the name between the keyword of a function and its parameters, if there is one. -/
def skipFunctionName (cs : List Char) : List Char :=
  match LoopHead.gap? cs with
  | some (c :: rest) => if isNameChar c then rest.dropWhile isNameChar else cs
  | _ => cs

/-- Whether a text starts with a function expression that is written with its keyword. -/
def startsFunction (cs : List Char) : Bool :=
  match "function".toList.isPrefixOf? cs with
  | some rest => ((skipFunctionName rest).dropWhile LoopHead.isGap).head? == some '('
  | none => false

def isFunction (value : String) : Bool :=
  startsArrow value.toList || startsFunction value.toList

end TemplateCompiler.HandlerShape
