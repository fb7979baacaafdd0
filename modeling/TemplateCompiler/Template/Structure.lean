import TemplateCompiler.Extension.Basic

/-!
# Structural directives

The directives that decide whether, how often and how an element is rendered at all: loops,
conditions, rendering once, and taking content as written. They are taken off an element when its
start tag is met.
-/

namespace TemplateCompiler.Element

/-- Takes a directive that needs a value. A blank value is reported and counts as none. -/
def takeValued (s : Settings) (el : Element) (name : String) :
    Noted (Option String × Element) :=
  match el.take (s.directive name) with
  | (some value, el) =>
    if Text.isBlank value then do
      Noted.error (.valueMissing (s.directive name)) el.span
      return (none, el)
    else pure (some value, el)
  | (none, el) => pure (none, el)

def takeFlag (el : Element) (name : String) : Bool × Element :=
  let taken := el.take name
  (taken.1.isSome, taken.2)

def takeLoop (s : Settings) (el : Element) : Noted Element := do
  let (exp, el) ← el.takeValued s "for"
  match exp with
  | none => return el
  | some exp =>
    match LoopHead.parse? exp with
    | some loop => return { el with loop := some loop }
    | none =>
      Noted.error (.invalidLoop exp) el.span
      return el

/-- Takes the condition of an element, which starts a chain with the element as its first branch, or
else its place in a chain that another element has started. -/
def takeCondition (s : Settings) (id : NodeId) (el : Element) : Noted Element := do
  let (exp, el) ← el.takeValued s "if"
  match exp with
  | some exp =>
    return { el with
      ifExp := some exp
      conditions := el.conditions ++ [{ exp := some exp, block := id }] }
  | none =>
    let (isElse, el) := el.takeFlag (s.directive "else")
    let el := if isElse then { el with isElse := true } else el
    let (exp, el) ← el.takeValued s "else-if"
    return match exp with
      | some exp => { el with elseIf := some exp }
      | none => el

def takeOnce (s : Settings) (el : Element) : Element :=
  let (once, el) := el.takeFlag (s.directive "once")
  if once then { el with once := true } else el

/-- Takes the directive to leave an element as written. -/
def takePre (s : Settings) (el : Element) : Element :=
  let (pre, el) := el.takeFlag (s.directive "pre")
  if pre then { el with pre := true } else el

/-- Gives an element that is left as written its pending attributes, as they are. -/
def keepAttributes (el : Element) : Element :=
  if el.pending.isEmpty then if el.pre then el else { el with plain := true }
  else
    { el with
      attrs := el.pending.map fun a => { name := a.name, value := Text.literal a.value } }

def isChained (el : Element) : Bool := el.elseIf.isSome || el.isElse

end TemplateCompiler.Element
