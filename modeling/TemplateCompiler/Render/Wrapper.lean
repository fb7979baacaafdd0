import TemplateCompiler.Render.Normalization
import TemplateCompiler.Extension.Basic

/-!
# Wrappers around elements

An element may be hoisted into a body of its own, rendered once, repeated by a loop and shown under
a condition. Each wrapper is put around an element at most once, from the outside in; the generator
keeps a record of those it has put. What a wrapper encloses is a computation, so that it runs after
the wrapper has been recorded.
-/

namespace TemplateCompiler

/-- What is put around the code of an element. -/
inductive Wrapper where
  | hoist
  | once
  | loop
  | condition
  deriving DecidableEq, Inhabited

/-- What the generator knows: the wrappers put so far, the hoisted bodies, and how many pieces are
rendered once. -/
structure GenState where
  done : List (NodeId × Wrapper) := []
  hoisted : List Code := []
  onceCount : Nat := 0
  deriving Inhabited

abbrev Gen := StateT GenState Outcome

namespace Gen

/-- Whether a wrapper is still to be put around an element. -/
def isPending (id : NodeId) (w : Wrapper) : Gen Bool := return !(← get).done.contains (id, w)

/-- Records that a wrapper is put around an element. -/
def mark (id : NodeId) (w : Wrapper) : Gen Unit :=
  modify fun s => { s with done := (id, w) :: s.done }

/-- Adds a hoisted body and gives its index. -/
def pushBody (body : Code) : Gen Nat :=
  modifyGet fun s => (s.hoisted.length, { s with hoisted := s.hoisted ++ [body] })

/-- The number of the next piece that is rendered once. -/
def nextOnce : Gen Nat :=
  modifyGet fun s => (s.onceCount, { s with onceCount := s.onceCount + 1 })

/-- Runs a step that shares nothing with those around it but its reports, and gives the bodies that
it has hoisted. -/
def isolated (step : Gen Code) : Gen (Code × List Code) := do
  let (code, state) ← (step.run {} : Outcome (Code × GenState))
  return (code, state.hoisted)

/-- Puts the loop of an element around the code of one item, after a `note` about the loop. -/
def looped (id : NodeId) (el : Element) (note : LoopHead → Gen Unit) (item : Gen Code) :
    Gen Code := do
  match el.loop with
  | some head =>
    if ← isPending id .loop then
      mark id .loop
      note head
      let body ← item
      return .loop id head.source head.params body
    else item
  | none => item

/-- Puts the loop of an element around it. A list of components without keys is worth a tip. -/
def repeated (tags : TagTable) (id : NodeId) (el : Element) (item : Gen Code) : Gen Code :=
  looped id el
    (fun head =>
      if el.mayBeComponent tags && el.tag ≠ "slot" && el.tag ≠ "template" && el.key.isNone then
        Noted.tip (.componentListWithoutKey el.tag head.binder head.source) el.span
      else pure ())
    item

def hoist (id : NodeId) (el : Element) (body : Gen Code) : Gen Code := do
  mark id .hoist
  mark id .once
  let code ← body
  let index ← pushBody code
  return .hoisted id index el.marks.inLoop

def hoistRoot (id : NodeId) (el : Element) (body : Gen Code) : Gen Code := do
  if el.marks.root && (← isPending id .hoist) then hoist id el body else body

/-- The key of the nearest loop around an element. -/
def loopKey? (a : Ast) (id : NodeId) : Option String :=
  ((a.ancestorElements id).find? (·.loop.isSome)).bind (·.key)

/-- Has an element rendered once: in a body of its own, or inside a loop once for each key. -/
def renderedOnce (a : Ast) (id : NodeId) (el : Element) (code : Gen Code) : Gen Code := do
  if !el.marks.inLoop then hoist id el code
  else
    match loopKey? a id with
    | some key =>
      let body ← hoistRoot id el code
      let number ← nextOnce
      return .once body number key
    | none =>
      Noted.error .onceWithoutKey el.span
      hoistRoot id el code

/-- The conditional chain that an element starts, if it is still to be written. -/
def conditional (id : NodeId) (el : Element) (chain otherwise : Gen Code) : Gen Code := do
  if el.ifExp.isSome && (← isPending id .condition) then
    mark id .condition
    chain
  else otherwise

def onceWrapped (tags : TagTable) (a : Ast) (id : NodeId) (el : Element)
    (chain code : Gen Code) : Gen Code := do
  mark id .once
  conditional id el chain (renderedOnce a id el (repeated tags id el code))

def wrapped (tags : TagTable) (a : Ast) (id : NodeId) (el : Element)
    (chain code : Gen Code) : Gen Code := do
  let inner := repeated tags id el (conditional id el chain code)
  if el.marks.root && (← isPending id .hoist) then hoist id el inner
  else if el.once && (← isPending id .once) then onceWrapped tags a id el chain code
  else inner

def branchWrapped (tags : TagTable) (a : Ast) (id : NodeId) (el : Element)
    (chain code : Gen Code) : Gen Code :=
  if el.once then onceWrapped tags a id el chain code else wrapped tags a id el chain code

end Gen

end TemplateCompiler
