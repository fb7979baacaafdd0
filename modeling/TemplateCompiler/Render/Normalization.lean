import TemplateCompiler.Template.Ast

/-!
# Normalization of children

How the runtime must flatten the children of an element. A child that can stand for several nodes
makes the list nested at any depth; a component may give one list where a node is expected.
-/

namespace TemplateCompiler

/-- How a list of children is flattened. -/
inductive Normalization where
  | none
  | shallow
  | deep
  deriving DecidableEq, Inhabited

/-- The argument that asks for a normalization, with the comma before it. -/
def Normalization.suffix : Normalization → String
  | .none => ""
  | .shallow => ",1"
  | .deep => ",2"

/-- Whether an element can stand for several nodes. -/
def Element.isManifold (el : Element) : Bool :=
  el.loop.isSome || el.tag = "template" || el.tag = "slot"

def Element.mayBeComponent (tags : TagTable) (el : Element) : Bool :=
  el.component.isSome || !tags.isReserved el.tag

namespace Ast

/-- The elements among the children and the branches of their conditions. -/
def candidates (a : Ast) (children : List NodeId) : List Element :=
  (children.filterMap a.element?).flatMap fun el =>
    el :: el.conditions.filterMap fun c => a.element? c.block

def normalization (tags : TagTable) (a : Ast) (children : List NodeId) : Normalization :=
  let elements := a.candidates children
  if elements.any (·.isManifold) then .deep
  else if elements.any (·.mayBeComponent tags) then .shallow
  else .none

end Ast

end TemplateCompiler
