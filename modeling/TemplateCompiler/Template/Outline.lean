import TemplateCompiler.Template.Ast

/-!
# Outlines

The shape of a template tree: its node numbers, unfolded along the links from element to child,
scoped slot and conditional branch. Passes over a tree recurse on its outline.
-/

namespace TemplateCompiler

/-- A node number with the outlines of its children, scoped slots and conditional branches, each in
the order of the element's list. A branch that is the element itself is not unfolded. -/
inductive Outline where
  | node (id : NodeId) (children slots branches : List Outline)
  deriving Inhabited

namespace Outline

def id : Outline → NodeId
  | .node id _ _ _ => id

def children : Outline → List Outline
  | .node _ children _ _ => children

end Outline

namespace Ast

/-- The outline of a node, cut off below `depth` levels. -/
def outlineUpTo (a : Ast) : Nat → NodeId → Outline
  | 0, id => .node id [] [] []
  | depth + 1, id =>
    match a.element? id with
    | some el =>
      .node id (el.children.map (a.outlineUpTo depth))
        (el.scopedSlots.map fun slot => a.outlineUpTo depth slot.2)
        (el.conditions.map fun c =>
          if c.block = id then .node id [] [] [] else a.outlineUpTo depth c.block)
    | none => .node id [] [] []

def outline (a : Ast) (id : NodeId) : Outline := a.outlineUpTo a.nodes.size id

end Ast

end TemplateCompiler
