import TemplateCompiler.Extension.Basic
import TemplateCompiler.Template.Outline

/-!
# Static marks

Finds what never changes. A node is static when nothing in it or inside it depends on data. The
outermost static elements that are worth it become static roots, which are rendered once in a body
of their own. Both kinds of marks are computed from the tree and then written into it.
-/

namespace TemplateCompiler

/-- Whether a `template` with a loop holds a node, with only `template` elements in between, at most
`limit` levels up. -/
def Ast.inTemplateLoopUpTo (a : Ast) : Nat → NodeId → Bool
  | 0, _ => false
  | limit + 1, id =>
    match a.parent? id with
    | none => false
    | some parent =>
      match a.element? parent with
      | none => false
      | some el => el.tag = "template" && (el.loop.isSome || a.inTemplateLoopUpTo limit parent)

/-- Whether a `template` with a loop holds a node, with only `template` elements in between. -/
def Ast.inTemplateLoop (a : Ast) (id : NodeId) : Bool := a.inTemplateLoopUpTo a.nodes.size id

/-- Whether an element by itself, apart from what it contains, never changes. -/
def Element.isLocallyStatic (o : Options) (a : Ast) (id : NodeId) (el : Element) : Bool :=
  el.pre ||
    (!el.hasBindings && el.ifExp.isNone && el.elseIf.isNone && !el.isElse && el.loop.isNone &&
      el.tag ≠ "slot" && el.tag ≠ "component" && o.tags.isReserved el.tag &&
      !a.inTemplateLoop id && el.key.isNone && el.ref.isNone &&
      el.slotTarget.isNone && el.slotScope.isNone && el.scopedSlots.isEmpty &&
      el.component.isNone && !el.inlineTemplate && el.directives.isEmpty &&
      el.listeners.isEmpty && el.props.isEmpty && el.classBinding.isNone &&
      el.styleBinding.isNone && el.boundObject.isNone && el.boundListeners.isNone &&
      el.extra.keys.all o.isStaticKey)

/-- Whether the content of an element counts for it. The content of a component does not. -/
def Element.isTransparent (o : Options) (el : Element) : Bool :=
  o.tags.isReserved el.tag || el.tag = "slot" || el.inlineTemplate

namespace Ast

mutual

def isStaticNode (o : Options) (a : Ast) : Outline → Bool
  | .node id children _ branches =>
    match a.kind? id with
    | some (.element el) =>
      el.isLocallyStatic o a id &&
        (!el.isTransparent o || (a.areStatic o children && a.areStaticAfterFirst o branches))
    | some (.text _ tokens _) => tokens.isNone
    | some (.comment _ _) => true
    | none => false

def areStatic (o : Options) (a : Ast) : List Outline → Bool
  | [] => true
  | first :: rest => a.isStaticNode o first && a.areStatic o rest

/-- Whether all nodes of a list but the first never change. -/
def areStaticAfterFirst (o : Options) (a : Ast) : List Outline → Bool
  | [] => true
  | _ :: rest => a.areStatic o rest

end

mutual

def staticMarks (o : Options) (a : Ast) : Outline → List (NodeId × Bool)
  | .node id children slots branches =>
    (id, a.isStaticNode o (.node id children slots branches)) ::
      match a.element? id with
      | some el =>
        if el.isTransparent o then
          a.staticMarksAll o children ++ a.staticMarksAfterFirst o branches
        else []
      | none => []

def staticMarksAll (o : Options) (a : Ast) : List Outline → List (NodeId × Bool)
  | [] => []
  | first :: rest => a.staticMarks o first ++ a.staticMarksAll o rest

def staticMarksAfterFirst (o : Options) (a : Ast) : List Outline → List (NodeId × Bool)
  | [] => []
  | _ :: rest => a.staticMarksAll o rest

end

def markStatic (a : Ast) (id : NodeId) (isStatic : Bool) : Ast :=
  { a with
    nodes := a.nodes.modify id fun n =>
      match n.kind with
      | .element el =>
        { n with kind := .element { el with marks := { el.marks with isStatic } } }
      | .text content tokens _ => { n with kind := .text content tokens isStatic }
      | .comment content _ => { n with kind := .comment content isStatic } }

/-- Whether the only child of an element is a text or a comment, which is not worth hoisting. -/
def hasLoneText (a : Ast) (el : Element) : Bool :=
  match el.children with
  | [only] => (a.kind? only).isSome && (a.element? only).isNone
  | _ => false

def isStaticRoot (a : Ast) (inLoop : Bool) (el : Element) : Bool :=
  el.marks.isStatic && !el.children.isEmpty && !a.hasLoneText el && (!inLoop || el.once)

mutual

/-- The root marks of an element and of all inside it, down to the static roots. -/
def rootMarks (a : Ast) (inLoop : Bool) : Outline → List (NodeId × Bool × Bool)
  | .node id children _ branches =>
    match a.element? id with
    | none => []
    | some el =>
      (id, a.isStaticRoot inLoop el, inLoop) ::
        if a.isStaticRoot inLoop el then []
        else
          a.rootMarksAll (inLoop || el.loop.isSome) children ++
            a.rootMarksAfterFirst inLoop branches

def rootMarksAll (a : Ast) (inLoop : Bool) : List Outline → List (NodeId × Bool × Bool)
  | [] => []
  | first :: rest => a.rootMarks inLoop first ++ a.rootMarksAll inLoop rest

def rootMarksAfterFirst (a : Ast) (inLoop : Bool) : List Outline → List (NodeId × Bool × Bool)
  | [] => []
  | _ :: rest => a.rootMarksAll inLoop rest

end

def markRoot (a : Ast) (id : NodeId) (root inLoop : Bool) : Ast :=
  a.modifyElement id fun el => { el with marks := { el.marks with root, inLoop } }

/-- Writes static marks, one after the other. -/
def writeStatic (a : Ast) (marks : List (NodeId × Bool)) : Ast :=
  marks.foldl (fun a m => a.markStatic m.1 m.2) a

def writeRoots (a : Ast) (marks : List (NodeId × Bool × Bool)) : Ast :=
  marks.foldl (fun a m => a.markRoot m.1 m.2.1 m.2.2) a

/-- Marks what is static in the tree under a node. -/
def withStaticMarks (o : Options) (a : Ast) (t : Outline) : Ast := a.writeStatic (a.staticMarks o t)

/-- Marks the static roots in the tree under a node, whose static marks are written. -/
def withRootMarks (a : Ast) (t : Outline) : Ast := a.writeRoots (a.rootMarks false t)

/-- Writes all static marks of a tree. -/
def optimize (o : Options) (a : Ast) : Ast :=
  match a.root with
  | none => a
  | some root =>
    let t := a.outline root
    (a.withStaticMarks o t).withRootMarks t

end Ast

end TemplateCompiler
