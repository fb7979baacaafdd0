import TemplateCompiler.Template.Element

/-!
# Template trees

The nodes of a template by number, in the order they were met. Links to children, conditional
branches and slots are numbers; each node also names its parent.
-/

namespace TemplateCompiler

/-- A node of a template. -/
inductive NodeKind where
  | element (element : Element)
  | text (content : String) (tokens : Option (List TextToken)) (isStatic : Bool)
  | comment (content : String) (isStatic : Bool)
  deriving Inhabited

/-- A node with its parent. -/
structure Node where
  parent : Option NodeId
  kind : NodeKind
  deriving Inhabited

/-- A template tree. It has no root when the template is empty. -/
structure Ast where
  nodes : Array Node := #[]
  root : Option NodeId := none
  deriving Inhabited

namespace Ast

def kind? (a : Ast) (id : NodeId) : Option NodeKind := a.nodes[id]?.map (·.kind)

def element? (a : Ast) (id : NodeId) : Option Element :=
  match a.kind? id with
  | some (.element el) => some el
  | _ => none

def parent? (a : Ast) (id : NodeId) : Option NodeId := a.nodes[id]?.bind (·.parent)

def rootElement? (a : Ast) : Option Element := a.root.bind a.element?

def child? (a : Ast) (id : NodeId) (index : Nat) : Option NodeId :=
  (a.element? id).bind (·.children[index]?)

def push (a : Ast) (parent : Option NodeId) (kind : NodeKind) : Ast :=
  { a with nodes := a.nodes.push ⟨parent, kind⟩ }

/-- Adds elements with the same parent, which take the next numbers. -/
def pushElements (a : Ast) (parent : Option NodeId) : List Element → Ast
  | [] => a
  | el :: rest => (a.push parent (.element el)).pushElements parent rest

def nextId (a : Ast) : NodeId := a.nodes.size

def modifyElement (a : Ast) (id : NodeId) (f : Element → Element) : Ast :=
  { a with
    nodes := a.nodes.modify id fun n =>
      match n.kind with
      | .element el => { n with kind := .element (f el) }
      | _ => n }

def setElement (a : Ast) (id : NodeId) (el : Element) : Ast := a.modifyElement id fun _ => el

/-- The nodes above a node, nearest first, at most `limit` of them. -/
def ancestorsUpTo (a : Ast) : Nat → NodeId → List NodeId
  | 0, _ => []
  | limit + 1, id =>
    match a.parent? id with
    | some parent => parent :: a.ancestorsUpTo limit parent
    | none => []

/-- The nodes above a node, nearest first. A chain of parents is no longer than the tree. -/
def ancestors (a : Ast) (id : NodeId) : List NodeId := a.ancestorsUpTo a.nodes.size id

def ancestorElements (a : Ast) (id : NodeId) : List Element := (a.ancestors id).filterMap a.element?

def isStatic (a : Ast) (id : NodeId) : Bool :=
  match a.kind? id with
  | some (.element el) => el.marks.isStatic
  | some (.text _ _ isStatic) => isStatic
  | some (.comment _ isStatic) => isStatic
  | none => false

def isSpace (a : Ast) (id : NodeId) : Bool :=
  match a.kind? id with
  | some (.text content _ _) => content = " "
  | _ => false

end Ast

end TemplateCompiler
