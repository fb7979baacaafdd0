import TemplateCompiler.Proofs.Outline
import TemplateCompiler.Template.Static

/-!
# Changing what is in the nodes of a tree

Marks, and traces of how an element was written, can be taken away from a tree. Such a change goes
over all nodes (`Ast.mapKinds`) and leaves alone what makes the shape of the tree (`KeepsShape`), so
everything that follows links and parents finds the same nodes before and after. Whether a node is
static, and which static elements become roots, is found out from a few more fields only: a change
that leaves these alone too does not change the marks (`staticMarks_mapKinds`,
`rootMarks_mapKinds`).
-/

namespace TemplateCompiler

open Option

/-- The change `f` of nodes is the change `g` of elements, and leaves the shape of a tree alone. -/
structure KeepsShape (f : NodeKind → NodeKind) (g : Element → Element) : Prop where
  element : ∀ el, f (.element el) = .element (g el)
  text : ∀ content tokens isStatic, ∃ isStatic',
    f (.text content tokens isStatic) = .text content tokens isStatic'
  comment : ∀ content isStatic, ∃ isStatic',
    f (.comment content isStatic) = .comment content isStatic'
  children : ∀ el, (g el).children = el.children
  scopedSlots : ∀ el, (g el).scopedSlots = el.scopedSlots
  conditions : ∀ el, (g el).conditions = el.conditions
  tag : ∀ el, (g el).tag = el.tag
  loop : ∀ el, (g el).loop = el.loop

namespace Ast

def mapKinds (f : NodeKind → NodeKind) (a : Ast) : Ast :=
  { a with nodes := a.nodes.map fun n => { n with kind := f n.kind } }

variable {f : NodeKind → NodeKind} {g : Element → Element} {o : Options} {w : Node → Node}

/-! ## Reading a changed tree -/

section

variable (f : NodeKind → NodeKind) (a : Ast)

theorem size_mapKinds : (a.mapKinds f).nodes.size = a.nodes.size := by
  simp [mapKinds]

theorem kind?_mapKinds (id : NodeId) : (a.mapKinds f).kind? id = (a.kind? id).map f := by
  simp [kind?, mapKinds, Function.comp_def]

theorem parent?_mapKinds (id : NodeId) : (a.mapKinds f).parent? id = a.parent? id := by
  unfold parent? mapKinds
  rw [Array.getElem?_map]
  cases a.nodes[id]? <;> rfl

theorem ancestors_mapKinds (id : NodeId) : (a.mapKinds f).ancestors id = a.ancestors id := by
  have hlimit (limit : Nat) (id : NodeId) :
      (a.mapKinds f).ancestorsUpTo limit id = a.ancestorsUpTo limit id := by
    induction limit generalizing id with
    | zero => rfl
    | succ limit ih =>
      unfold ancestorsUpTo
      rw [parent?_mapKinds]
      cases a.parent? id with
      | none => rfl
      | some parent => simp only [ih]
  unfold ancestors
  rw [size_mapKinds, hlimit]

end

theorem element?_mapKinds (h : KeepsShape f g) (a : Ast) (id : NodeId) :
    (a.mapKinds f).element? id = (a.element? id).map g := by
  unfold element?
  rw [kind?_mapKinds]
  cases a.kind? id with
  | none => rfl
  | some kind =>
    cases kind with
    | element el => rw [map_some, h.element]; rfl
    | text content tokens isStatic =>
      obtain ⟨isStatic', heq⟩ := h.text content tokens isStatic
      rw [map_some, heq]
      rfl
    | comment content isStatic =>
      obtain ⟨isStatic', heq⟩ := h.comment content isStatic
      rw [map_some, heq]
      rfl

theorem outline_mapKinds (h : KeepsShape f g) (a : Ast) (id : NodeId) :
    (a.mapKinds f).outline id = a.outline id := by
  have hdepth (depth : Nat) (id : NodeId) :
      (a.mapKinds f).outlineUpTo depth id = a.outlineUpTo depth id := by
    induction depth generalizing id with
    | zero => rfl
    | succ depth ih =>
      unfold outlineUpTo
      rw [element?_mapKinds h]
      cases a.element? id with
      | none => rfl
      | some el => simp only [map_some, funext ih, h.children, h.scopedSlots, h.conditions]
  unfold outline
  rw [size_mapKinds, hdepth]

/-! ## The marks of a changed tree -/

theorem inTemplateLoop_mapKinds (h : KeepsShape f g) (a : Ast) (id : NodeId) :
    (a.mapKinds f).inTemplateLoop id = a.inTemplateLoop id := by
  have hlimit (limit : Nat) (id : NodeId) :
      (a.mapKinds f).inTemplateLoopUpTo limit id = a.inTemplateLoopUpTo limit id := by
    induction limit generalizing id with
    | zero => rfl
    | succ limit ih =>
      unfold inTemplateLoopUpTo
      rw [parent?_mapKinds]
      cases a.parent? id with
      | none => rfl
      | some parent =>
        simp only [element?_mapKinds h, ih]
        cases a.element? parent with
        | none => rfl
        | some el => simp only [map_some, h.tag, h.loop]
  unfold inTemplateLoop
  rw [size_mapKinds, hlimit]

/-- A change of elements that is not seen by the test for static nodes. -/
structure KeepsStatic (o : Options) (f : NodeKind → NodeKind) (g : Element → Element) : Prop
    extends KeepsShape f g where
  locally : ∀ a id el, (g el).isLocallyStatic o a id = el.isLocallyStatic o a id
  transparent : ∀ el, (g el).isTransparent o = el.isTransparent o

theorem KeepsStatic.isLocallyStatic (h : KeepsStatic o f g) (a : Ast) (id : NodeId) (el : Element) :
    (g el).isLocallyStatic o (a.mapKinds f) id = el.isLocallyStatic o a id := by
  rw [h.locally]
  unfold Element.isLocallyStatic
  rw [inTemplateLoop_mapKinds h.toKeepsShape]

mutual

theorem isStaticNode_mapKinds (h : KeepsStatic o f g) (a : Ast) :
    ∀ t, (a.mapKinds f).isStaticNode o t = a.isStaticNode o t
  | .node id children slots branches => by
    unfold isStaticNode
    rw [kind?_mapKinds, areStatic_mapKinds h a children, areStaticAfterFirst_mapKinds h a branches]
    cases a.kind? id with
    | none => rfl
    | some kind =>
      cases kind with
      | element el => simp only [map_some, h.element, h.isLocallyStatic, h.transparent]
      | text content tokens isStatic =>
        obtain ⟨isStatic', heq⟩ := h.text content tokens isStatic
        simp only [map_some, heq]
      | comment content isStatic =>
        obtain ⟨isStatic', heq⟩ := h.comment content isStatic
        simp only [map_some, heq]

theorem areStatic_mapKinds (h : KeepsStatic o f g) (a : Ast) :
    ∀ outlines, (a.mapKinds f).areStatic o outlines = a.areStatic o outlines
  | [] => by rw [areStatic, areStatic]
  | first :: rest => by
    rw [areStatic, areStatic, isStaticNode_mapKinds h a first, areStatic_mapKinds h a rest]

theorem areStaticAfterFirst_mapKinds (h : KeepsStatic o f g) (a : Ast) :
    ∀ outlines, (a.mapKinds f).areStaticAfterFirst o outlines = a.areStaticAfterFirst o outlines
  | [] => by rw [areStaticAfterFirst, areStaticAfterFirst]
  | first :: rest => by
    rw [areStaticAfterFirst, areStaticAfterFirst, areStatic_mapKinds h a rest]

end

mutual

theorem staticMarks_mapKinds (h : KeepsStatic o f g) (a : Ast) :
    ∀ t, (a.mapKinds f).staticMarks o t = a.staticMarks o t
  | .node id children slots branches => by
    unfold staticMarks
    rw [isStaticNode_mapKinds h, element?_mapKinds h.toKeepsShape,
      staticMarksAll_mapKinds h a children, staticMarksAfterFirst_mapKinds h a branches]
    cases a.element? id with
    | none => rfl
    | some el => simp only [map_some, h.transparent]

theorem staticMarksAll_mapKinds (h : KeepsStatic o f g) (a : Ast) :
    ∀ outlines, (a.mapKinds f).staticMarksAll o outlines = a.staticMarksAll o outlines
  | [] => by rw [staticMarksAll, staticMarksAll]
  | first :: rest => by
    rw [staticMarksAll, staticMarksAll, staticMarks_mapKinds h a first,
      staticMarksAll_mapKinds h a rest]

theorem staticMarksAfterFirst_mapKinds (h : KeepsStatic o f g) (a : Ast) :
    ∀ outlines, (a.mapKinds f).staticMarksAfterFirst o outlines = a.staticMarksAfterFirst o outlines
  | [] => by rw [staticMarksAfterFirst, staticMarksAfterFirst]
  | first :: rest => by
    rw [staticMarksAfterFirst, staticMarksAfterFirst, staticMarksAll_mapKinds h a rest]

end

/-- A change of elements that is not seen by the walk that looks for static roots. -/
structure KeepsRoots (f : NodeKind → NodeKind) (g : Element → Element) : Prop
    extends KeepsShape f g where
  once : ∀ el, (g el).once = el.once
  isStatic : ∀ el, (g el).marks.isStatic = el.marks.isStatic

theorem KeepsRoots.isStaticRoot (h : KeepsRoots f g) (a : Ast) (inLoop : Bool) (el : Element) :
    (a.mapKinds f).isStaticRoot inLoop (g el) = a.isStaticRoot inLoop el := by
  have hlone : (a.mapKinds f).hasLoneText (g el) = a.hasLoneText el := by
    unfold hasLoneText
    simp only [kind?_mapKinds, element?_mapKinds h.toKeepsShape, isSome_map, isNone_map, h.children]
  unfold Ast.isStaticRoot
  rw [hlone, h.isStatic, h.children, h.once]

mutual

theorem rootMarks_mapKinds (h : KeepsRoots f g) (a : Ast) (inLoop : Bool) :
    ∀ t, (a.mapKinds f).rootMarks inLoop t = a.rootMarks inLoop t
  | .node id children slots branches => by
    unfold rootMarks
    rw [element?_mapKinds h.toKeepsShape]
    cases a.element? id with
    | none => rfl
    | some el =>
      rw [map_some]
      dsimp only
      rw [h.isStaticRoot, h.loop, rootMarksAfterFirst_mapKinds h a inLoop branches,
        rootMarksAll_mapKinds h a _ children]

theorem rootMarksAll_mapKinds (h : KeepsRoots f g) (a : Ast) (inLoop : Bool) :
    ∀ outlines, (a.mapKinds f).rootMarksAll inLoop outlines = a.rootMarksAll inLoop outlines
  | [] => by rw [rootMarksAll, rootMarksAll]
  | first :: rest => by
    rw [rootMarksAll, rootMarksAll, rootMarks_mapKinds h a inLoop first,
      rootMarksAll_mapKinds h a inLoop rest]

theorem rootMarksAfterFirst_mapKinds (h : KeepsRoots f g) (a : Ast) (inLoop : Bool) : ∀ outlines,
      (a.mapKinds f).rootMarksAfterFirst inLoop outlines = a.rootMarksAfterFirst inLoop outlines
  | [] => by rw [rootMarksAfterFirst, rootMarksAfterFirst]
  | first :: rest => by
    rw [rootMarksAfterFirst, rootMarksAfterFirst, rootMarksAll_mapKinds h a inLoop rest]

end

/-! ## Changing one node -/

/-- Changing a node and changing all nodes can be done in either order, if that is so for the node
alone. -/
theorem mapKinds_modify (id : NodeId)
    (hw : ∀ n : Node, ({ w n with kind := f (w n).kind } : Node) = w { n with kind := f n.kind })
    (a : Ast) :
    ({ a with nodes := a.nodes.modify id w } : Ast).mapKinds f =
      { a.mapKinds f with nodes := (a.mapKinds f).nodes.modify id w } := by
  unfold mapKinds
  congr 1
  apply Array.ext_getElem?
  intro i
  rw [Array.getElem?_map, Array.getElem?_modify, Array.getElem?_modify, Array.getElem?_map]
  split
  · cases a.nodes[i]? with
    | none => rfl
    | some n => exact congrArg some (hw n)
  · rfl

/-- A change to a node is not seen if it changes only what is taken away. -/
theorem mapKinds_modify_eq (id : NodeId)
    (hw : ∀ n : Node, ({ w n with kind := f (w n).kind } : Node) = { n with kind := f n.kind })
    (a : Ast) : ({ a with nodes := a.nodes.modify id w } : Ast).mapKinds f = a.mapKinds f := by
  unfold mapKinds
  congr 1
  apply Array.ext_getElem?
  intro i
  rw [Array.getElem?_map, Array.getElem?_map, Array.getElem?_modify]
  split
  · cases a.nodes[i]? with
    | none => rfl
    | some n => exact congrArg some (hw n)
  · rfl

end Ast

end TemplateCompiler
