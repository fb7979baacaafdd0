import TemplateCompiler.Proofs.Generator

/-!
# Trees without their markup

An element keeps some of its markup: the attributes as they were written, and the places of the tag
and of its directives. They serve to read the attributes and to report problems. `Ast.unwritten`
takes all of this away from a tree.

Marking never looks at it: a tree without it is marked in the same way (`unwritten_optimize`). Nor
do the parts of the generator that are read off the tree.
-/

namespace TemplateCompiler

open List Element

variable {a : Ast} {t : Outline} {id : NodeId} {el : Element} {o : Options}

/-! ## Taking the markup away -/

def Directive.unwritten (d : Directive) : Directive := { d with span := {} }

/-- What an element keeps of its markup. -/
structure Writing where
  pending : List Attr := []
  source : Dict String := {}
  directives : List Directive := []
  span : Span := {}

def Element.rewritten (el : Element) (w : Writing) : Element :=
  { el with
    pending := w.pending, source := w.source, directives := w.directives, span := w.span }

def Element.unwritten (el : Element) : Element :=
  el.rewritten { directives := el.directives.map Directive.unwritten }

def NodeKind.unwritten (kind : NodeKind) : NodeKind := kind.mapElement Element.unwritten

namespace Ast

def unwritten (a : Ast) : Ast :=
  { a with nodes := a.nodes.map fun n => { n with kind := n.kind.unwritten } }

/-! ## Reading a tree without its markup -/

theorem keepsRoots_unwritten : KeepsRoots NodeKind.unwritten Element.unwritten where
  element _ := rfl
  text _ _ isStatic := ⟨isStatic, rfl⟩
  comment _ isStatic := ⟨isStatic, rfl⟩
  children _ := rfl
  scopedSlots _ := rfl
  conditions _ := rfl
  tag _ := rfl
  loop _ := rfl
  once _ := rfl
  isStatic _ := rfl

theorem keepsStatic_unwritten : KeepsStatic o NodeKind.unwritten Element.unwritten where
  toKeepsShape := keepsRoots_unwritten.toKeepsShape
  locally a id el := by
    have hdirs : el.unwritten.directives.isEmpty = el.directives.isEmpty := isEmpty_map
    unfold Element.isLocallyStatic
    rw [hdirs]
    rfl
  transparent _ := rfl

section

variable (a : Ast)

@[simp] theorem root_unwritten : a.unwritten.root = a.root := rfl

@[simp] theorem kind?_unwritten : a.unwritten.kind? id = (a.kind? id).map NodeKind.unwritten :=
  kind?_mapKinds _ a id

@[simp] theorem parent?_unwritten : a.unwritten.parent? id = a.parent? id :=
  parent?_mapKinds _ a id

@[simp] theorem element?_unwritten (id : NodeId) :
    a.unwritten.element? id = (a.element? id).map Element.unwritten :=
  element?_mapKinds keepsRoots_unwritten.toKeepsShape a id

theorem ancestorElements_unwritten :
    a.unwritten.ancestorElements id = (a.ancestorElements id).map Element.unwritten := by
  have hlook : a.unwritten.element? = fun id => (a.element? id).map Element.unwritten :=
    funext a.element?_unwritten
  have hancs : a.unwritten.ancestors id = a.ancestors id := ancestors_mapKinds _ a id
  unfold ancestorElements
  rw [hancs, hlook, map_filterMap]

@[simp] theorem outline_unwritten : a.unwritten.outline id = a.outline id :=
  outline_mapKinds keepsRoots_unwritten.toKeepsShape a id

end

/-- Where two trees are the same without their markup, an element of one is an element of the other
with other markup. -/
theorem kind?_of_unwritten {a a' : Ast} (h : a'.unwritten = a.unwritten) (id : NodeId) :
    ∃ w, a'.kind? id = (a.kind? id).map (·.mapElement (·.rewritten w)) ∧
      ∀ el, a.kind? id = some (.element el) → (el.rewritten w).unwritten = el.unwritten := by
  have hsame : a'.unwritten.kind? id = a.unwritten.kind? id := congrArg (kind? · id) h
  rw [kind?_unwritten, kind?_unwritten] at hsame
  cases hkind : a.kind? id with
  | none =>
    rw [hkind, Option.map_none, Option.map_eq_none_iff] at hsame
    exact ⟨{}, hsame, fun _ hel => by cases hel⟩
  | some kind =>
    rw [hkind, Option.map_some, Option.map_eq_some_iff] at hsame
    obtain ⟨kind', hkind', heq⟩ := hsame
    rw [hkind']
    cases kind with
    | element el =>
      cases kind' with
      | element el' =>
        injection heq with hel
        obtain ⟨w, hw⟩ : ∃ w, el'.unwritten.rewritten w = el' :=
          ⟨⟨el'.pending, el'.source, el'.directives, el'.span⟩, rfl⟩
        rw [hel] at hw
        refine ⟨w, congrArg (some <| NodeKind.element ·) hw.symm, ?_⟩
        rintro _ ⟨⟩
        exact (congrArg Element.unwritten hw).trans hel
      | _ => cases heq
    | _ =>
      cases kind' <;> cases heq
      exact ⟨{}, rfl, fun _ hel => by cases hel⟩

/-! ## Marks -/

theorem unwritten_markStatic (a : Ast) (id : NodeId) (isStatic : Bool) :
    (a.markStatic id isStatic).unwritten = a.unwritten.markStatic id isStatic :=
  mapKinds_modify id (by rintro ⟨parent, el | _ | _⟩ <;> rfl) a

theorem unwritten_markRoot (a : Ast) (id : NodeId) (root inLoop : Bool) :
    (a.markRoot id root inLoop).unwritten = a.unwritten.markRoot id root inLoop :=
  mapKinds_modify id (by rintro ⟨parent, el | _ | _⟩ <;> rfl) a

theorem unwritten_withStaticMarks :
    (a.withStaticMarks o t).unwritten = a.unwritten.withStaticMarks o t := by
  have hmarks : a.unwritten.staticMarks o t = a.staticMarks o t :=
    staticMarks_mapKinds keepsStatic_unwritten a t
  rw [withStaticMarks, withStaticMarks, hmarks]
  exact (foldl_hom unwritten fun a m => (unwritten_markStatic a m.1 m.2).symm).symm

theorem unwritten_withRootMarks : (a.withRootMarks t).unwritten = a.unwritten.withRootMarks t := by
  have hmarks : a.unwritten.rootMarks false t = a.rootMarks false t :=
    rootMarks_mapKinds keepsRoots_unwritten a false t
  rw [withRootMarks, withRootMarks, hmarks]
  exact (foldl_hom unwritten fun a m => (unwritten_markRoot a m.1 m.2.1 m.2.2).symm).symm

theorem unwritten_optimize : (a.optimize o).unwritten = a.unwritten.optimize o := by
  unfold optimize
  rw [root_unwritten]
  cases a.root with
  | none => rfl
  | some root =>
    dsimp only
    rw [unwritten_withRootMarks, unwritten_withStaticMarks, outline_unwritten]

end Ast

/-! ## What the generator reads off a tree -/

namespace Gen

theorem loopKey?_unwritten (a : Ast) : loopKey? a.unwritten id = loopKey? a id := by
  unfold loopKey?
  rw [Ast.ancestorElements_unwritten]
  cases hfind : (a.ancestorElements id).find? (·.loop.isSome) with
  | none => simp [Function.comp_def, unwritten, rewritten, hfind]
  | some above => simp [Function.comp_def, unwritten, rewritten, hfind]

theorem startsWithElement_unwritten (a : Ast) :
    startsWithElement a.unwritten el.unwritten = startsWithElement a el :=
  startsWithElement_mapKinds Ast.keepsRoots_unwritten.toKeepsShape a el

theorem childrenArguments_unwritten (tags : TagTable) (a : Ast)
    (children : List Code) : childrenArguments tags a.unwritten el.unwritten children =
      childrenArguments tags a el children :=
  childrenArguments_mapKinds Ast.keepsRoots_unwritten.toKeepsShape a el (fun _ => rfl) tags children

theorem directivesEntry_unwritten :
    DataObject.directivesEntry el.unwritten = DataObject.directivesEntry el := by
  have happlied : el.unwritten.directives.filter (·.needsRuntime) =
      (el.directives.filter (·.needsRuntime)).map Directive.unwritten := by
    show (el.directives.map Directive.unwritten).filter _ = _
    rw [List.filter_map]
    rfl
  unfold DataObject.directivesEntry
  rw [happlied]
  dsimp only
  rw [isEmpty_map, List.map_map]
  rfl

theorem ownEntries_unwritten {o : Options} (ho : o.WebModules) (el : Element) :
    DataObject.ownEntries o.modules el.unwritten = DataObject.ownEntries o.modules el := by
  have hleading : DataObject.leadingEntries el.unwritten = DataObject.leadingEntries el := by
    unfold DataObject.leadingEntries
    rw [directivesEntry_unwritten]
    rfl
  -- no module of the web looks at the markup once the tree is built
  obtain ⟨entries, -, hents⟩ := moduleEntries_web ho el (P := fun _ => True) trivial
    (fun _ _ _ _ => trivial) trivial trivial
  unfold DataObject.ownEntries
  rw [hents el.unwritten rfl rfl, hents el rfl rfl, hleading]
  rfl

end Gen

end TemplateCompiler
