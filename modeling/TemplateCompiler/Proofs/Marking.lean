import TemplateCompiler.Proofs.NodeChanges

/-!
# What marking does to a tree

Marking writes marks and nothing else: a tree is the same before and after it once the marks are
taken away (`unmarked_optimize`), and so is everything that does not look at marks. An element that
ends up marked as static has passed the test for it (`isStaticNode_of_mark`), with its whole content
as the test sees it and not a part that happened to be cut off.
-/

namespace TemplateCompiler

open List Option NodeKind

variable {β : Type} {v : β} {marks : List (NodeId × β)} {id : NodeId} {content : String}
  {tokens : Option (List TextToken)} {isStatic root inLoop : Bool}

def Element.withMarks (el : Element) (marks : StaticMarks) : Element := { el with marks }

theorem Element.eq_withMarks {el el₀ : Element} (h : el.withMarks {} = el₀.withMarks {}) :
    el = el₀.withMarks el.marks :=
  calc el = (el.withMarks {}).withMarks el.marks := rfl
    _ = (el₀.withMarks {}).withMarks el.marks := by rw [h]
    _ = el₀.withMarks el.marks := rfl

def NodeKind.unmarked : NodeKind → NodeKind
  | .element el => .element (el.withMarks {})
  | .text content tokens _ => .text content tokens false
  | .comment content _ => .comment content false

def NodeKind.withStatic (isStatic : Bool) : NodeKind → NodeKind
  | .element el => .element (el.withMarks { el.marks with isStatic })
  | .text content tokens _ => .text content tokens isStatic
  | .comment content _ => .comment content isStatic

def NodeKind.withRoot (m : Bool × Bool) : NodeKind → NodeKind :=
  mapElement fun el => el.withMarks { el.marks with root := m.1, inLoop := m.2 }

def lastMark {β : Type} (id : NodeId) : List (NodeId × β) → Option β
  | [] => none
  | m :: rest => (lastMark id rest).or (if m.1 = id then some m.2 else none)

def NodeKind.marked {β : Type} (w : β → NodeKind → NodeKind) (marks : List (NodeId × β))
    (id : NodeId) (kind : NodeKind) : NodeKind :=
  (lastMark id marks).elim kind (w · kind)

theorem mem_of_lastMark (h : lastMark id marks = some v) : (id, v) ∈ marks := by
  induction marks with
  | nil => cases h
  | cons m rest ih =>
    rw [lastMark, or_eq_some_iff] at h
    rcases h with h | ⟨-, h⟩
    · exact mem_cons_of_mem m (ih h)
    · obtain ⟨rfl, hv⟩ := ite_none_right_eq_some.mp h
      cases hv
      exact mem_cons_self

theorem lastMark_of_mem (hmem : (id, v) ∈ marks) (hall : ∀ v', (id, v') ∈ marks → v' = v) :
    lastMark id marks = some v := by
  have hsome : (lastMark id marks).isSome := by
    clear hall
    induction marks with
    | nil => cases hmem
    | cons m rest ih =>
      rw [lastMark, isSome_or, Bool.or_eq_true]
      rcases mem_cons.mp hmem with rfl | hmem
      · exact .inr (by rw [if_pos rfl]; rfl)
      · exact .inl (ih hmem)
  obtain ⟨v', hlast⟩ := isSome_iff_exists.mp hsome
  rw [hlast, hall v' (mem_of_lastMark hlast)]

namespace Ast

def unmarked (a : Ast) : Ast :=
  { a with nodes := a.nodes.map fun n => { n with kind := n.kind.unmarked } }

variable {a a' : Ast} {o : Options} {el : Element}

/-! ## Reading a tree without its marks -/

theorem keepsShape_unmarked : KeepsShape NodeKind.unmarked (·.withMarks {}) where
  element _ := rfl
  text _ _ _ := ⟨false, rfl⟩
  comment _ _ := ⟨false, rfl⟩
  children _ := rfl
  scopedSlots _ := rfl
  conditions _ := rfl
  tag _ := rfl
  loop _ := rfl

section

variable (a : Ast)

@[simp] theorem size_unmarked : a.unmarked.nodes.size = a.nodes.size :=
  size_mapKinds _ a

@[simp] theorem kind?_unmarked : a.unmarked.kind? id = (a.kind? id).map NodeKind.unmarked :=
  kind?_mapKinds _ a id

@[simp] theorem parent?_unmarked : a.unmarked.parent? id = a.parent? id :=
  parent?_mapKinds _ a id

@[simp] theorem element?_unmarked (id : NodeId) :
    a.unmarked.element? id = (a.element? id).map (·.withMarks {}) :=
  element?_mapKinds keepsShape_unmarked a id

@[simp] theorem links_unmarked : a.unmarked.links id = a.links id := by
  unfold links
  rw [element?_unmarked]
  cases a.element? id <;> rfl

@[simp] theorem ancestors_unmarked : a.unmarked.ancestors id = a.ancestors id :=
  ancestors_mapKinds _ a id

@[simp] theorem outline_unmarked (id : NodeId) : a.unmarked.outline id = a.outline id :=
  outline_mapKinds keepsShape_unmarked a id

/-! ## Marking changes nothing else -/

theorem unmarked_markStatic : (a.markStatic id isStatic).unmarked = a.unmarked :=
  mapKinds_modify_eq id (by rintro ⟨parent, el | _ | _⟩ <;> rfl) a

end

theorem writeStatic_append (a : Ast) (marks marks' : List (NodeId × Bool)) :
    a.writeStatic (marks ++ marks') = (a.writeStatic marks).writeStatic marks' := foldl_append

theorem writeRoots_append (a : Ast) (marks marks' : List (NodeId × Bool × Bool)) :
    a.writeRoots (marks ++ marks') = (a.writeRoots marks).writeRoots marks' := foldl_append

theorem unmarked_writeStatic (marks : List (NodeId × Bool)) (a : Ast) :
    (a.writeStatic marks).unmarked = a.unmarked := by
  induction marks generalizing a with
  | nil => rfl
  | cons m rest ih => exact (ih _).trans (unmarked_markStatic a)

theorem unmarked_withStaticMarks (o : Options) (a : Ast) (t : Outline) :
    (a.withStaticMarks o t).unmarked = a.unmarked :=
  unmarked_writeStatic (a.staticMarks o t) a

theorem mapKinds_writeRoots {f : NodeKind → NodeKind} (hf : ∀ m kind, f (withRoot m kind) = f kind)
    (marks : List (NodeId × Bool × Bool)) (a : Ast) :
    (a.writeRoots marks).mapKinds f = a.mapKinds f := by
  induction marks generalizing a with
  | nil => rfl
  | cons m rest ih =>
    refine (ih _).trans (mapKinds_modify_eq m.1 ?_ a)
    rintro ⟨parent, el | _ | _⟩
    · exact congrArg (Node.mk parent) (hf m.2 (.element el))
    · rfl
    · rfl

theorem unmarked_withRootMarks (a : Ast) (t : Outline) :
    (a.withRootMarks t).unmarked = a.unmarked :=
  mapKinds_writeRoots (by rintro m (_ | _ | _) <;> rfl) (a.rootMarks false t) a

theorem unmarked_optimize (o : Options) (a : Ast) : (a.optimize o).unmarked = a.unmarked := by
  unfold optimize
  split
  · rfl
  · rw [unmarked_withRootMarks, unmarked_withStaticMarks]

theorem root_optimize (o : Options) (a : Ast) : (a.optimize o).root = a.root := by
  show (a.optimize o).unmarked.root = _
  rw [unmarked_optimize]
  rfl

/-! ## Static marks -/

section

variable (h : a'.unmarked = a.unmarked)

include h

theorem element?_of_unmarked (hel : a'.element? id = some el) :
    ∃ el₀, a.element? id = some el₀ ∧ el = el₀.withMarks el.marks := by
  have heq : a'.unmarked.element? id = a.unmarked.element? id := by rw [h]
  rw [element?_unmarked, element?_unmarked, hel] at heq
  cases hel₀ : a.element? id with
  | none => rw [hel₀] at heq; cases heq
  | some el₀ =>
    rw [hel₀] at heq
    exact ⟨el₀, rfl, Element.eq_withMarks (Option.some.inj heq)⟩

theorem text_of_unmarked (hkind : a'.kind? id = some (.text content tokens isStatic)) :
    ∃ isStatic₀, a.kind? id = some (.text content tokens isStatic₀) := by
  have heq : a'.unmarked.kind? id = a.unmarked.kind? id := by rw [h]
  rw [kind?_unmarked, kind?_unmarked, hkind] at heq
  cases hkind₀ : a.kind? id with
  | none => rw [hkind₀] at heq; cases heq
  | some kind =>
    rw [hkind₀] at heq
    cases kind with
    | text content₀ tokens₀ isStatic₀ =>
      cases heq
      exact ⟨isStatic₀, rfl⟩
    | element el => cases heq
    | comment content => cases heq

theorem links_of_unmarked (id : NodeId) : a'.links id = a.links id := by
  rw [← links_unmarked, h, links_unmarked]

theorem below_of_unmarked : a'.Below = a.Below := by
  unfold Below
  simp only [links_of_unmarked h]

theorem parent?_of_unmarked (id : NodeId) : a'.parent? id = a.parent? id := by
  rw [← parent?_unmarked, h, parent?_unmarked]

theorem size_of_unmarked : a'.nodes.size = a.nodes.size := by
  rw [← size_unmarked, h, size_unmarked]

theorem outline_of_unmarked (id : NodeId) : a'.outline id = a.outline id := by
  rw [← outline_unmarked, h, outline_unmarked]

theorem extends_of_unmarked : a.Extends a' where
  size := Nat.le_of_eq (size_of_unmarked h).symm
  parent x _ := parent?_of_unmarked h x
  element x hx := by
    obtain ⟨el, hel⟩ := Option.isSome_iff_exists.mp hx
    obtain ⟨el', hel', -⟩ := element?_of_unmarked h.symm hel
    rw [hel']
    rfl

end

theorem Acyclic.of_unmarked (h : a.Acyclic) (hsame : a'.unmarked = a.unmarked) : a'.Acyclic where
  links := by simpa only [links_of_unmarked hsame] using h.links
  chain i el hel c hc := by
    obtain ⟨el₀, hel₀, heq⟩ := element?_of_unmarked hsame hel
    exact h.chain i el₀ hel₀ c (by rwa [heq] at hc)

theorem WellFormed.of_unmarked (h : a.WellFormed) (hsame : a'.unmarked = a.unmarked) :
    a'.WellFormed where
  fits id el hel := by
    obtain ⟨el₀, hel₀, heq⟩ := element?_of_unmarked hsame hel
    have hfits := (h.fits id el₀ hel₀).extend (lt_size_of_element? hel₀) (extends_of_unmarked hsame)
    rw [heq]
    exact { hfits with }
  parents x p hp := h.parents x p (by rwa [← parent?_of_unmarked hsame])
  owner x i j hi hj := by
    rw [links_of_unmarked hsame] at hi hj
    exact h.owner x i j hi hj

theorem getElem?_foldl_modify {w : β → NodeKind → NodeKind}
    (hw : ∀ v v' kind, w v (w v' kind) = w v kind) (marks : List (NodeId × β)) (nodes : Array Node)
    (i : Nat) :
    (marks.foldl (fun nodes m => nodes.modify m.1 fun n => { n with kind := w m.2 n.kind })
      nodes)[i]? =
      nodes[i]?.map fun n => { n with kind := n.kind.marked w marks i } := by
  induction marks generalizing nodes with
  | nil => exact Option.map_id'.symm
  | cons m rest ih =>
    rw [foldl_cons, ih, Array.getElem?_modify]
    unfold marked
    by_cases hm : m.1 = i
    · rw [if_pos hm, Option.map_map, lastMark, if_pos hm]
      refine congrArg (fun f => nodes[i]?.map f) (funext fun n => ?_)
      cases lastMark i rest with
      | none => rfl
      | some v => simp [hw]
    · rw [if_neg hm, lastMark, if_neg hm, or_none]

theorem withStatic_withStatic (v v' : Bool) (kind : NodeKind) :
    (kind.withStatic v').withStatic v = kind.withStatic v := by
  cases kind <;> rfl

theorem withRoot_withRoot (m m' : Bool × Bool) (kind : NodeKind) :
    (kind.withRoot m').withRoot m = kind.withRoot m := by
  cases kind <;> rfl

theorem withRoot_withStatic (m : Bool × Bool) (v : Bool) (kind : NodeKind) :
    (kind.withStatic v).withRoot m = (kind.withRoot m).withStatic v := by
  cases kind <;> rfl

theorem nodes_writeStatic (marks : List (NodeId × Bool)) (a : Ast) (i : Nat) :
    (a.writeStatic marks).nodes[i]? =
      a.nodes[i]?.map fun n => { n with kind := n.kind.marked withStatic marks i } := by
  unfold writeStatic
  rw [← getElem?_foldl_modify withStatic_withStatic, ← foldl_hom nodes]
  intro a m
  dsimp only [markStatic]
  congr 1
  funext n
  rcases n with ⟨parent, el | _ | _⟩ <;> rfl

theorem nodes_writeRoots (marks : List (NodeId × Bool × Bool)) (a : Ast) (i : Nat) :
    (a.writeRoots marks).nodes[i]? =
      a.nodes[i]?.map fun n => { n with kind := n.kind.marked withRoot marks i } := by
  unfold writeRoots
  rw [← getElem?_foldl_modify withRoot_withRoot, ← foldl_hom nodes]
  intro a m
  dsimp only [markRoot, modifyElement]
  congr 1
  funext n
  rcases n with ⟨parent, el | _ | _⟩ <;> rfl

theorem element?_writeStatic (marks : List (NodeId × Bool)) (a : Ast) (id : NodeId) :
    (a.writeStatic marks).element? id = (a.element? id).map fun el =>
      (lastMark id marks).elim el fun isStatic => el.withMarks { el.marks with isStatic } := by
  unfold element? kind?
  rw [nodes_writeStatic]
  rcases a.nodes[id]? with _ | ⟨parent, el | _ | _⟩ <;> unfold marked <;>
    cases lastMark id marks <;> rfl

theorem element?_writeRoots (marks : List (NodeId × Bool × Bool)) (a : Ast) (id : NodeId) :
    (a.writeRoots marks).element? id = (a.element? id).map fun el =>
      (lastMark id marks).elim el fun m =>
        el.withMarks { el.marks with root := m.1, inLoop := m.2 } := by
  unfold element? kind?
  rw [nodes_writeRoots]
  rcases a.nodes[id]? with _ | ⟨parent, el | _ | _⟩ <;> unfold marked <;>
    cases lastMark id marks <;> rfl

theorem isStatic_writeRoots (marks : List (NodeId × Bool × Bool)) (a : Ast)
    (hel : (a.writeRoots marks).element? id = some el) :
    ∃ el₀, a.element? id = some el₀ ∧ el₀.marks.isStatic = el.marks.isStatic := by
  rw [element?_writeRoots, map_eq_some_iff] at hel
  obtain ⟨el₀, hel₀, rfl⟩ := hel
  exact ⟨el₀, hel₀, by cases lastMark id marks <;> rfl⟩

/-! ## The test for static nodes -/

theorem areStatic_eq_all (outlines : List Outline) :
    a.areStatic o outlines = outlines.all (a.isStaticNode o) := by
  induction outlines with
  | nil => rw [areStatic, all_nil]
  | cons first rest ih => rw [areStatic, ih, all_cons]

theorem areStaticAfterFirst_eq (o : Options) (a : Ast) (outlines : List Outline) :
    a.areStaticAfterFirst o outlines = a.areStatic o outlines.tail := by
  cases outlines with
  | nil => rw [areStaticAfterFirst, tail_nil, areStatic]
  | cons first rest => rw [areStaticAfterFirst, tail_cons]

/-- An element is static if it is so by itself and, unless it hides its content, all its children
and branches are. -/
theorem isStaticNode_outline (h : a.Acyclic) (hel : a.element? id = some el) :
    a.isStaticNode o (a.outline id) = (el.isLocallyStatic o a id && (!el.isTransparent o ||
        ((el.children.map a.outline).all (a.isStaticNode o) &&
          (el.branchNodes.map a.outline).all (a.isStaticNode o)))) := by
  rw [h.outline_eq hel, isStaticNode, element?_eq_some_iff.mp hel]
  simp only [areStaticAfterFirst_eq, h.tail_branches hel, areStatic_eq_all]

theorem isStaticNode_text (hkind : a.kind? id = some (.text content tokens isStatic)) :
    a.isStaticNode o (a.outline id) = tokens.isNone := by
  have hnone : a.element? id = none := by
    unfold element?
    rw [hkind]
  rw [outline_of_not_element hnone, isStaticNode, hkind]

theorem mem_staticMarksAll {m : NodeId × Bool} {outlines : List Outline} :
    m ∈ a.staticMarksAll o outlines ↔ ∃ t ∈ outlines, m ∈ a.staticMarks o t := by
  induction outlines with
  | nil => simp [staticMarksAll]
  | cons first rest ih => simp [staticMarksAll, ih]

theorem staticMarksAfterFirst_eq (o : Options) (a : Ast) (outlines : List Outline) :
    a.staticMarksAfterFirst o outlines = a.staticMarksAll o outlines.tail := by
  cases outlines with
  | nil => rw [staticMarksAfterFirst, tail_nil, staticMarksAll]
  | cons first rest => rw [staticMarksAfterFirst, tail_cons]

/-- The mark of each node is what the test says about the node with its whole content. -/
theorem mark_eq_isStaticNode (h : a.Acyclic) {x : NodeId} {mark : Bool}
    (hmem : (x, mark) ∈ a.staticMarks o (a.outline id)) :
    mark = a.isStaticNode o (a.outline x) := by
  induction id using h.links.induction with
  | _ id ih =>
    cases hel : a.element? id with
    | none =>
      have hout := outline_of_not_element hel
      rw [hout, staticMarks, hel, mem_singleton] at hmem
      cases hmem
      rw [hout]
    | some el =>
      have hlink (outlined : List NodeId) (hlinks : outlined ⊆ a.links id)
          (hmem : (x, mark) ∈ a.staticMarksAll o (outlined.map a.outline)) :
          mark = a.isStaticNode o (a.outline x) := by
        obtain ⟨t, ht, hmem⟩ := mem_staticMarksAll.mp hmem
        obtain ⟨y, hy, rfl⟩ := List.mem_map.mp ht
        exact ih y (hlinks hy) hmem
      have hkids : el.children ⊆ a.links id := fun y hy => by
        rw [links_eq hel]
        exact Element.child_link hy
      have hbrs : el.branchNodes ⊆ a.links id := fun y hy => by
        rw [links_eq hel]
        exact Element.branch_link hy
      have hout := h.outline_eq hel
      rw [hout, staticMarks, ← hout, hel] at hmem
      rcases mem_cons.mp hmem with heq | hmem
      · cases heq
        rfl
      · dsimp only at hmem
        split at hmem
        · rw [staticMarksAfterFirst_eq, h.tail_branches hel] at hmem
          rcases mem_append.mp hmem with hmem | hmem
          · exact hlink el.children hkids hmem
          · exact hlink el.branchNodes hbrs hmem
        · cases hmem

theorem isStaticNode_of_mark (h : a.WellFormed)
    (hinit : ∀ id el, a.element? id = some el → el.marks.isStatic = false)
    (hel : (a.optimize o).element? id = some el) (hstat : el.marks.isStatic) :
    a.isStaticNode o (a.outline id) := by
  unfold optimize at hel
  split at hel
  · rw [hinit id el hel] at hstat
    cases hstat
  · next root _ =>
    obtain ⟨el₁, hel₁, hsame⟩ := isStatic_writeRoots _ _ hel
    rw [← hsame] at hstat
    rw [withStaticMarks, element?_writeStatic, map_eq_some_iff] at hel₁
    obtain ⟨el₀, hel₀, rfl⟩ := hel₁
    cases hlast : lastMark id (a.staticMarks o (a.outline root)) with
    | none =>
      rw [hlast, elim_none, hinit id el₀ hel₀] at hstat
      cases hstat
    | some mark =>
      rw [hlast] at hstat
      exact (mark_eq_isStaticNode h.acyclic (mem_of_lastMark hlast)).symm.trans hstat

end Ast

end TemplateCompiler
