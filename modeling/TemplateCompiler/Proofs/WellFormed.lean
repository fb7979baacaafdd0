import TemplateCompiler.Proofs.Arena

/-!
# Well-formed trees

The links of a tree are numbers, so nothing in the data keeps them from forming a cycle or from
pointing nowhere. `Ast.WellFormed` says that they form a tree: links lead to later nodes, agree with
the parent that each node names, and no node is linked twice.

While a tree is built, some of its elements are still open and not linked yet. `Ast.OpenAt` says
what holds then: the open elements stand in each other, nothing links to them, and everything
outside an open element was linked before it. Each edit of the builder is shown to keep this,
whatever comes before and after it.
-/

namespace TemplateCompiler

open List Option Element

variable {el el' : Element} {exp name : String} {parent : Option NodeId} {els : List Element}
  {f : Element → Element}

namespace Element

def slotNodes (el : Element) : List NodeId := el.scopedSlots.map (·.2)

def branchNodes (el : Element) : List NodeId := el.conditions.tail.map (·.block)

def links (el : Element) : List NodeId := el.children ++ el.slotNodes ++ el.branchNodes

/-- An element without links and without a condition. -/
structure Bare (el : Element) : Prop where
  children : el.children = []
  scopedSlots : el.scopedSlots = []
  conditions : el.conditions = []
  ifExp : el.ifExp = none

theorem mem_links {x : NodeId} :
    x ∈ el.links ↔ (x ∈ el.children ∨ x ∈ el.slotNodes) ∨ x ∈ el.branchNodes := by
  rw [links, mem_append, mem_append]

theorem child_link {x : NodeId} (h : x ∈ el.children) :
    x ∈ el.links := mem_links.mpr (.inl (.inl h))

theorem slot_link {x : NodeId} (h : x ∈ el.slotNodes) :
    x ∈ el.links := mem_links.mpr (.inl (.inr h))

theorem branch_link {x : NodeId} (h : x ∈ el.branchNodes) : x ∈ el.links := mem_links.mpr (.inr h)

theorem links_addChild (el : Element) (x : NodeId) :
    { el with children := el.children ++ [x] }.links.Perm (x :: el.links) := by
  unfold links
  simp only [List.append_assoc]
  exact perm_middle

theorem links_addSlot (el : Element) (name : String) (x : NodeId) :
    { el with scopedSlots := el.scopedSlots ++ [(name, x)] }.links.Perm (x :: el.links) := by
  have hslots : { el with scopedSlots := el.scopedSlots ++ [(name, x)] }.slotNodes =
      el.slotNodes ++ [x] := map_append
  unfold links
  rw [hslots, ← List.append_assoc, List.append_assoc _ [x]]
  exact perm_middle

theorem Bare.links (h : el.Bare) : el.links = [] := by
  simp [Element.links, slotNodes, branchNodes, h.children, h.scopedSlots, h.conditions]

/-- The element `el'` has lost children and slots of `el`, and nothing of its chain. -/
structure Drops (el el' : Element) : Prop where
  children : el'.children.Sublist el.children
  scopedSlots : el'.scopedSlots.Sublist el.scopedSlots
  conditions : el'.conditions = el.conditions
  ifExp : el'.ifExp = el.ifExp

theorem Drops.branchNodes (h : el.Drops el') : el'.branchNodes = el.branchNodes := by
  unfold Element.branchNodes
  rw [h.conditions]

theorem Drops.links (h : el.Drops el') : el'.links.Sublist el.links := by
  unfold Element.links
  rw [h.branchNodes]
  exact (h.children.append (h.scopedSlots.map _)).append_right _

end Element

namespace Ast

def links (a : Ast) (id : NodeId) : List NodeId := (a.element? id).elim [] Element.links

/-- The element `el` with number `id` fits into a tree: its links lead to later nodes of the tree,
in ascending order and each to a node of its own; children and slots name it as their parent, and
branches name its own parent; and it starts a chain exactly if it has a condition. -/
structure Fits (a : Ast) (id : NodeId) (el : Element) : Prop where
  inTree : ∀ x ∈ el.links, x < a.nodes.size
  slotElements : ∀ x ∈ el.slotNodes, (a.element? x).isSome
  blockElements : ∀ c ∈ el.conditions, (a.element? c.block).isSome
  children : (id :: el.children).Pairwise (· < ·)
  slots : (id :: el.slotNodes).Pairwise (· < ·)
  branches : (id :: el.branchNodes).Pairwise (· < ·)
  childParent : ∀ x ∈ el.children, a.parent? x = some id
  slotParent : ∀ x ∈ el.slotNodes, a.parent? x = some id
  branchParent : ∀ x ∈ el.branchNodes, a.parent? x = a.parent? id
  linkedOnce : el.links.Nodup
  chain : el.conditions.head? = el.ifExp.map fun exp => ⟨some exp, id⟩

/-- The links of a tree form a tree. -/
structure WellFormed (a : Ast) : Prop where
  fits : ∀ id el, a.element? id = some el → a.Fits id el
  parents : ∀ x p, a.parent? x = some p → p < x
  owner : ∀ x i j, x ∈ a.links i → x ∈ a.links j → i = j

/-! ## Larger trees -/

/-- The tree `a'` has the nodes of `a`, each with the same parent, and perhaps more. -/
structure Extends (a a' : Ast) : Prop where
  size : a.nodes.size ≤ a'.nodes.size
  parent : ∀ x < a.nodes.size, a'.parent? x = a.parent? x
  element : ∀ x, (a.element? x).isSome → (a'.element? x).isSome

variable {a a' : Ast} {id x : NodeId} {el el' : Element} {stack : List NodeId}

theorem Extends.refl (a : Ast) : a.Extends a := ⟨Nat.le_refl _, fun _ _ => rfl, fun _ h => h⟩

theorem Extends.trans {b : Ast} (h : a.Extends b) (h' : b.Extends a') : a.Extends a' where
  size := Nat.le_trans h.size h'.size
  parent x hx := by rw [h'.parent x (Nat.lt_of_lt_of_le hx h.size), h.parent x hx]
  element x hx := h'.element x (h.element x hx)

theorem Extends.push (a : Ast) (parent : Option NodeId) (kind : NodeKind) :
    a.Extends (a.push parent kind) where
  size := by simp
  parent _ h := parent?_push_of_lt h
  element x h := by
    rwa [element?_push_of_lt (lt_size_of_isSome h)]

theorem Extends.pushElements (a : Ast) (parent : Option NodeId) (els : List Element) :
    a.Extends (a.pushElements parent els) := by
  induction els generalizing a with
  | nil => exact .refl a
  | cons el rest ih => exact (push a parent (.element el)).trans (ih _)

theorem Extends.modifyElement (a : Ast) (id : NodeId) (f : Element → Element) :
    a.Extends (a.modifyElement id f) where
  size := by simp
  parent _ _ := parent?_modifyElement ..
  element x h := by rwa [isSome_element?_modifyElement]

namespace Fits

/-- An element that fits into a tree still does when the tree grows. -/
theorem extend (h : a.Fits id el) (hid : id < a.nodes.size) (ha : a.Extends a') :
    a'.Fits id el :=
  { h with
    inTree := fun x hx => Nat.lt_of_lt_of_le (h.inTree x hx) ha.size
    slotElements := fun x hx => ha.element x (h.slotElements x hx)
    blockElements := fun c hc => ha.element c.block (h.blockElements c hc)
    childParent := fun x hx => by
      rw [ha.parent x (h.inTree x (child_link hx)), h.childParent x hx]
    slotParent := fun x hx => by
      rw [ha.parent x (h.inTree x (slot_link hx)), h.slotParent x hx]
    branchParent := fun x hx => by
      rw [ha.parent x (h.inTree x (branch_link hx)), ha.parent id hid, h.branchParent x hx] }

/-- An element without children and slots may start a chain of `count` more elements that stand
beside it from `first` on. -/
theorem ofBranches (first count : Nat) (hid : id < first)
    (hbeside : ∀ x, first ≤ x → x < first + count →
      (a.element? x).isSome ∧ a.parent? x = a.parent? id)
    (hkids : el.children = []) (hslots : el.scopedSlots = [])
    (hbrs : el.branchNodes = List.range' first count)
    (hchain : el.conditions.head? = el.ifExp.map fun exp => ⟨some exp, id⟩)
    (helt : el.ifExp.isSome → (a.element? id).isSome) : a.Fits id el := by
  have hlinks : el.links = List.range' first count := by
    simp [Element.links, Element.slotNodes, hkids, hslots, hbrs]
  have hbr {x : NodeId} (hx : x ∈ List.range' first count) :
      (a.element? x).isSome ∧ a.parent? x = a.parent? id :=
    hbeside x (mem_range'_1.mp hx).1 (mem_range'_1.mp hx).2
  constructor
  · exact fun x hx => lt_size_of_isSome (hbr (hlinks ▸ hx)).1
  · simp [slotNodes, hslots]
  · intro c hc
    cases hconds : el.conditions with
    | nil => rw [hconds] at hc; cases hc
    | cons head rest =>
      rw [hconds] at hc hchain
      rw [branchNodes, hconds] at hbrs
      rcases mem_cons.mp hc with rfl | hc
      · obtain ⟨exp, hexp, rfl⟩ := map_eq_some_iff.mp hchain.symm
        exact helt (isSome_of_eq_some hexp)
      · exact (hbr (hbrs ▸ List.mem_map_of_mem hc)).1
  · simp [hkids]
  · simp [slotNodes, hslots]
  · rw [hbrs, pairwise_cons]
    refine ⟨fun x hx => ?_, pairwise_lt_range'⟩
    exact Nat.lt_of_lt_of_le hid (mem_range'_1.mp hx).1
  · simp [hkids]
  · simp [slotNodes, hslots]
  · exact fun x hx => (hbr (hbrs ▸ hx)).2
  · rw [hlinks]
    exact nodup_range'
  · exact hchain

theorem ofUnbranched (hkids : el.children = []) (hslots : el.scopedSlots = [])
    (hbrs : el.branchNodes = [])
    (hchain : el.conditions.head? = el.ifExp.map fun exp => ⟨some exp, id⟩)
    (helt : el.ifExp.isSome → (a.element? id).isSome) : a.Fits id el :=
  ofBranches (id + 1) 0 (Nat.lt_succ_self id) (fun _ h h' => absurd h (Nat.not_le.mpr h')) hkids
    hslots hbrs hchain helt

theorem ofBare (h : el.Bare) : a.Fits id el := by
  refine ofUnbranched h.children h.scopedSlots ?_ ?_ fun hif => ?_
  · rw [branchNodes, h.conditions]
    rfl
  · rw [h.conditions, h.ifExp]
    rfl
  · rw [h.ifExp] at hif
    cases hif

theorem innerParent (h : a.Fits id el) (hx : x ∈ el.children ∨ x ∈ el.slotNodes) :
    a.parent? x = some id := hx.elim (h.childParent x) (h.slotParent x)

theorem lt_of_mem_links (h : a.Fits id el) (hx : x ∈ el.links) : id < x := by
  rcases mem_links.mp hx with (hx | hx) | hx
  · exact rel_of_pairwise_cons h.children hx
  · exact rel_of_pairwise_cons h.slots hx
  · exact rel_of_pairwise_cons h.branches hx

/-! ## Changes to the links of an element -/

theorem drop (h : a.Fits id el) (hdrop : el.Drops el') : a.Fits id el' := by
  have hslotNodes : el'.slotNodes.Sublist el.slotNodes := hdrop.scopedSlots.map _
  have hbrs := hdrop.branchNodes
  have hlinks := hdrop.links
  exact {
    inTree := fun x hx => h.inTree x (hlinks.subset hx)
    slotElements := fun x hx => h.slotElements x (hslotNodes.subset hx)
    blockElements := hdrop.conditions ▸ h.blockElements
    children := h.children.sublist (hdrop.children.cons_cons id)
    slots := h.slots.sublist (hslotNodes.cons_cons id)
    branches := hbrs ▸ h.branches
    childParent := fun x hx => h.childParent x (hdrop.children.subset hx)
    slotParent := fun x hx => h.slotParent x (hslotNodes.subset hx)
    branchParent := hbrs ▸ h.branchParent
    linkedOnce := h.linkedOnce.sublist hlinks
    chain := by rw [hdrop.conditions, hdrop.ifExp, h.chain] }

theorem pairwise_concat {l : List NodeId} (hl : (id :: l).Pairwise (· < ·)) (hid : id < x)
    (hlast : ∀ y ∈ l, y < x) : (id :: (l ++ [x])).Pairwise (· < ·) := by
  rw [← cons_append, pairwise_append]
  refine ⟨hl, pairwise_singleton .., fun y hy z hz => ?_⟩
  rw [mem_singleton.mp hz]
  rcases mem_cons.mp hy with rfl | hy
  · exact hid
  · exact hlast y hy

/-- A node that can be linked from the element `el` with number `id` after all its other links. -/
structure Next (a : Ast) (id : NodeId) (el : Element) (x : NodeId) : Prop where
  inTree : x < a.nodes.size
  above : id < x
  last : ∀ y ∈ el.links, y < x

theorem Next.drop (h : Next a id el x) (hlinks : el'.links ⊆ el.links) : Next a id el' x :=
  ⟨h.inTree, h.above, fun y hy => h.last y (hlinks hy)⟩

section

variable (h : a.Fits id el) (hx : Next a id el x)

include h hx

theorem nodup_links (hlinks : el'.links.Perm (x :: el.links)) : el'.links.Nodup := by
  rw [hlinks.nodup_iff, nodup_cons]
  exact ⟨fun hmem => Nat.lt_irrefl x (hx.last x hmem), h.linkedOnce⟩

theorem inTree_links
    (hlinks : el'.links.Perm (x :: el.links)) : ∀ y ∈ el'.links, y < a.nodes.size := by
  intro y hy
  rcases mem_cons.mp (hlinks.mem_iff.mp hy) with rfl | hy
  · exact hx.inTree
  · exact h.inTree y hy

theorem addChild (hpar : a.parent? x = some id) :
    a.Fits id { el with children := el.children ++ [x] } := by
  have hlinks := el.links_addChild x
  exact { h with
    inTree := h.inTree_links hx hlinks
    children := pairwise_concat h.children hx.above fun y hy =>
      hx.last y (child_link hy)
    childParent := fun y hy => by
      rcases mem_append.mp hy with hy | hy
      · exact h.childParent y hy
      · rw [mem_singleton.mp hy, hpar]
    linkedOnce := h.nodup_links hx hlinks }

theorem addSlot (hpar : a.parent? x = some id) (helt : (a.element? x).isSome) :
    a.Fits id { el with scopedSlots := el.scopedSlots ++ [(name, x)] } := by
  have hslots : { el with scopedSlots := el.scopedSlots ++ [(name, x)] }.slotNodes =
      el.slotNodes ++ [x] := map_append
  have hlinks := el.links_addSlot name x
  exact { h with
    inTree := h.inTree_links hx hlinks
    slotElements := fun y hy => by
      rcases mem_append.mp (hslots ▸ hy) with hy | hy
      · exact h.slotElements y hy
      · rw [mem_singleton.mp hy]
        exact helt
    slots := by
      rw [hslots]
      exact pairwise_concat h.slots hx.above fun y hy =>
        hx.last y (slot_link hy)
    slotParent := fun y hy => by
      rcases mem_append.mp (hslots ▸ hy) with hy | hy
      · exact h.slotParent y hy
      · rw [mem_singleton.mp hy, hpar]
    linkedOnce := h.nodup_links hx hlinks }

end

theorem addBranch (h : a.Fits id el) {c : Condition} (hx : Next a id el c.block)
    (hpar : a.parent? c.block = a.parent? id) (helt : (a.element? c.block).isSome)
    (hif : el.ifExp.isSome) : a.Fits id { el with conditions := el.conditions ++ [c] } := by
  obtain ⟨exp, hexp⟩ := isSome_iff_exists.mp hif
  have hhead : el.conditions.head? = some ⟨some exp, id⟩ := by rw [h.chain, hexp]; rfl
  obtain ⟨rest, hconds⟩ : ∃ rest, el.conditions = ⟨some exp, id⟩ :: rest :=
    head?_eq_some_iff.mp hhead
  have hbrs : { el with conditions := el.conditions ++ [c] }.branchNodes =
      el.branchNodes ++ [c.block] := by
    simp [branchNodes, hconds]
  have hlinks :
      { el with conditions := el.conditions ++ [c] }.links.Perm (c.block :: el.links) := by
    simp only [Element.links, hbrs, ← List.append_assoc]
    exact perm_append_singleton ..
  exact { h with
    inTree := h.inTree_links hx hlinks
    blockElements := fun y hy => by
      rcases mem_append.mp hy with hy | hy
      · exact h.blockElements y hy
      · rw [mem_singleton.mp hy]
        exact helt
    branches := by
      rw [hbrs]
      exact pairwise_concat h.branches hx.above fun y hy =>
        hx.last y (branch_link hy)
    branchParent := fun y hy => by
      rcases mem_append.mp (hbrs ▸ hy) with hy | hy
      · exact h.branchParent y hy
      · rw [mem_singleton.mp hy, hpar]
    linkedOnce := h.nodup_links hx hlinks
    chain := by rw [← h.chain, hconds]; rfl }

end Fits

/-! ## Links by number -/

theorem links_eq (h : a.element? id = some el) : a.links id = el.links := by
  rw [links, h]
  rfl

theorem exists_element_of_mem_links (h : x ∈ a.links id) :
    ∃ el, a.element? id = some el ∧ x ∈ el.links := by
  cases hel : a.element? id with
  | some el => exact ⟨el, rfl, by rwa [links_eq hel] at h⟩
  | none => rw [links, hel] at h; cases h

theorem WellFormed.lt_of_mem_links (h : a.WellFormed) (hx : x ∈ a.links id) :
    id < x ∧ x < a.nodes.size := by
  obtain ⟨el, hel, hx⟩ := exists_element_of_mem_links hx
  exact ⟨(h.fits id el hel).lt_of_mem_links hx, (h.fits id el hel).inTree x hx⟩

theorem WellFormed.parent?_zero (h : a.WellFormed) : a.parent? 0 = none := by
  cases hp : a.parent? 0 with
  | none => rfl
  | some p => exact absurd (h.parents 0 p hp) (Nat.not_lt_zero p)

theorem mem_links_of_pushElements
    (hels : ∀ el ∈ els, el.Bare) (h : x ∈ (a.pushElements parent els).links id) :
    x ∈ a.links id := by
  obtain ⟨el, hel, hx⟩ := exists_element_of_mem_links h
  rw [element?_eq_some_iff, kind?_pushElements] at hel
  split at hel
  · rwa [links_eq (element?_eq_some_iff.mpr hel)]
  · obtain ⟨el', hel', heq⟩ := map_eq_some_iff.mp hel
    cases heq
    rw [(hels el (mem_of_getElem? hel')).links] at hx
    cases hx

/-! ## Trees under construction -/

/-- The elements of a list stand in each other, innermost first, the last one at the top level. -/
def Nested (a : Ast) : List NodeId → Prop
  | [] => True
  | e :: rest => (a.element? e).isSome ∧ a.parent? e = rest.head? ∧ a.Nested rest

/-- A tree in which the elements of `stack` are open, innermost first. -/
structure OpenAt (a : Ast) (stack : List NodeId) : Prop extends WellFormed a where
  nested : a.Nested stack
  unlinked : ∀ e ∈ stack, ∀ y, e ∉ a.links y
  /-- What stands before an open element links to nothing after it. -/
  earlier : ∀ e ∈ stack, ∀ y < e, ∀ x ∈ a.links y, x < e

theorem Nested.extend (h : a.Nested stack) (ha : a.Extends a') : a'.Nested stack := by
  induction stack with
  | nil => trivial
  | cons e rest ih =>
    obtain ⟨helt, hpar, hrest⟩ := h
    exact ⟨ha.element e helt, by rw [ha.parent e (lt_size_of_isSome helt), hpar], ih hrest⟩

/-- An open element comes after the ones around it. -/
theorem Nested.lt (h : a.Nested (id :: stack)) (ha : a.WellFormed) : ∀ e ∈ stack, e < id := by
  induction stack generalizing id with
  | nil => simp
  | cons next rest ih =>
    have hnext : next < id := ha.parents id next h.2.1
    intro e he
    rcases mem_cons.mp he with rfl | he
    · exact hnext
    · exact Nat.lt_trans (ih h.2.2 e he) hnext

namespace OpenAt

theorem pop (h : a.OpenAt (id :: stack)) : a.OpenAt stack where
  toWellFormed := h.toWellFormed
  nested := h.nested.2.2
  unlinked e he := h.unlinked e (mem_cons_of_mem id he)
  earlier e he := h.earlier e (mem_cons_of_mem id he)

theorem le_head (h : a.OpenAt (id :: stack)) : ∀ e ∈ id :: stack, e ≤ id := by
  intro e he
  rcases mem_cons.mp he with rfl | he
  · exact Nat.le_refl e
  · exact Nat.le_of_lt (h.nested.lt h.toWellFormed e he)

theorem ofNodes (h : a.OpenAt stack) (hnodes : a'.nodes = a.nodes) : a'.OpenAt stack := by
  obtain ⟨nodes, root⟩ := a
  obtain ⟨nodes', root'⟩ := a'
  subst hnodes
  have hext : Extends ⟨nodes', root⟩ ⟨nodes', root'⟩ :=
    ⟨Nat.le_refl _, fun _ _ => rfl, fun _ hx => hx⟩
  exact ⟨⟨fun id el hel => (h.fits id el hel).extend (lt_size_of_element? hel) hext, h.parents,
    h.owner⟩, h.nested.extend hext, h.unlinked, h.earlier⟩

/-! ### Changing an element -/

/-- An element may be replaced by one that fits, if each new link leads to a node that is closed and
not linked yet, and no open element comes after the one that links to it. -/
theorem modify (h : a.OpenAt stack) (hel : a.element? id = some el) (hfits : a.Fits id (f el))
    (hnew : ∀ x ∈ (f el).links, x ∈ el.links ∨
      (x ∉ stack ∧ (∀ y, x ∉ a.links y) ∧ ∀ e ∈ stack, e ≤ id)) :
    (a.modifyElement id f).OpenAt stack := by
  have hid : id < a.nodes.size := lt_size_of_element? hel
  have hext := Extends.modifyElement a id f
  have hlinks (y x : NodeId) (hx : x ∈ (a.modifyElement id f).links y) : x ∈ a.links y ∨
      (y = id ∧ x ∉ stack ∧ (∀ y, x ∉ a.links y) ∧ ∀ e ∈ stack, e ≤ id) := by
    by_cases hy : id = y
    · subst hy
      rw [links_eq (element?_modifyElement_self hel)] at hx
      rw [links_eq hel]
      exact (hnew x hx).imp_right fun hx => ⟨rfl, hx⟩
    · unfold links at hx
      rw [element?_modifyElement_of_ne hy] at hx
      exact .inl hx
  constructor
  · constructor
    · intro j el' hj
      rcases element?_modifyElement_cases hj with ⟨-, hj⟩ | ⟨rfl, old, hold, rfl⟩
      · exact (h.fits j el' hj).extend (lt_size_of_element? hj) hext
      · cases hel.symm.trans hold
        exact hfits.extend hid hext
    · intro x p hp
      rw [parent?_modifyElement] at hp
      exact h.parents x p hp
    · intro x i j hi hj
      rcases hlinks i x hi with hold | ⟨rfl, -, hfree, -⟩
      · rcases hlinks j x hj with hold' | ⟨rfl, -, hfree, -⟩
        · exact h.owner x i j hold hold'
        · exact absurd hold (hfree i)
      · rcases hlinks j x hj with hold | ⟨rfl, -, -, -⟩
        · exact absurd hold (hfree j)
        · rfl
  · exact h.nested.extend hext
  · intro e he y hy
    rcases hlinks y e hy with hy | ⟨-, hclosed, -⟩
    · exact h.unlinked e he y hy
    · exact hclosed he
  · intro e he y hlt x hx
    rcases hlinks y x hx with hx | ⟨rfl, -, -, hlast⟩
    · exact h.earlier e he y hlt x hx
    · exact absurd hlt (Nat.not_lt.mpr (hlast e he))

/-- A closed element may be linked after all links of an element before it, unless that one stands
before an open element. -/
theorem next (h : a.OpenAt (x :: stack)) (hel : a.element? id = some el) (hlt : id < x) :
    Fits.Next a id el x where
  inTree := lt_size_of_isSome h.nested.1
  above := hlt
  last y hy := h.earlier x (mem_cons_self ..) id hlt y (by rwa [links_eq hel])

theorem link (h : a.OpenAt (x :: stack)) (hel : a.element? id = some el)
    (hfits : a.Fits id (f el)) (hlinks : ∀ y ∈ (f el).links, y ∈ el.links ∨ y = x)
    (hlast : ∀ e ∈ stack, e ≤ id) : (a.modifyElement id f).OpenAt stack := by
  refine h.pop.modify hel hfits fun y hy => ?_
  rcases hlinks y hy with hy | rfl
  · exact .inl hy
  · refine .inr ⟨fun hmem => ?_, h.unlinked y (mem_cons_self ..), hlast⟩
    exact Nat.lt_irrefl y (h.nested.lt h.toWellFormed y hmem)

/-! ### Adding a node -/

theorem push {kind : NodeKind} (h : a.OpenAt stack) (hpar : ∀ p ∈ parent, p < a.nodes.size)
    (hkind : ∀ el, kind = .element el → el.Bare) : (a.push parent kind).OpenAt stack := by
  have hext := Extends.push a parent kind
  have hnew (j : NodeId) (el : Element) (hj : (a.push parent kind).element? j = some el) :
      el.Bare ∨ a.element? j = some el :=
    (element?_push_cases hj).imp_left fun hnew => hkind el hnew.2
  have hlinks (y x : NodeId) (hx : x ∈ (a.push parent kind).links y) : x ∈ a.links y := by
    obtain ⟨el, hel, hx⟩ := exists_element_of_mem_links hx
    rcases hnew y el hel with hbare | hold
    · rw [hbare.links] at hx
      cases hx
    · rwa [links_eq hold]
  constructor
  · constructor
    · intro j el hj
      rcases hnew j el hj with hbare | hold
      · exact .ofBare hbare
      · exact (h.fits j el hold).extend (lt_size_of_element? hold) hext
    · intro x p hp
      rw [parent?_push] at hp
      split at hp
      · next heq => exact heq ▸ hpar p hp
      · exact h.parents x p hp
    · intro x i j hi hj
      exact h.owner x i j (hlinks i x hi) (hlinks j x hj)
  · exact h.nested.extend hext
  · exact fun e he y hy => h.unlinked e he y (hlinks y e hy)
  · exact fun e he y hlt x hx => h.earlier e he y hlt x (hlinks y x hx)

theorem head_lt (h : a.OpenAt stack) : ∀ p ∈ stack.head?, p < a.nodes.size := by
  intro p hp
  cases stack with
  | nil => cases hp
  | cons e rest =>
    cases hp
    exact lt_size_of_isSome h.nested.1

theorem enter (h : a.OpenAt stack) (hbare : el.Bare) :
    (a.push stack.head? (.element el)).OpenAt (a.nodes.size :: stack) := by
  have hpush : (a.push stack.head? (.element el)).OpenAt stack :=
    h.push h.head_lt (fun _ heq => by cases heq; exact hbare)
  have hlinks (y x : NodeId) (hx : x ∈ (a.push stack.head? (.element el)).links y) :
      x < a.nodes.size := by
    obtain ⟨elx, hel, hx⟩ := exists_element_of_mem_links hx
    rcases element?_push_cases hel with ⟨-, heq⟩ | hel
    · cases heq
      rw [hbare.links] at hx
      cases hx
    · exact (h.fits y elx hel).inTree x hx
  constructor
  · exact hpush.toWellFormed
  · exact ⟨isSome_of_eq_some (element?_push_self ..), by rw [parent?_push, if_pos rfl],
      hpush.nested⟩
  · intro e he y hy
    rcases mem_cons.mp he with rfl | he
    · exact Nat.lt_irrefl _ (hlinks y _ hy)
    · exact hpush.unlinked e he y hy
  · intro e he y hlt x hx
    rcases mem_cons.mp he with rfl | he
    · exact hlinks y x hx
    · exact hpush.earlier e he y hlt x hx

theorem pushElements (h : a.OpenAt stack)
    (hpar : ∀ p ∈ parent, p < a.nodes.size) (hels : ∀ el ∈ els, el.Bare) :
    (a.pushElements parent els).OpenAt stack := by
  induction els generalizing a with
  | nil => exact h
  | cons el rest ih =>
    refine ih (h.push hpar ?_) (fun p hp => ?_) fun el' hel' => hels el' (by simp [hel'])
    · intro el' heq
      cases heq
      exact hels el (by simp)
    · rw [size_push]
      exact Nat.lt_succ_of_lt (hpar p hp)

end OpenAt

end Ast

end TemplateCompiler
