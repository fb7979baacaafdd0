import Mathlib.Data.Finset.Card
import Mathlib.Logic.Relation
import TemplateCompiler.Proofs.WellFormed
import TemplateCompiler.Template.Outline

/-!
# Outlines of well-formed trees

An outline is cut off at a depth that is only a number. If links never lead back, then a way down
has no more nodes than the tree, so the cut is never met: the outline of an element is made of the
outlines of the nodes that it links to (`outline_eq`). In a well-formed tree links lead to later
nodes, and statements about all nodes below a node go by induction on how many nodes come after it.
-/

namespace TemplateCompiler.Ast

open List

variable {a : Ast} {id x : NodeId} {el : Element}

/-- The node `x` is `id` or stands below it: links lead from one to the other. -/
def Below (a : Ast) : NodeId → NodeId → Prop := Relation.ReflTransGen fun i x => x ∈ a.links i

theorem WellFormed.le_of_below (h : a.WellFormed) (hx : a.Below id x) : id ≤ x := by
  induction hx with
  | refl => exact Nat.le_refl _
  | tail _ hlink ih => exact Nat.le_trans ih (Nat.le_of_lt (h.lt_of_mem_links hlink).1)

theorem WellFormed.not_below_link (h : a.WellFormed) (hx : x ∈ a.links id) : ¬ a.Below x id :=
  fun hbelow => Nat.not_le_of_lt (h.lt_of_mem_links hx).1 (h.le_of_below hbelow)

theorem WellFormed.below_apart (h : a.WellFormed) {c d y : NodeId} (hc : c ∈ a.links id)
    (hd : d ∈ a.links id) (hne : c ≠ d) (hy : a.Below c y) : ¬ a.Below d y := by
  intro hy'
  -- going up from `y` leaves no choice, so one of the two is below the other
  have hunique : Relator.RightUnique fun x i => x ∈ a.links i :=
    fun x i j hi hj => h.owner x i j hi hj
  have hnested {c d : NodeId} (hc : c ∈ a.links id) (hd : d ∈ a.links id) (hne : c ≠ d)
      (hbelow : a.Below c d) : False := by
    rcases Relation.ReflTransGen.cases_tail hbelow with heq | ⟨i, hi, hlink⟩
    · exact hne heq.symm
    · rw [h.owner d i id hlink hd] at hi
      exact h.not_below_link hc hi
  rcases Relation.ReflTransGen.total_of_right_unique hunique
    (Relation.reflTransGen_swap.mp hy) (Relation.reflTransGen_swap.mp hy') with hcd | hdc
  · exact hnested hd hc (Ne.symm hne) (Relation.reflTransGen_swap.mp hcd)
  · exact hnested hc hd hne (Relation.reflTransGen_swap.mp hdc)

theorem outlineUpTo_of_not_element (h : a.element? id = none) (depth : Nat) :
    a.outlineUpTo depth id = .node id [] [] [] := by
  cases depth with
  | zero => rfl
  | succ depth => rw [outlineUpTo, h]

theorem outline_of_not_element (h : a.element? id = none) : a.outline id = .node id [] [] [] :=
  outlineUpTo_of_not_element h _

/-- What holds of a node whenever it holds of all nodes that it links to holds of every node. -/
theorem WellFormed.induct (h : a.WellFormed) {motive : NodeId → Prop}
    (step : ∀ id, (∀ x ∈ a.links id, motive x) → motive id) (id : NodeId) : motive id := by
  have hstrong (n : Nat) : ∀ id, a.nodes.size ≤ n + id → motive id := by
    induction n with
    | zero =>
      intro id hid
      refine step id fun x hx => ?_
      have := h.lt_of_mem_links hx
      have hid' : a.nodes.size ≤ (id : Nat) := by rwa [Nat.zero_add] at hid
      exact absurd (Nat.lt_trans this.1 this.2) (Nat.not_lt.mpr hid')
    | succ n ih =>
      intro id hid
      refine step id fun x hx => ih x ?_
      have hgt : (id : Nat) < x := (h.lt_of_mem_links hx).1
      omega
  exact hstrong a.nodes.size id (Nat.le_add_right _ _)

/-! ## Trees without cycles -/

/-- Links never lead back to where they come from, and a chain starts with the element that it is
stored in. This is all of the shape of a tree that unfolding it needs. -/
structure Acyclic (a : Ast) : Prop where
  links : WellFounded fun x i => x ∈ a.links i
  chain : ∀ i el, a.element? i = some el → ∀ c ∈ el.conditions.head?, c.block = i

theorem WellFormed.acyclic (h : a.WellFormed) : a.Acyclic where
  links := ⟨h.induct fun id ih => .intro id ih⟩
  chain i el hel c hc := by
    rw [(h.fits i el hel).chain] at hc
    obtain ⟨exp, -, rfl⟩ := Option.map_eq_some_iff.mp hc
    rfl

namespace Acyclic

section

variable (h : a.Acyclic)

include h

theorem not_below_link (hx : x ∈ a.links id) : ¬ a.Below x id := by
  intro hbelow
  have hcycle : Relation.TransGen (fun x i => x ∈ a.links i) id id :=
    Relation.TransGen.tail' (Relation.reflTransGen_swap.mp hbelow) hx
  exact h.links.transGen.asymmetric _ _ hcycle hcycle

/-- Every node has a height below the number of nodes, and links lead to lower nodes. -/
theorem exists_height : ∃ height : NodeId → Nat, (∀ i, height i ≤ a.nodes.size) ∧
    ∀ i el, a.element? i = some el → 0 < height i ∧ ∀ x ∈ el.links, height x < height i := by
  classical
  -- the height of a node is how many nodes are below it
  refine ⟨fun i => ((Finset.range a.nodes.size).filter (a.Below i)).card, fun i => ?_,
    fun i el hel => ⟨Finset.card_pos.mpr ⟨i, ?_⟩, fun x hx => Finset.card_lt_card ?_⟩⟩
  · exact (Finset.card_filter_le _ _).trans_eq (Finset.card_range _)
  · exact Finset.mem_filter.mpr ⟨Finset.mem_range.mpr (lt_size_of_element? hel), .refl⟩
  · have hlink : x ∈ a.links i := by rwa [links_eq hel]
    refine Finset.ssubset_iff_of_subset (fun y hy => ?_) |>.mpr ⟨i, ?_, fun hi => ?_⟩
    · obtain ⟨hy, hbelow⟩ := Finset.mem_filter.mp hy
      exact Finset.mem_filter.mpr ⟨hy, .head hlink hbelow⟩
    · exact Finset.mem_filter.mpr ⟨Finset.mem_range.mpr (lt_size_of_element? hel), .refl⟩
    · exact h.not_below_link hlink (Finset.mem_filter.mp hi).2

/-- Only the element itself stands in its chain without being linked. -/
theorem block_eq_or_mem (hel : a.element? id = some el) {c : Condition}
    (hc : c ∈ el.conditions) : c.block = id ∨ c.block ∈ el.branchNodes := by
  have hchain := h.chain id el hel
  unfold Element.branchNodes
  cases hconds : el.conditions with
  | nil => rw [hconds] at hc; cases hc
  | cons first rest =>
    rw [hconds] at hc hchain
    rcases mem_cons.mp hc with rfl | hc
    · exact .inl (hchain c rfl)
    · exact .inr (mem_map_of_mem hc)

/-- The depth at which an outline is cut off does not matter if it is not below the height. -/
theorem outlineUpTo_congr {height : NodeId → Nat}
    (hheight : ∀ i el, a.element? i = some el → 0 < height i ∧ ∀ x ∈ el.links, height x < height i)
    {depth depth' : Nat} (hdepth : height id ≤ depth) (hdepth' : height id ≤ depth') :
    a.outlineUpTo depth id = a.outlineUpTo depth' id := by
  induction depth generalizing depth' id with
  | zero =>
    have hnone : a.element? id = none := by
      cases hel : a.element? id with
      | none => rfl
      | some el => exact absurd (hheight id el hel).1 (Nat.not_lt.mpr hdepth)
    rw [outlineUpTo_of_not_element hnone, outlineUpTo_of_not_element hnone]
  | succ depth ih =>
    cases hel : a.element? id with
    | none => rw [outlineUpTo_of_not_element hel, outlineUpTo_of_not_element hel]
    | some el =>
      obtain ⟨hpos, hlower⟩ := hheight id el hel
      obtain ⟨depth', rfl⟩ : ∃ n, depth' = n + 1 := ⟨depth' - 1, by omega⟩
      have hlink (x : Nat) (hx : x ∈ el.links) :
          a.outlineUpTo depth x = a.outlineUpTo depth' x := by
        have := hlower x hx
        exact ih (by omega) (by omega)
      simp only [outlineUpTo, hel]
      congr 1
      · exact map_congr_left fun x hx => hlink x (Element.child_link hx)
      · exact map_congr_left fun slot hslot =>
          hlink slot.2 (Element.slot_link (mem_map_of_mem hslot))
      · refine map_congr_left fun c hc => ?_
        rcases h.block_eq_or_mem hel hc with hself | hbr
        · rw [if_pos hself, if_pos hself]
        · rw [hlink c.block (Element.branch_link hbr)]

theorem outline_eq (hel : a.element? id = some el) :
    a.outline id = .node id (el.children.map a.outline)
      (el.scopedSlots.map fun slot => a.outline slot.2)
      (el.conditions.map fun c =>
        if c.block = id then .node id [] [] [] else a.outline c.block) := by
  obtain ⟨height, hsize, hheight⟩ := h.exists_height
  have hstep : a.outline id = a.outlineUpTo (a.nodes.size + 1) id :=
    h.outlineUpTo_congr hheight (hsize id) (Nat.le_succ_of_le (hsize id))
  rw [hstep, outlineUpTo, hel]
  rfl

/-- The branches after the first, unfolded, are the outlines of the branches that are linked. -/
theorem tail_branches (hel : a.element? id = some el) : (el.conditions.map fun c =>
      if c.block = id then Outline.node id [] [] [] else a.outline c.block).tail =
      el.branchNodes.map a.outline := by
  rw [Element.branchNodes, ← map_tail, map_map]
  refine map_congr_left fun c hc => if_neg fun hself => ?_
  have hlink : c.block ∈ el.links :=
    Element.branch_link (mem_map_of_mem hc)
  rw [← links_eq hel, hself] at hlink
  exact h.not_below_link hlink .refl

end

end Acyclic

end TemplateCompiler.Ast
