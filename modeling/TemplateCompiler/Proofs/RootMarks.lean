import TemplateCompiler.Proofs.Ancestry
import TemplateCompiler.Proofs.Marking

/-!
# What root marks know about loops

The walk that looks for static roots also writes down which elements stand in a loop. It goes down
children and conditional branches, stops at static roots, and never enters a scoped slot. For an
element that it reaches, what it writes down is right: `Ast.inLoop`, which looks at the elements
above (`rootMarks_spec`). An element that it does not reach keeps the mark it had, so it is never
marked as being in a loop. It reaches every element that has neither a static root nor a scoped slot
at or above it (`visits_of_below`), and every static root (`Walked.visits_root`).
-/

namespace TemplateCompiler.Ast

open List

variable {l : Bool} {m : NodeId × Bool × Bool} {id : NodeId}

variable {a a' : Ast} {o : Options} {id x y p : NodeId} {el : Element}

def HasLoop (a : Ast) (x : NodeId) : Prop := ∃ el, a.element? x = some el ∧ el.loop.isSome

def inLoop (a : Ast) (x : NodeId) : Bool := (a.ancestorElements x).any (·.loop.isSome)

theorem inLoop_iff : a.inLoop x ↔ ∃ y ∈ a.ancestors x, a.HasLoop y := by
  unfold inLoop ancestorElements HasLoop
  rw [List.any_eq_true]
  constructor
  · rintro ⟨el, hmem, hloop⟩
    obtain ⟨y, hy, hel⟩ := mem_filterMap.mp hmem
    exact ⟨y, hy, el, hel, hloop⟩
  · rintro ⟨y, hy, el, hel, hloop⟩
    exact ⟨el, mem_filterMap.mpr ⟨y, hy, hel⟩, hloop⟩

theorem inLoop_child (h : a.WellFormed) (hel : a.element? id = some el) (hx : x ∈ el.children) :
    a.inLoop x = (a.inLoop id || el.loop.isSome) := by
  have hpar := (h.fits id el hel).childParent x hx
  unfold inLoop ancestorElements
  rw [ancestors_of_parent h hpar, filterMap_cons, hel, any_cons, Bool.or_comm]

theorem inLoop_branch (h : a.WellFormed) (hel : a.element? id = some el)
    (hx : x ∈ el.branchNodes) : a.inLoop x = a.inLoop id := by
  have hpar := (h.fits id el hel).branchParent x hx
  unfold inLoop ancestorElements
  rw [ancestors_of_parent_eq h hpar]

/-! ## Ways to be linked -/

def IsSlot (a : Ast) (x : NodeId) : Prop := ∃ p el, a.element? p = some el ∧ x ∈ el.slotNodes

/-- A node that is a branch of the chain that another element starts. -/
def IsBranch (a : Ast) (x : NodeId) : Prop := ∃ p el, a.element? p = some el ∧ x ∈ el.branchNodes

section

variable (h : a.WellFormed) (hel : a.element? id = some el)

include h hel

theorem owner_eq {el' : Element}
    (hx : x ∈ el.links) (hel' : a.element? p = some el') (hx' : x ∈ el'.links) : el = el' := by
  have hid : id = p := h.owner x id p (by rwa [links_eq hel]) (by rwa [links_eq hel'])
  rw [hid, hel'] at hel
  exact (Option.some.inj hel).symm

theorem not_isSlot (hx : x ∈ el.children ∨ x ∈ el.branchNodes) : ¬ a.IsSlot x := by
  rintro ⟨p, el', hel', hslot⟩
  have hlinks : x ∈ el.links := by
    rcases hx with hx | hx
    · exact Element.child_link hx
    · exact Element.branch_link hx
  have heq := owner_eq h hel hlinks hel' (Element.slot_link hslot)
  subst heq
  obtain ⟨hfront, -, hapart⟩ := nodup_append.mp (h.fits id el hel).linkedOnce
  rcases hx with hx | hx
  · exact (nodup_append.mp hfront).2.2 x hx x hslot rfl
  · exact hapart x (mem_append_right _ hslot) x hx rfl

theorem not_isBranch (hx : x ∈ el.children ∨ x ∈ el.slotNodes) : ¬ a.IsBranch x := by
  rintro ⟨p, el', hel', hbr⟩
  have heq := owner_eq h hel (Element.mem_links.mpr (.inl hx)) hel' (Element.branch_link hbr)
  subst heq
  obtain ⟨-, -, hapart⟩ := nodup_append.mp (h.fits id el hel).linkedOnce
  exact hapart x (mem_append.mpr hx) x hbr rfl

end

/-! ## The walk -/

theorem mem_rootMarksAll {outlines : List Outline} :
    m ∈ a.rootMarksAll l outlines ↔ ∃ t ∈ outlines, m ∈ a.rootMarks l t := by
  induction outlines with
  | nil => simp [rootMarksAll]
  | cons first rest ih => simp [rootMarksAll, ih]

theorem mem_rootMarksAll_outline {nodes : List NodeId} (hloop : ∀ c ∈ nodes, a.inLoop c = l) :
    m ∈ a.rootMarksAll l (nodes.map a.outline) ↔
      ∃ c ∈ nodes, m ∈ a.rootMarks (a.inLoop c) (a.outline c) := by
  rw [mem_rootMarksAll]
  constructor
  · rintro ⟨t, ht, hm⟩
    obtain ⟨c, hc, rfl⟩ := List.mem_map.mp ht
    exact ⟨c, hc, by rwa [hloop c hc]⟩
  · rintro ⟨c, hc, hm⟩
    exact ⟨a.outline c, List.mem_map_of_mem hc, by rwa [← hloop c hc]⟩

theorem rootMarksAfterFirst_eq (outlines : List Outline) :
    a.rootMarksAfterFirst l outlines = a.rootMarksAll l outlines.tail := by
  cases outlines with
  | nil => rw [rootMarksAfterFirst, tail_nil, rootMarksAll]
  | cons first rest => rw [rootMarksAfterFirst, tail_cons]

/-- One step of the walk. It hands on to children and branches whether they stand in a loop. -/
theorem mem_rootMarks (h : a.WellFormed) (hel : a.element? id = some el) :
    m ∈ a.rootMarks (a.inLoop id) (a.outline id) ↔
      m = (id, a.isStaticRoot (a.inLoop id) el, a.inLoop id) ∨
        a.isStaticRoot (a.inLoop id) el = false ∧ ∃ c, (c ∈ el.children ∨ c ∈ el.branchNodes) ∧
            m ∈ a.rootMarks (a.inLoop c) (a.outline c) := by
  rw [h.acyclic.outline_eq hel, rootMarks, hel]
  rw [mem_cons, rootMarksAfterFirst_eq, h.acyclic.tail_branches hel]
  cases a.isStaticRoot (a.inLoop id) el with
  | true => simp
  | false =>
    rw [if_neg (by decide), mem_append, mem_rootMarksAll_outline fun c hc => inLoop_child h hel hc,
      mem_rootMarksAll_outline fun c hc => inLoop_branch h hel hc]
    simp only [or_and_right, exists_or, true_and]

def rootMark (a : Ast) (x : NodeId) : Bool × Bool :=
  ((a.element? x).any (a.isStaticRoot (a.inLoop x)), a.inLoop x)

/-- What the walk writes from a node on it writes for that node, or from a child or a branch on. -/
theorem rootMarks_cases (h : a.WellFormed) (hmem : m ∈ a.rootMarks (a.inLoop id) (a.outline id)) :
    ∃ el, a.element? id = some el ∧ (m = (id, a.rootMark id) ∨ (a.rootMark id).1 = false ∧
      ∃ c ∈ a.links id, (c ∈ el.children ∨ c ∈ el.branchNodes) ∧
        m ∈ a.rootMarks (a.inLoop c) (a.outline c)) := by
  cases hel : a.element? id with
  | none =>
    rw [outline_of_not_element hel, rootMarks, hel] at hmem
    cases hmem
  | some el =>
    refine ⟨el, rfl, ?_⟩
    rw [rootMark, hel, links_eq hel]
    rcases (mem_rootMarks h hel).mp hmem with rfl | ⟨hroot, c, hc, hmem⟩
    · exact .inl rfl
    · exact .inr ⟨hroot, c, Element.mem_links.mpr (hc.imp_left .inl), hc, hmem⟩

/-- What the walk writes is right wherever it comes, which is below where it starts, and it comes to
no scoped slot. -/
theorem rootMarks_spec (h : a.WellFormed) (hmem : m ∈ a.rootMarks (a.inLoop id) (a.outline id)) :
    m.2 = a.rootMark m.1 ∧ a.Below id m.1 ∧ (¬ a.IsSlot id → ¬ a.IsSlot m.1) := by
  induction id using h.induct with
  | step id ih =>
    obtain ⟨el, hel, rfl | ⟨-, c, hlink, hc, hmem⟩⟩ := rootMarks_cases h hmem
    · exact ⟨rfl, .refl, fun hslot => hslot⟩
    · obtain ⟨hmark, hbelow, hslot⟩ := ih c hlink hmem
      exact ⟨hmark, .head hlink hbelow, fun _ => hslot (not_isSlot h hel hc)⟩

def Visits (a : Ast) (id x : NodeId) : Prop :=
  ∃ m ∈ a.rootMarks (a.inLoop id) (a.outline id), m.1 = x

/-- The walk comes to an element unless a static root or a scoped slot is in the way. -/
theorem visits_of_below (h : a.WellFormed) (hbelow : a.Below id x) (hx : a.element? x = some el)
    (hslot : ∀ r, a.Below r x → ¬ a.IsSlot r)
    (hroot : ∀ r, a.Below r x → a.Visits id r → (a.rootMark r).1 = false) : a.Visits id x := by
  induction hbelow using Relation.ReflTransGen.head_induction_on with
  | refl => exact ⟨_, (mem_rootMarks h hx).mpr (.inl rfl), rfl⟩
  | @head id c hlink hbelow ih =>
    obtain ⟨p, hp, hc⟩ := exists_element_of_mem_links hlink
    have hself : a.isStaticRoot (a.inLoop id) p = false := by
      have hmark := hroot id (.head hlink hbelow) ⟨_, (mem_rootMarks h hp).mpr (.inl rfl), rfl⟩
      rwa [rootMark, hp] at hmark
    have hwalked : c ∈ p.children ∨ c ∈ p.branchNodes := by
      rcases Element.mem_links.mp hc with (hc | hc) | hc
      · exact .inl hc
      · exact absurd ⟨id, p, hp, hc⟩ (hslot c hbelow)
      · exact .inr hc
    -- what the walk comes to from `c` it comes to from `id`
    have hstep {m : NodeId × Bool × Bool} (hm : m ∈ a.rootMarks (a.inLoop c) (a.outline c)) :
        m ∈ a.rootMarks (a.inLoop id) (a.outline id) :=
      (mem_rootMarks h hp).mpr (.inr ⟨hself, c, hwalked, hm⟩)
    obtain ⟨m, hm, hmx⟩ := ih fun r hr ⟨m, hm, hmr⟩ => hroot r hr ⟨m, hstep hm, hmr⟩
    exact ⟨m, hstep hm, hmx⟩

/-! ## The marked tree -/

theorem isSlot_of_unmarked (h : a'.unmarked = a.unmarked) (hx : a.IsSlot x) : a'.IsSlot x := by
  obtain ⟨p, el, hel, hmem⟩ := hx
  obtain ⟨el', hel', heq⟩ := element?_of_unmarked h.symm hel
  exact ⟨p, el', hel', by rw [heq] at hmem; exact hmem⟩

theorem inLoop_unmarked : a.unmarked.inLoop x = a.inLoop x := by
  unfold inLoop ancestorElements
  rw [ancestors_unmarked, funext a.element?_unmarked, ← map_filterMap, List.any_map]
  rfl

theorem inLoop_of_unmarked (h : a'.unmarked = a.unmarked) : a'.inLoop x = a.inLoop x := by
  rw [← inLoop_unmarked, h, inLoop_unmarked]

def IsRoot (a : Ast) (x : NodeId) : Prop := ∃ el, a.element? x = some el ∧ el.marks.root

/-- What marking makes of a tree, seen from `a₁`, the tree with its static marks that the walk goes
over. -/
structure Walked (a a₁ a₂ : Ast) (root : NodeId) : Prop where
  wellFormed : a₁.WellFormed
  same : a₂.unmarked = a₁.unmarked
  static : ∀ x el, a₂.element? x = some el →
    ∃ el₁, a₁.element? x = some el₁ ∧ el₁.marks.isStatic = el.marks.isStatic
  notSlot : ¬ a₁.IsSlot root
  marked : ∀ x el, a₂.element? x = some el → a₁.Visits root x →
    (el.marks.root, el.marks.inLoop) = a₁.rootMark x
  unmarked : ∀ x el, a₂.element? x = some el → ¬ a₁.Visits root x → ∃ el₀, a.element? x = some el₀ ∧
      (el₀.marks.root, el₀.marks.inLoop) = (el.marks.root, el.marks.inLoop)

theorem walked_optimize (h : a.WellFormed) {root : NodeId} (hroot : a.root = some root)
    (hpar : a.parent? root = none) :
    Walked a (a.withStaticMarks o (a.outline root)) (a.optimize o) root := by
  generalize ha₁ : a.withStaticMarks o (a.outline root) = a₁
  have hsame : a₁.unmarked = a.unmarked := by rw [← ha₁, unmarked_withStaticMarks]
  have hwf := h.of_unmarked hsame
  have hnoParent : a₁.parent? root = none := by rw [parent?_of_unmarked hsame, hpar]
  have hloop : a₁.inLoop root = false := by
    rw [inLoop, ancestorElements, ancestors_of_no_parent hnoParent]
    rfl
  have hslot : ¬ a₁.IsSlot root := by
    rintro ⟨p, el, hp, hslot⟩
    rw [(hwf.fits p el hp).slotParent root hslot] at hnoParent
    cases hnoParent
  have hoptimize : a.optimize o =
      a₁.writeRoots (a₁.rootMarks (a₁.inLoop root) (a₁.outline root)) := by
    rw [optimize, hroot]
    dsimp only
    rw [ha₁, withRootMarks, outline_of_unmarked hsame, hloop]
  have hright (m : NodeId × Bool × Bool)
      (hm : m ∈ a₁.rootMarks (a₁.inLoop root) (a₁.outline root)) : m.2 = a₁.rootMark m.1 :=
    (rootMarks_spec hwf hm).1
  refine ⟨hwf, by rw [unmarked_optimize, hsame], fun x el hel => ?_, hslot,
    fun x el hel hvisited => ?_, fun x el hel hunvisited => ?_⟩
  · rw [hoptimize] at hel
    exact isStatic_writeRoots _ a₁ hel
  · obtain ⟨m, hm, rfl⟩ := hvisited
    have hlast := lastMark_of_mem hm fun v hv => (hright _ hv).trans (hright m hm).symm
    rw [hoptimize, element?_writeRoots, Option.map_eq_some_iff, hlast] at hel
    obtain ⟨el₁, -, rfl⟩ := hel
    exact hright m hm
  · have hlast : lastMark x (a₁.rootMarks (a₁.inLoop root) (a₁.outline root)) = none :=
      Option.eq_none_iff_forall_ne_some.mpr fun v hv => hunvisited ⟨_, mem_of_lastMark hv, rfl⟩
    rw [hoptimize, element?_writeRoots, Option.map_eq_some_iff, hlast, ← ha₁,
      withStaticMarks] at hel
    obtain ⟨el₁, hel₁, rfl⟩ := hel
    rw [element?_writeStatic, Option.map_eq_some_iff] at hel₁
    obtain ⟨el₀, hel₀, rfl⟩ := hel₁
    exact ⟨el₀, hel₀, by cases lastMark x (a.staticMarks o (a.outline root)) <;> rfl⟩

variable {a₁ a₂ : Ast} {root : NodeId}

section

variable (h : Walked a a₁ a₂ root)
  (hinit : ∀ id el, a.element? id = some el → el.marks.root = false)

include h hinit

theorem Walked.visits_root
    (hel : a₂.element? x = some el) (hmark : el.marks.root) : a₁.Visits root x := by
  refine Classical.byContradiction fun hunvisited => ?_
  obtain ⟨el₀, hel₀, hkept⟩ := h.unmarked x el hel hunvisited
  have hroot := (Prod.mk.inj hkept).1
  rw [hinit x el₀ hel₀, hmark] at hroot
  cases hroot

theorem Walked.not_isSlot (hx : a₂.IsRoot x) : ¬ a₂.IsSlot x := by
  intro hslot
  obtain ⟨el, hel, hmark⟩ := hx
  obtain ⟨m, hm, rfl⟩ := h.visits_root hinit hel hmark
  exact (rootMarks_spec h.wellFormed hm).2.2 h.notSlot (isSlot_of_unmarked h.same.symm hslot)

theorem Walked.isStatic_root (hel : a₂.element? x = some el) (hmark : el.marks.root) :
    el.marks.isStatic ∧ (a₂.inLoop x → el.once) := by
  obtain ⟨el₁, hel₁, hstat⟩ := h.static x el hel
  have hroot : a₁.isStaticRoot (a₁.inLoop x) el₁ := by
    have hmarks := (Prod.mk.inj (h.marked x el hel (h.visits_root hinit hel hmark))).1
    rw [hmark, hel₁] at hmarks
    exact hmarks.symm
  obtain ⟨el₁', hel₁', heq⟩ := element?_of_unmarked h.same hel
  obtain rfl : el₁ = el₁' := Option.some.inj (hel₁.symm.trans hel₁')
  simp only [isStaticRoot, Bool.and_eq_true, and_assoc] at hroot
  refine ⟨hstat ▸ hroot.1, fun hloop => ?_⟩
  rw [inLoop_of_unmarked h.same] at hloop
  rw [heq]
  show el₁.once
  simpa [hloop] using hroot.2.2.2

end

/-- An element that has neither a scoped slot nor a static root at or above it is marked as being in
a loop if it is in one. -/
theorem Walked.inLoop_eq (h : Walked a a₁ a₂ root) (hel : a₂.element? x = some el)
    (hbelow : a₂.Below root x) (hopen : ∀ r, a₂.Below r x → ¬ (a₂.IsSlot r ∨ a₂.IsRoot r)) :
    el.marks.inLoop = a₂.inLoop x := by
  rw [below_of_unmarked h.same] at hbelow hopen
  obtain ⟨el₁, hel₁, -⟩ := element?_of_unmarked h.same hel
  have hslot (r : NodeId) (hr : a₁.Below r x) : ¬ a₁.IsSlot r := fun hslot =>
    hopen r hr (.inl (isSlot_of_unmarked h.same hslot))
  have hroot (r : NodeId) (hr : a₁.Below r x) (hvisited : a₁.Visits root r) :
      (a₁.rootMark r).1 = false := by
    cases hel₁ : a₁.element? r with
    | none =>
      rw [rootMark, hel₁]
      rfl
    | some el₁ =>
      obtain ⟨el₂, hel₂, -⟩ := element?_of_unmarked h.same.symm hel₁
      rw [← h.marked r el₂ hel₂ hvisited]
      cases hmark : el₂.marks.root with
      | false => rfl
      | true => exact absurd (.inr ⟨el₂, hel₂, hmark⟩) (hopen r hr)
  have hvisited := visits_of_below h.wellFormed hbelow hel₁ hslot hroot
  rw [inLoop_of_unmarked h.same]
  exact (Prod.mk.inj (h.marked x el hel hvisited)).2

end TemplateCompiler.Ast
