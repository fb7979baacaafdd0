import TemplateCompiler.Proofs.Places
import TemplateCompiler.Proofs.StaticContent
import TemplateCompiler.Proofs.Tending

/-!
# What is marked as being in a loop

Generated code says of two things whether they are in a loop: of the use of a hoisted body, and of
the reference of an element. The first mark is set when static roots are looked for (`LoopsKnown`),
the second when the element is processed (`Ast.RefsMarked`), and both go by the loops on and above
an element in the tree. What is around a place in the code is found by following the generator
through the tree (`generate_places`). `loopMarkers_iff` puts the two together for every template.

They differ in three ways. The later branches of a chain are written inside the loop of the element
that starts it, which is not above them. The content of scoped slots is not visited when static
roots are looked for, so there nothing is marked, and what is rendered once is hoisted out of the
loops above. An input that is expanded into branches is so even where it is left as written, and
what is left as written is hoisted as if it had no loops and no references.
-/

namespace TemplateCompiler

/-! ## What references know about loops

An element with a reference remembers whether it stands in a loop, because such a reference names a
list of nodes. This is written down once, when the element is processed. No other edit changes it
(`RefMarked.invariant`), and neither does what the builder does to the tree afterwards
(`refs_tends`). -/

namespace Element

variable {s : Settings} {o : Options} {el el' : Element} {around : Bool}

def refView (el : Element) : Option LoopHead × Option String × Bool :=
  (el.loop, el.ref, el.refInLoop)

def RefMarked (around : Bool) (el : Element) : Prop :=
  el.ref.isSome → el.refInLoop = (el.loop.isSome || around)

theorem RefMarked.ofView (h : el.RefMarked around) (hview : el'.refView = el.refView) :
    el'.RefMarked around := by
  simp only [refView, Prod.mk.injEq] at hview
  obtain ⟨hloop, href, hin⟩ := hview
  unfold RefMarked
  rw [hloop, href, hin]
  exact h

theorem RefMarked.ofNone (h : el.ref = none) : el.RefMarked around := by
  intro hsome
  rw [h] at hsome
  cases hsome

/-- The one edit that writes a reference down looks at the loop of the element and at the elements
around it. -/
theorem RefMarked.invariant (s : Settings) (above : List Element) (loop : Option LoopHead) :
    Invariant s above (fun _ => True) fun el =>
      el.RefMarked (above.any (·.loop.isSome)) ∧ el.loop = loop := by
  refine .ofKept (fun h hedit => ?_) fun h _ _ => h
  cases hedit with
  | ref => exact ⟨fun _ => rfl, h.2⟩
  | _ => exact h

theorem process_refMarked (ho : o.UsesWeb) (above : List Element)
    (h : el.RefMarked (above.any (·.loop.isSome))) :
    (el.process o above).Ensures (RefMarked (above.any (·.loop.isSome))) :=
  ((RefMarked.invariant o.toSettings above el.loop).process ho ⟨h, rfl⟩ fun _ h => h).mono
    fun _ h => h.1

end Element

def NodeKind.RefMarked (around : Around) : NodeKind → Prop
  | .element el => el.RefMarked around.looped
  | _ => True

/-- References are marked when an element is processed, and the structural directives come before
they are taken. -/
theorem refs_tends {o : Options} (ho : o.UsesWeb) : Tends o (fun _ => True) NodeKind.RefMarked
      (fun around el => el.RefMarked around.looped ∧ (el.processed ∨ el.ref = none))
      fun _ => True where
  opened {_ _ _ _ around} _ b' id _ haround := by
    have hlooped : (b'.ast.ancestorElements id).any (·.loop.isSome) = around.looped :=
      congrArg Around.looped haround
    refine (Builder.expanded_each
      (P := fun el => el.RefMarked around.looped ∧ (el.processed ∨ el.ref = none))
      ho b' id ⟨.ofNone rfl, .inr rfl⟩ (fun _ _ _ _ _ h => ⟨h.1.ofView rfl, h.2⟩)
      fun _ _ _ _ _ _ => ?_).mono fun r ⟨hel, others, heq, hoth⟩ =>
        ⟨hel, others, congrArg Builder.ast heq, fun other h => (hoth other h).1⟩
    rw [← hlooped]
    exact ((Element.process_refMarked ho _ (.ofNone rfl)).and (Element.process_spec ho _ _)).mono
      fun clone hclone => ⟨hclone.1, .inl hclone.2.processed⟩
  pre {_ el} _ h := by
    rw [Element.takePre_eq]
    exact ⟨h.1.ofView rfl, h.2⟩
  asWritten {_ el} _ h := by
    rw [Element.keepAttributes_eq]
    exact ⟨h.1.ofView rfl, trivial⟩
  structured {_ el _} id _ h hproc heq := by
    obtain ⟨_, _, _, _, _, _, _, hcases, -⟩ := el.structural_cases o.toSettings id
    rw [← heq, hcases]
    rw [hproc] at h
    exact ⟨.ofNone (h.2.resolve_left nofun), trivial⟩
  expanded _ h _ := ⟨h.1, trivial⟩
  process {around el} above hlooped _ (h : el.RefMarked around.looped) _ := by
    show (el.process o above).Ensures (Element.RefMarked around.looped)
    rw [← hlooped] at h ⊢
    exact Element.process_refMarked ho above h
  children _ h := h.ofView rfl
  branch _ h _ _ := h.ofView rfl
  slot _ h _ _ := h.ofView rfl
  unlinked _ _ := trivial
  text _ _ _ _ _ := trivial
  comment _ := trivial

/-- Every reference of the tree knows the loops on and above its element. -/
def Ast.RefsMarked (a : Ast) : Prop :=
  ∀ x el, a.element? x = some el → el.RefMarked (a.inLoop x)

/-- In the tree of a template every reference knows the loops on and above its element. -/
theorem Builder.signals_read_refsMarked {o : Options} (ho : o.UsesWeb) (source : String) :
    (Builder.signals o source (Markup.read o.tags o.comments source) {}).Ensures fun b =>
      b.ast.RefsMarked :=
  (signals_read_tended (refs_tends ho) ho source fun _ _ => trivial).mono
    fun _ h _ _ hel => h.nodes.element hel

open Markup List Bool

variable {o : Options} {a : Ast} {root x : NodeId}

/-! ## What marks know about loops -/

namespace Ast

variable {a a₁ a₂ : Ast} {id y z r : NodeId} {el : Element}

def InSlot (a : Ast) (x : NodeId) : Prop := ∃ s, a.IsSlot s ∧ a.Below s x

/-- Going up from a node leaves no choice. -/
theorem WellFormed.below_total (h : a.WellFormed) (hy : a.Below y x) (hz : a.Below z x) :
    a.Below y z ∨ a.Below z y := by
  have hunique : Relator.RightUnique fun x i => x ∈ a.links i :=
    fun x i j hi hj => h.owner x i j hi hj
  rcases Relation.ReflTransGen.total_of_right_unique hunique
    (Relation.reflTransGen_swap.mp hy) (Relation.reflTransGen_swap.mp hz) with hyz | hzy
  · exact .inr (Relation.reflTransGen_swap.mp hyz)
  · exact .inl (Relation.reflTransGen_swap.mp hzy)

theorem WellFormed.below_root (h : a.WellFormed) (hunlinked : ∀ i, root ∉ a.links i)
    (hx : a.Below root x) (hz : a.Below z x) : a.Below root z := by
  rcases h.below_total hx hz with hroot | hroot
  · exact hroot
  · rcases Relation.ReflTransGen.cases_tail hroot with heq | ⟨i, -, hlink⟩
    · rw [heq]
      exact .refl
    · exact absurd hlink (hunlinked i)

/-- On its way to an element the walk has come to all that is above it, and found neither a scoped
slot nor a static root. -/
theorem Visits.above (h : a.WellFormed) {id : NodeId} (hslot : ¬ a.IsSlot id) (hx : a.Visits id x) :
    a.Below id x ∧ ∀ z, a.Below id z → a.Below z x →
      a.Visits id z ∧ ¬ a.IsSlot z ∧ (z ≠ x → (a.rootMark z).1 = false) := by
  induction id using h.induct with
  | step id ih =>
    obtain ⟨m, hm, hmx⟩ := hx
    obtain ⟨el, hel, hwalk⟩ := rootMarks_cases h hm
    have hself : a.Visits id id := ⟨_, (mem_rootMarks h hel).mpr (.inl rfl), rfl⟩
    rcases hwalk with rfl | ⟨hroot, c, hlink, hc, hm⟩
    · obtain rfl : id = x := hmx
      refine ⟨.refl, fun z hz hz' => ?_⟩
      obtain rfl : id = z := Nat.le_antisymm (h.le_of_below hz) (h.le_of_below hz')
      exact ⟨hself, hslot, fun hne => absurd rfl hne⟩
    · obtain ⟨hcx, habove⟩ := ih c hlink (not_isSlot h hel hc) ⟨m, hm, hmx⟩
      refine ⟨.head hlink hcx, fun z hz hzx => ?_⟩
      rcases Relation.ReflTransGen.cases_head hz with rfl | ⟨d, hd, hdz⟩
      · exact ⟨hself, hslot, fun _ => hroot⟩
      · -- only one of the links leads to the element
        have hcd : c = d := Classical.byContradiction fun hne =>
          h.below_apart hlink hd hne hcx (hdz.trans hzx)
        subst hcd
        obtain ⟨⟨m', hm', hz'⟩, hrest⟩ := habove z hdz hzx
        rw [rootMark, hel] at hroot
        exact ⟨⟨m', (mem_rootMarks h hel).mpr (.inr ⟨hroot, c, hc, hm'⟩), hz'⟩, hrest⟩

/-- What the marks of a tree have to do with the loops above its elements. -/
structure LoopsKnown (a : Ast) (root : NodeId) : Prop where
  /-- An element that is marked as being in a loop is in one, and the marks are right for all that
  leads to it. -/
  marked : ∀ x el, a.Below root x → a.element? x = some el → el.marks.inLoop →
    a.inLoop x ∧ ¬ a.InSlot x ∧ (∀ r, a.IsRoot r → a.Below r x → r = x) ∧
      ∀ z elz, a.Below z x → a.element? z = some elz → elz.marks.inLoop = a.inLoop z
  /-- An element in a loop is marked as being in one unless the walk did not come to it. -/
  unmarked : ∀ x el, a.Below root x → a.element? x = some el → el.marks.inLoop = false →
    a.inLoop x → a.InSlot x ∨ ∃ r, r ≠ x ∧ a.IsRoot r ∧ a.Below r x

theorem Walked.isRoot_iff (h : Walked a a₁ a₂ root) (hx : a₁.Visits root x) :
    a₂.IsRoot x ↔ (a₁.rootMark x).1 := by
  constructor
  · rintro ⟨el, hel, hmark⟩
    rw [← h.marked x el hel hx]
    exact hmark
  · intro hmark
    cases hel₁ : a₁.element? x with
    | none =>
      rw [rootMark, hel₁] at hmark
      cases hmark
    | some el₁ =>
      obtain ⟨el, hel, -⟩ := element?_of_unmarked h.same.symm hel₁
      exact ⟨el, hel, (congrArg (·.1) (h.marked x el hel hx)).trans hmark⟩

theorem Walked.visits_inLoop (h : Walked a a₁ a₂ root)
    (hinit : ∀ id el, a.element? id = some el → el.marks = {})
    (hel : a₂.element? x = some el) (hmark : el.marks.inLoop) : a₁.Visits root x := by
  refine Classical.byContradiction fun hunvisited => ?_
  obtain ⟨el₀, hel₀, hkept⟩ := h.unmarked x el hel hunvisited
  have hloop := (Prod.mk.inj hkept).2
  rw [hinit x el₀ hel₀, hmark] at hloop
  cases hloop

theorem Walked.loopsKnown (h : Walked a a₁ a₂ root)
    (hinit : ∀ id el, a.element? id = some el → el.marks = {})
    (hunlinked : ∀ i, root ∉ a₂.links i) : a₂.LoopsKnown root := by
  have hwf := h.wellFormed.of_unmarked h.same
  have hbelow (x y : NodeId) : a₂.Below x y ↔ a₁.Below x y := by rw [below_of_unmarked h.same]
  have hslot (x : NodeId) : a₂.IsSlot x ↔ a₁.IsSlot x :=
    ⟨isSlot_of_unmarked h.same.symm, isSlot_of_unmarked h.same⟩
  constructor
  · intro x el hx hel hmark
    have hvisited := h.visits_inLoop hinit hel hmark
    have habove {z : NodeId} (hz : a₂.Below z x) :=
      (hvisited.above h.wellFormed h.notSlot).2 z
        ((hbelow root z).mp (hwf.below_root hunlinked hx hz)) ((hbelow z x).mp hz)
    have hright {z : NodeId} {elz : Element} (hz : a₂.Below z x)
        (helz : a₂.element? z = some elz) : elz.marks.inLoop = a₂.inLoop z := by
      rw [inLoop_of_unmarked h.same]
      exact congrArg (·.2) (h.marked z elz helz (habove hz).1)
    refine ⟨(hright .refl hel).symm.trans hmark, ?_, fun r hr hrx => ?_,
      fun z elz hz helz => hright hz helz⟩
    · rintro ⟨s, hs, hsx⟩
      exact (habove hsx).2.1 ((hslot s).mp hs)
    · refine Classical.byContradiction fun hne => ?_
      have hunmarked := (habove hrx).2.2 hne
      rw [(h.isRoot_iff (habove hrx).1).mp hr] at hunmarked
      cases hunmarked
  · intro x el hx hel hmark hloop
    have hunvisited : ¬ a₁.Visits root x := by
      intro hvisited
      have hright := congrArg (·.2) (h.marked x el hel hvisited)
      rw [inLoop_of_unmarked h.same] at hloop
      rw [hmark] at hright
      exact false_ne_true (hright.trans hloop)
    -- the walk comes to every element that has nothing in its way
    refine Classical.byContradiction fun hfree => hunvisited ?_
    obtain ⟨hfreeSlot, hfreeRoot⟩ := not_or.mp hfree
    obtain ⟨el₁, hel₁, -⟩ := element?_of_unmarked h.same hel
    refine visits_of_below h.wellFormed ((hbelow root x).mp hx) hel₁ (fun r hr hs => ?_)
      fun r hr hvisited => ?_
    · exact hfreeSlot ⟨r, (hslot r).mpr hs, (hbelow r x).mpr hr⟩
    · refine eq_false_iff.mpr fun hmark => hfreeRoot ⟨r, ?_, (h.isRoot_iff hvisited).mpr hmark,
        (hbelow r x).mpr hr⟩
      rintro rfl
      exact hunvisited hvisited

/-! ## Which loops around a place count -/

/-- An element that is rendered once in the content of a scoped slot, or a node below one. -/
def OnceInSlot (a : Ast) (x : NodeId) : Prop :=
  ∃ z el, a.Below z x ∧ a.element? z = some el ∧ el.once ∧ a.InSlot z

def HeadsChain (a : Ast) (y x : NodeId) : Prop :=
  ∃ el b, a.element? y = some el ∧ b ∈ el.branchNodes ∧ a.Below b x

theorem mem_ancestors_of_below (hwf : a.WellFormed) (hy : y ∈ a.ancestors z)
    (hx : a.Below z x) : y ∈ a.ancestors x := by
  induction hx with
  | refl => exact hy
  | @tail p c _ hlink ih =>
    obtain ⟨el, hel, hc⟩ := exists_element_of_mem_links hlink
    rcases Element.mem_links.mp hc with hc | hc
    · rw [ancestors_of_parent hwf ((hwf.fits p el hel).innerParent hc)]
      exact mem_cons_of_mem _ ih
    · rwa [ancestors_of_parent_eq hwf ((hwf.fits p el hel).branchParent c hc)]

/-- Links lead to a node from itself, from the elements above it, and from those that start a chain
around it. -/
theorem below_cases (hwf : a.WellFormed) (h : a.Below y x) :
    y ∈ x :: a.ancestors x ∨ a.HeadsChain y x := by
  rcases Relation.ReflTransGen.cases_head h with rfl | ⟨c, hlink, hcx⟩
  · exact .inl mem_cons_self
  · obtain ⟨el, hel, hc⟩ := exists_element_of_mem_links hlink
    rcases Element.mem_links.mp hc with hc | hc
    · refine .inl (mem_cons_of_mem _ (mem_ancestors_of_below hwf ?_ hcx))
      rw [ancestors_of_parent hwf ((hwf.fits y el hel).innerParent hc)]
      exact mem_cons_self
    · exact .inr ⟨el, c, hel, hc, hcx⟩

/-- What is below a static root: an element there is left as written, or has no loop, no condition
and no reference. -/
def RootsPlain (a : Ast) : Prop :=
  ∀ r x el, a.IsRoot r → a.Below r x → a.element? x = some el →
    a.AsWritten r x ∨ (el.loop = none ∧ el.ifExp = none ∧ el.ref = none)

theorem AsWritten.below (h : a.AsWritten r y) (hx : a.Below y x) : a.AsWritten r x := by
  obtain ⟨w, el, hw, hwy, hel, hpre⟩ := h
  exact ⟨w, el, hw, hwy.trans hx, hel, hpre⟩

variable {loops : List NodeId}

/-- The use of a hoisted body is marked exactly if the loop of an element above is around it, except
in the content of scoped slots, where it never is. -/
theorem Outside.marked_iff (hout : a.Outside x el.marks.inLoop loops) (hknown : a.LoopsKnown root)
    (hplain : a.RootsPlain) (hbelow : a.Below root x) (hel : a.element? x = some el)
    (hwritten : ∀ r, a.IsRoot r → a.AsWritten r x → r = x) :
    el.marks.inLoop ↔ ¬ a.InSlot x ∧ ∃ y ∈ loops, y ∈ a.ancestors x := by
  constructor
  · intro hin
    obtain ⟨hloop, hslot, hroots, hright⟩ := hknown.marked x el hbelow hel hin
    refine ⟨hslot, ?_⟩
    obtain ⟨y, hy, hyloop⟩ := inLoop_iff.mp hloop
    rcases hout.above hin y hy hyloop with hmem | ⟨z, hne, hzx, elz, helz, hcut⟩
    · exact ⟨y, hmem, hy⟩
    · -- all that leads to a marked element is marked right, so nothing was hoisted out of the loop
      rcases hcut with hroot | ⟨-, hmarkz, hcut⟩
      · exact absurd (hroots z ⟨elz, helz, hroot⟩ hzx) hne
      · rcases hcut with hs | hy
        · exact absurd ⟨z, hs, hzx⟩ hslot
        · rw [hright z elz hzx helz, inLoop_iff.mpr ⟨y, hy, hyloop⟩] at hmarkz
          cases hmarkz
  · rintro ⟨hslot, y, hmem, hy⟩
    obtain ⟨hyloop, hyx⟩ := hout.listed y hmem
    cases hmark : el.marks.inLoop with
    | true => rfl
    | false =>
      exfalso
      rcases hknown.unmarked x el hbelow hel hmark (inLoop_iff.mpr ⟨y, hy, hyloop⟩) with
        hs | ⟨r, hne, hr, hrx⟩
      · exact hslot hs
      -- `x` is in the body of a static root, so `y` is as well, and there are no loops
      obtain ⟨elr, helr, hroot⟩ := hr
      have hif : elr.ifExp = none := by
        rcases hplain r r elr ⟨elr, helr, hroot⟩ .refl helr with hw | hnone
        · exact absurd (hwritten r ⟨elr, helr, hroot⟩ (hw.below hrx)) hne
        · exact hnone.2.1
      have hry := hout.roots r ⟨elr, helr, hroot, hif⟩ hrx hne y hmem
      obtain ⟨ely, hely, hsome⟩ := hyloop
      rcases hplain r y ely ⟨elr, helr, hroot⟩ hry hely with hw | hnone
      · exact hne (hwritten r ⟨elr, helr, hroot⟩ (hw.below hyx))
      · rw [hnone.1] at hsome
        cases hsome

/-- A loop on or above an element with a reference is around it, unless the element is left as
written or hoisted out of the content of a scoped slot. -/
theorem Allows.element_iff {text : String} (hwf : a.WellFormed) (hunlinked : ∀ i, root ∉ a.links i)
    (hknown : a.LoopsKnown root) (hplain : a.RootsPlain) (h : a.Allows root (.element x text loops))
    (hel : a.element? x = some el) (href : el.ref.isSome)
    (hwritten : ∀ r, a.IsRoot r → ¬ a.AsWritten r x) (honce : ¬ a.OnceInSlot x) :
    (∃ y ∈ x :: a.ancestors x, a.HasLoop y) ↔ ∃ y ∈ loops, y ∈ x :: a.ancestors x := by
  obtain ⟨hbelow, hin, -⟩ := h
  have hfree {r : NodeId} (hr : a.IsRoot r) (hrx : a.Below r x) : False := by
    rcases hplain r x el hr hrx hel with hw | hnone
    · exact hwritten r hr hw
    · rw [hnone.2.2] at href
      cases href
  constructor
  · rintro ⟨y, hy, hyloop⟩
    have haround : y ∈ loops ∨ ∃ z, a.Below z x ∧ a.Cuts z y := by
      rcases mem_cons.mp hy with rfl | hy
      · exact hin.ownLoop hyloop
      · exact hin.above y hy hyloop
    rcases haround with hmem | ⟨z, hzx, elz, helz, hcut⟩
    · exact ⟨y, hmem, hy⟩
    · exfalso
      rcases hcut with hroot | ⟨honcez, hmarkz, hcut⟩
      · exact hfree ⟨elz, helz, hroot⟩ hzx
      · have hslot : a.InSlot z := by
          rcases hcut with hs | hy
          · exact ⟨z, hs, .refl⟩
          · rcases hknown.unmarked z elz (hwf.below_root hunlinked hbelow hzx) helz hmarkz
              (inLoop_iff.mpr ⟨y, hy, hyloop⟩) with hs | ⟨r, -, hr, hrz⟩
            · exact hs
            · exact (hfree hr (hrz.trans hzx)).elim
        exact honce ⟨z, elz, hzx, helz, honcez, hslot⟩
  · rintro ⟨y, hmem, hy⟩
    exact ⟨y, hy, (hin.listed y hmem).1⟩

/-- The loops around a place are those of its element, of the elements above, and of the elements
that start a chain it is in. -/
theorem Allows.listed {p : Place} (hwf : a.WellFormed) (h : a.Allows root p) (hy : y ∈ p.loops) :
    a.HasLoop y ∧ (y ∈ p.node :: a.ancestors p.node ∨ a.HeadsChain y p.node) := by
  have hlisted : a.HasLoop y ∧ a.Below y p.node := by
    cases p with
    | element x text loops => exact h.2.1.listed y hy
    | hoisted x text loops =>
      obtain ⟨-, el, index, -, -, hout⟩ := h
      exact hout.listed y hy
  exact ⟨hlisted.1, below_cases hwf hlisted.2⟩

theorem RefsMarked.of_unmarked {a' : Ast} (h : a.RefsMarked) (hsame : a'.unmarked = a.unmarked) :
    a'.RefsMarked := by
  intro x el hel
  obtain ⟨el₀, hel₀, heq⟩ := element?_of_unmarked hsame hel
  rw [inLoop_of_unmarked hsame, heq]
  exact (h x el₀ hel₀).ofView rfl

/-- A reference says that it is in a loop exactly if one is on or above its element. -/
theorem RefsMarked.refInLoop_iff (h : a.RefsMarked) (hel : a.element? x = some el)
    (href : el.ref.isSome) : el.refInLoop ↔ ∃ y ∈ x :: a.ancestors x, a.HasLoop y := by
  have hown : a.HasLoop x ↔ el.loop.isSome := by
    constructor
    · rintro ⟨el', hel', hloop⟩
      cases hel.symm.trans hel'
      exact hloop
    · exact fun hloop => ⟨el, hel, hloop⟩
  rw [h x el hel href, or_eq_true, inLoop_iff, ← hown]
  simp only [mem_cons, or_and_right, exists_or, exists_eq_left]

theorem rootsPlain_optimize {signals : List Signal} (hwf : a.WellFormed)
    (hwritten : ∀ id el, a.element? id = some el → el.Written o.toSettings signals)
    (hstat : ∀ r el, (a.optimize o).element? r = some el → el.marks.root →
      el.marks.isStatic) : (a.optimize o).RootsPlain := by
  rintro r x el ⟨elr, helr, hroot⟩ hrx hel
  refine (isLiteral_of_isStatic hwf hwritten helr (hstat r elr helr hroot) hrx).imp_right
    fun hlit => ?_
  have hel := hlit.element el hel
  exact ⟨hel.loop, hel.ifExp, hel.ref⟩

end Ast

/-! ## Templates -/

/-- What is marked as being in a loop in the code of a template. The use of a hoisted body is marked
exactly if the loop of an element above is around it, but never in the content of a scoped slot. A
reference is marked exactly if there is a loop on or above its element. That is the case exactly if
such a loop is around its code, except in what a scoped slot renders once. Both leave out what a
static root holds as written. Besides these there can only be the loop of an element that starts a
chain around a place in the chain, and no mark says so. -/
theorem loopMarkers_iff (o : Options) (ho : o.UsesWeb) (source : String) :
    ∃ tree bodies, (optimizedTree o source).result = .ok tree ∧
      (generate o tree).result = .ok bodies ∧
      (∀ x text loops, .hoisted x text loops ∈ bodies.places → ∃ (index : Nat) (marked : Bool),
        text = "_m(" ++ index.repr ++ (if marked then ",true" else "") ++ ")" ∧
        ((∀ r, tree.IsRoot r → tree.AsWritten r x → r = x) →
          (marked = true ↔ ¬ tree.InSlot x ∧ ∃ y ∈ loops, y ∈ tree.ancestors x))) ∧
      (∀ x text loops el ref, .element x text loops ∈ bodies.places →
        tree.element? x = some el → el.ref = some ref → ∃ marked : Bool,
          (tree.HasData x el → el.CallsWith ref marked text) ∧
          (marked = true ↔ ∃ y ∈ x :: tree.ancestors x, tree.HasLoop y) ∧
          ((∀ r, tree.IsRoot r → ¬ tree.AsWritten r x) → ¬ tree.OnceInSlot x →
            (marked = true ↔ ∃ y ∈ loops, y ∈ x :: tree.ancestors x))) ∧
      (∀ p ∈ bodies.places, ∀ y ∈ p.loops, tree.HasLoop y ∧
        (y ∈ p.node :: tree.ancestors p.node ∨ tree.HeadsChain y p.node)) := by
  obtain ⟨b, hb, ⟨hkeeps, -⟩, hmarked⟩ :=
    (Builder.signals_read ho source).and (Builder.signals_read_refsMarked ho source)
  have hwf := hkeeps.tree.toWellFormed
  have htree := result_optimizedTree o source hb
  have hroot := Ast.root_optimize o b.ast
  cases hr : b.ast.root with
  | none =>
    have hempty (p : Place) : p ∉ Bodies.places ⟨.text "_c(\"div\")", []⟩ := fun hp => by cases hp
    refine ⟨_, ⟨.text "_c(\"div\")", []⟩, htree, ?_, fun _ _ _ hmem => absurd hmem (hempty _),
      fun _ _ _ _ _ hmem => absurd hmem (hempty _), fun p hp => absurd hp (hempty p)⟩
    rw [generate, hroot, hr]
    rfl
  | some root =>
    obtain rfl : root = 0 := hkeeps.tree.rootFirst root hr
    have hinit (id : NodeId) (el : Element) (hel : b.ast.element? id = some el) : el.marks = {} :=
      (hkeeps.tree.origin id el hel).marks
    have hsame := Ast.unmarked_optimize o b.ast
    have hwf' := hwf.of_unmarked hsame
    have hunlinked (i : NodeId) : 0 ∉ (b.ast.optimize o).links i := fun hlink =>
      absurd (hwf'.lt_of_mem_links hlink).1 (Nat.not_lt_zero i)
    have hwalked := Ast.walked_optimize (o := o) hwf hr hwf.parent?_zero
    have hinitRoot (id : NodeId) (el : Element) (hel : b.ast.element? id = some el) :
        el.marks.root = false := by rw [hinit id el hel]
    have hknown := hwalked.loopsKnown hinit hunlinked
    have hplain := Ast.rootsPlain_optimize hwf hkeeps.tree.origin fun _ _ hel hroot =>
      (hwalked.isStatic_root hinitRoot hel hroot).1
    obtain ⟨bodies, hbodies, hplaces⟩ := generate_places ho.modules hwf'
      (fun y hy => hwalked.not_isSlot hinitRoot hy) (hroot.trans hr) hwf'.parent?_zero hunlinked
    refine ⟨_, bodies, htree, hbodies, fun x text loops hmem => ?_,
      fun x text loops el ref hmem hel href => ?_, fun p hp y hy => (hplaces p hp).listed hwf' hy⟩
    · obtain ⟨hbelow, el, index, hel, htext, hout⟩ := hplaces _ hmem
      exact ⟨index, el.marks.inLoop, htext, hout.marked_iff hknown hplain hbelow hel⟩
    · have hsome : el.ref.isSome := by rw [href]; rfl
      have hin := (hmarked.of_unmarked hsame).refInLoop_iff hel hsome
      have hallowed := hplaces _ hmem
      exact ⟨el.refInLoop, hallowed.2.2 el ref hel href, hin, fun hwritten honce => hin.trans
        (hallowed.element_iff hwf' hunlinked hknown hplain hel hsome hwritten honce)⟩

/-- A reference on the other branch of a chain: the loop of the first branch is around it, and it
does not say so. -/
theorem loopMarkers_iff_branch : Web.options.UsesWeb ∧ ∃ tree bodies el, (optimizedTree Web.options
        "<div><p r-for=\"i in l\" r-if=\"i\">a</p><b r-else ref=\"x\">y</b></div>").result =
        .ok tree ∧
      (generate Web.options tree).result = .ok bodies ∧
      .element 3 "_c('b',\x7bref:\"x\"\x7d,\"y\")" [1] ∈ bodies.places ∧
      tree.element? 3 = some el ∧ tree.HeadsChain 1 3 ∧
      el.CallsWith "\"x\"" false "_c('b',\x7bref:\"x\"\x7d,\"y\")" := by
  obtain ⟨tree, bodies, htree, hbodies, -, hrefs, hloops⟩ := loopMarkers_iff Web.options
    Web.usesWeb_options "<div><p r-for=\"i in l\" r-if=\"i\">a</p><b r-else ref=\"x\">y</b></div>"
  have hcheck := check_ok htree (fun tree => tree.ancestors 3 = [0] &&
    ((tree.element? 0).any fun el => el.loop.isNone) &&
    ((tree.element? 3).any fun el =>
      el.loop.isNone && el.tag = "b" && !el.plain && el.ref = some "\"x\"") &&
    ((generate Web.options tree).result.toOption.any fun bodies =>
      .element 3 "_c('b',\x7bref:\"x\"\x7d,\"y\")" [1] ∈ bodies.places)) (by decide +kernel)
  simp only [Except.toOption, hbodies, Option.any_some, and_eq_true, decide_eq_true_iff,
    not_eq_true', Option.any_eq_true, Option.isNone_iff_eq_none] at hcheck
  obtain ⟨⟨⟨hancestors, root, hroot, hrootLoop⟩, el, hel, ⟨⟨hloop, htag⟩, hplain⟩, href⟩, hp⟩ :=
    hcheck
  obtain ⟨marked, hcalls, hmarked, -⟩ := hrefs 3 _ [1] el _ hp hel href
  -- the loop is on no element above
  have hunmarked : marked = false := by
    refine eq_false_iff.mpr fun hmark => ?_
    obtain ⟨y, hy, ely, hely, hsome⟩ := hmarked.mp hmark
    rw [hancestors] at hy
    rcases mem_cons.mp hy with rfl | hy
    · cases hel.symm.trans hely
      rw [hloop] at hsome
      cases hsome
    · cases mem_singleton.mp hy
      cases hroot.symm.trans hely
      rw [hrootLoop] at hsome
      cases hsome
  have hchain : tree.HeadsChain 1 3 := by
    refine (hloops _ hp 1 mem_cons_self).2.resolve_left fun habove => ?_
    change 1 ∈ 3 :: tree.ancestors 3 at habove
    rw [hancestors] at habove
    exact absurd habove (by decide)
  have hdata : tree.HasData 3 el := by
    refine ⟨⟨fun h => ?_, ?_⟩, fun h => ?_⟩
    · exact absurd (htag.symm.trans h.1) (by decide)
    · rw [htag]
      decide
    · exact false_ne_true (hplain.symm.trans h.1)
  exact ⟨Web.usesWeb_options, tree, bodies, el, htree, hbodies, hp, hel, hchain,
    hunmarked ▸ hcalls hdata⟩

end TemplateCompiler
