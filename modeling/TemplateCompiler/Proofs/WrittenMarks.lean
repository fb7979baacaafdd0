import TemplateCompiler.Proofs.MarkedTrees
import TemplateCompiler.Proofs.RawContent

/-!
# Static marks of what is left as written

An element that is left as written never changes, and nothing in it is computed. Still it is marked
as static only if all that counts for it is, and the elements inside it do not know that they are
left as written: a component, a slot or an outlet of components among them, an element of a
`template` in a loop or an input that has been expanded keeps the mark from it. Main result:
`pre_isStatic_iff`, which says exactly when the mark is there.
-/

namespace TemplateCompiler

open Markup List Option

variable {o : Options} {a : Ast} {x y : NodeId} {el : Element} {around : Around}

/-! ## The outermost directive -/

/-- A mark for being left as written comes from the directive, and there is none around it. -/
def Element.Outermost (o : Options) (around : Around) (el : Element) : Prop :=
  el.pre → around.written = false ∧ el.hasAttr (o.directive "pre")

/-- It depends on the mark and on the attributes as written. -/
theorem Element.Outermost.of_eq {el' : Element} (h : el.Outermost o around)
    (heq : (el'.pre, el'.source) = (el.pre, el.source)) : el'.Outermost o around := by
  obtain ⟨hpre, hsrc⟩ := Prod.mk.inj heq
  intro hmark
  unfold Element.hasAttr
  rw [hsrc]
  exact h (hpre ▸ hmark)

def NodeKind.Outermost (o : Options) (around : Around) : NodeKind → Prop
  | .element el => el.Outermost o around
  | _ => True

theorem outermost_tends (ho : o.UsesWeb) : Tends o (fun _ => True) (NodeKind.Outermost o)
    (Element.Outermost o) fun _ => True where
  opened b b' id _ _ := by
    refine (Builder.expanded_unmarked ho rfl).mono fun r ⟨hpre, others, heq, hothers⟩ => ?_
    refine ⟨fun hmark => ?_, others, by rw [heq], fun other hother hmark => ?_⟩
    · rw [hpre] at hmark
      cases hmark
    · rw [hothers other hother] at hmark
      cases hmark
  pre {around el} hnot h := by
    obtain ⟨pre, pending, -, hpre, heq⟩ := el.takePre_cases o.toSettings
    rw [heq]
    exact fun hmark => (hpre hmark).elim h fun hattr => ⟨hnot, hattr⟩
  asWritten {around el} _ h := ⟨h.of_eq (by rw [el.keepAttributes_eq]), trivial⟩
  structured {around el el'} id _ h _ heq := by
    obtain ⟨loop, once, pending, ifExp, conditions, isElse, elseIf, hval, -⟩ :=
      el.structural_cases o.toSettings id
    rw [← heq, hval]
    exact ⟨h.of_eq rfl, trivial⟩
  expanded _ h _ := ⟨h, trivial⟩
  process above _ _ h _ := (Element.process_spec ho above _).mono fun _ hel =>
    Element.Outermost.of_eq h (congrArg (fun f : Element.Frame => (f.pre, f.source)) hel.frame)
  children _ h := h.of_eq rfl
  branch _ h _ _ := Element.Outermost.of_eq h rfl
  slot _ h _ _ := Element.Outermost.of_eq h rfl
  unlinked _ _ := trivial
  text _ _ _ _ _ := trivial
  comment _ := trivial

/-! ## What counts for an element -/

namespace Ast

/-- The test for a node asks whether it never changes by itself, and the same of all that counts
for it. -/
theorem isStaticNode_iff_forall (h : a.Acyclic) :
    a.isStaticNode o (a.outline x) ↔
      ∀ y, Relation.ReflTransGen (a.CountsFor o) x y → a.isLocallyStatic o y := by
  constructor
  · intro hstat y hy
    refine ((isStaticNode_iff h y).mp ?_).1
    induction hy with
    | refl => exact hstat
    | tail _ hstep ih => exact ((isStaticNode_iff h _).mp ih).2 _ hstep
  · intro hall
    induction x using h.links.induction with
    | _ x ih =>
    refine (isStaticNode_iff h x).mpr ⟨hall x .refl, fun y hy => ?_⟩
    refine ih y ?_ fun z hz => hall z (hz.head hy)
    obtain ⟨el, hel, -, hy⟩ := hy
    rw [links_eq hel, Element.mem_links]
    exact hy.imp .inl id

theorem CountsFor.anyAbove (h : a.WellFormed) (hstep : a.CountsFor o x y) {q : Element → Bool}
    (hx : a.anyAbove q x) : a.anyAbove q y := by
  obtain ⟨el, hel, -, hy⟩ := hstep
  rw [h.parentsFirst.anyAbove_eq]
  rcases hy with hy | hy
  · rw [(h.fits x el hel).childParent y hy, anyAt, any_some, hx, Bool.or_true]
  · rw [(h.fits x el hel).branchParent y hy, ← h.parentsFirst.anyAbove_eq, hx]

end Ast

/-- What of an element inside the directive can keep a mark from the elements around it. -/
structure Element.StaysStatic (o : Options) (a : Ast) (x : NodeId) (el : Element) : Prop where
  reserved : o.tags.isReserved el.tag
  slot : el.tag ≠ "slot"
  component : el.tag ≠ "component"
  unlooped : a.inTemplateLoop x = false
  unbound : el.hasBindings = false
  noSlots : el.scopedSlots = []

theorem Element.LeftAlone.isLocallyStatic_iff {seen : List Signal} (h : el.LeftAlone o seen)
    (hpre : el.pre = false) :
    el.isLocallyStatic o a x ↔ el.StaysStatic o a x := by
  obtain ⟨attrs, unary, -, ⟨-, -, hbound⟩ | ⟨-, hraw⟩⟩ := h
  · constructor
    · intro hstat
      simp [Element.isLocallyStatic, hpre, hbound] at hstat
    · intro hstays
      rw [hstays.unbound] at hbound
      cases hbound
  · unfold Element.isLocallyStatic
    simp only [hpre, Bool.false_or, Bool.and_eq_true, and_assoc]
    obtain ⟨ns, forbidden, children, scopedSlots, heq⟩ := hraw
    generalize el.tag = tag, el.span = span at heq
    subst heq
    constructor
    · rintro ⟨-, -, -, -, -, hslot, hcomp, hres, hloop, -, -, -, -, hnone, -⟩
      exact ⟨hres, of_decide_eq_true hslot, of_decide_eq_true hcomp, by simpa using hloop, rfl,
        List.isEmpty_iff.mp hnone⟩
    · rintro ⟨hres, hslot, hcomp, hloop, -, hnone⟩
      exact ⟨rfl, rfl, rfl, rfl, rfl, decide_eq_true hslot, decide_eq_true hcomp, hres,
        by rw [hloop]; rfl, rfl, rfl, rfl, rfl, List.isEmpty_iff.mpr hnone, rfl, rfl, rfl, rfl, rfl,
        rfl, rfl, rfl, rfl, rfl⟩

/-- **When what is left as written is marked.** -/
theorem pre_isStatic_iff (o : Options) (ho : o.UsesWeb) (source : String) :
    ∃ tree, (parse o source).result = .ok tree ∧ ∀ root x el, tree.root = some root →
      Relation.ReflTransGen (tree.CountsFor o) root x → tree.element? x = some el →
      el.pre = true → el.conditions = [] →
      ((tree.optimize o).isStatic x = true ↔
        ∀ y inner, Relation.TransGen (tree.CountsFor o) x y → tree.element? y = some inner →
          inner.StaysStatic o tree y) := by
  have htended := Builder.signals_read_tended (raw_tends ho _) ho source fun _ h => h
  obtain ⟨b, hb, ⟨hraw, hmarked⟩, hkeeps, -⟩ :=
    (htended.and (Builder.signals_read_tended (outermost_tends ho) ho source
      fun _ _ => trivial)).and (Builder.signals_read ho source)
  have hwf := hkeeps.tree.toWellFormed
  refine ⟨b.ast, result_parse o source hb, fun root x el hroot hx hel hpre hchain => ?_⟩
  have hattr := (hmarked.nodes.element hel hpre).2
  have hinside {y : NodeId} (hy : Relation.TransGen (b.ast.CountsFor o) x y) :
      (b.ast.around o.toSettings y).written = true := by
    induction hy with
    | single hstep =>
      obtain ⟨el', hel', -, hy⟩ := hstep
      obtain rfl : el = el' := Option.some.inj (hel.symm.trans hel')
      rw [Element.branchNodes, hchain] at hy
      have hparent := (hwf.fits x el hel).childParent _ (hy.resolve_right fun h => by cases h)
      rw [hwf.parentsFirst.around_eq, hparent]
      show (b.ast.anyAt _ (some x)) = true
      rw [Ast.anyAt, any_some, hel, any_some, hattr, Bool.true_or]
    | tail _ hstep ih => exact hstep.anyAbove hwf ih
  rw [Ast.isStatic_optimize_eq hwf.acyclic hroot hx, Ast.isStaticNode_iff_forall hwf.acyclic]
  have hin {y : NodeId} (hy : Relation.TransGen (b.ast.CountsFor o) x y) :
      (b.ast.kind? y).isSome := by
    obtain ⟨z, -, el', hel', -, hy⟩ := Relation.TransGen.tail'_iff.mp hy
    exact Ast.kind?_isSome_iff.mpr ((hwf.fits z el' hel').inTree y
      (Element.mem_links.mpr (hy.imp .inl id)))
  -- inside the directive, texts and comments are static, and elements are left alone
  have hlocal {y : NodeId} (hy : Relation.TransGen (b.ast.CountsFor o) x y) :
      b.ast.isLocallyStatic o y = true ↔
        ∀ inner, b.ast.element? y = some inner → inner.StaysStatic o b.ast y := by
    have hwr := hinside hy
    obtain ⟨kind, hkind⟩ := isSome_iff_exists.mp (hin hy)
    rw [Ast.isLocallyStatic, hkind, Ast.element?, hkind]
    cases kind with
    | element inner =>
      have hleft : inner.LeftAlone o _ := hraw.nodes y _ hkind hwr
      have hunmarked : inner.pre = false := by
        refine (Bool.not_eq_true _).mp fun hmark => ?_
        have hout : inner.Outermost o _ := hmarked.nodes y _ hkind
        rw [(hout hmark).1] at hwr
        cases hwr
      simpa using hleft.isLocallyStatic_iff hunmarked
    | text content tokens isStatic =>
      have htokens : tokens = none := hraw.nodes y _ hkind hwr
      simp [htokens]
    | comment content isStatic => simp
  constructor
  · intro hall y inner hy
    exact (hlocal hy).mp (hall y hy.to_reflTransGen) inner
  · intro hall y hy
    rcases Relation.reflTransGen_iff_eq_or_transGen.mp hy with rfl | hy
    · rw [Ast.isLocallyStatic, Ast.element?_eq_some_iff.mp hel]
      simp [Element.isLocallyStatic, hpre]
    · exact (hlocal hy).mpr fun inner => hall y inner hy

/-- A component inside keeps the mark from the element that is left as written. -/
theorem pre_isStatic_iff_component : Web.options.UsesWeb ∧ ∃ tree el,
      (parse Web.options "<p r-pre><my-comp></my-comp></p>").result = .ok tree ∧
        tree.root = some 0 ∧ tree.element? 0 = some el ∧ el.pre = true ∧ el.conditions = [] ∧
        (tree.optimize Web.options).isStatic 0 = false := by
  obtain ⟨tree, htree, hall⟩ := pre_isStatic_iff Web.options Web.usesWeb_options
    "<p r-pre><my-comp></my-comp></p>"
  have hcheck := check_ok htree (fun tree => tree.root == some 0 &&
    ((tree.element? 0).any fun el => el.pre && el.conditions.isEmpty &&
      el.isTransparent Web.options && el.children.contains 1) &&
    (tree.element? 1).any fun el => !Web.options.tags.isReserved el.tag) (by decide +kernel)
  simp only [Bool.and_eq_true, Option.any_eq_true, beq_iff_eq, List.isEmpty_iff,
    List.contains_iff_mem, Bool.not_eq_true'] at hcheck
  obtain ⟨⟨hroot, el, hel, ⟨⟨hpre, hchain⟩, htransp⟩, hmem⟩, comp, hcomp, hforeign⟩ := hcheck
  refine ⟨Web.usesWeb_options, tree, el, htree, hroot, hel, hpre, hchain, ?_⟩
  refine (Bool.not_eq_true _).mp fun hstat => ?_
  have hstays := (hall 0 0 el hroot .refl hel hpre hchain).mp hstat 1 comp
    (.single ⟨el, hel, htransp, .inl hmem⟩) hcomp
  rw [hstays.reserved] at hforeign
  cases hforeign

end TemplateCompiler
