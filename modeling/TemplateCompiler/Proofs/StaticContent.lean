import TemplateCompiler.Compile
import TemplateCompiler.Proofs.Building

/-!
# What is marked as static is literal

Unless the markup asks for content to be left as written, everything below an element that is marked
as static, whichever way it is linked, renders as literals of the markup
(`static_content_isLiteral`). So hoisting such an element out of the render function freezes nothing
that could change.

The test for static elements looks at what processing has left of an element. That this is enough
comes from two sides: what an element keeps of its start tag (`Element.From`), and the chain of
conditions, which an element without a condition does not have.
-/

namespace TemplateCompiler

open Markup

def Markup.Signal.attrs : Signal → List Attr
  | .event (.opened _ attrs _ _) => attrs
  | _ => []

/-- An element that renders as literals: nothing about it is computed, and its attributes are those
of a start tag among the signals. -/
structure Element.IsLiteral (signals : List Signal) (el : Element) : Prop where
  ifExp : el.ifExp = none
  elseIf : el.elseIf = none
  isElse : el.isElse = false
  conditions : el.conditions = []
  loop : el.loop = none
  directives : el.directives = []
  listeners : el.listeners = []
  props : el.props = []
  key : el.key = none
  ref : el.ref = none
  slotTarget : el.slotTarget = none
  slotScope : el.slotScope = none
  scopedSlots : el.scopedSlots = []
  component : el.component = none
  classBinding : el.classBinding = none
  styleBinding : el.styleBinding = none
  boundObject : el.boundObject = none
  boundListeners : el.boundListeners = none
  attrs : ∃ attrs unary, Signal.event (.opened el.tag attrs unary el.span) ∈ signals ∧
    ∀ b ∈ el.attrs, ∃ attr ∈ attrs, b = { name := attr.name, value := Text.literal attr.value }

namespace Ast

variable {o : Options} {a a' : Ast} {id x : NodeId} {el : Element} {signals : List Signal}

/-- A node that renders as literals. -/
structure IsLiteral (signals : List Signal) (a : Ast) (x : NodeId) : Prop where
  text : ∀ content tokens isStatic, a.kind? x = some (.text content tokens isStatic) → tokens = none
  element : ∀ el, a.element? x = some el → el.IsLiteral signals

/-- A node that is below `id`, at or inside of an element that is left as written. -/
def AsWritten (a : Ast) (id x : NodeId) : Prop :=
  ∃ y el, a.Below id y ∧ a.Below y x ∧ a.element? y = some el ∧ el.pre

/-- An element that is static by itself, and not because it is left as written, is literal. -/
theorem isLiteral_of_isLocallyStatic (hfits : a.Fits id el)
    (hwritten : el.Written o.toSettings signals) (hpre : el.pre = false)
    (h : el.isLocallyStatic o a id) : el.IsLiteral signals := by
  unfold Element.isLocallyStatic at h
  simp only [hpre, Bool.false_or, Bool.and_eq_true, Option.isNone_iff_eq_none, List.isEmpty_iff,
    Bool.not_eq_true', and_assoc] at h
  obtain ⟨hbindings, hif, helseIf, helse, hloop, -, -, -, -, hkey, href, htgt, hscope, hslots,
    hcomp, -, hdirs, hlsn, hprops, hclass, hstyle, hobj, hbound, -⟩ := h
  obtain ⟨tag, attrs, unary, span, hmem, hfrom⟩ := hwritten
  refine ⟨hif, helseIf, helse, ?_, hloop, hdirs, hlsn, hprops, hkey, href, htgt,
    hscope, hslots, hcomp, hclass, hstyle, hobj, hbound, attrs, unary, ?_, ?_⟩
  · have hchain := hfits.chain
    rw [hif] at hchain
    exact List.head?_eq_none_iff.mp hchain
  · rw [hfrom.tag, hfrom.span]
    exact hmem
  · exact hfrom.literal hbindings htgt

theorem isReserved_of_isLocallyStatic (hpre : el.pre = false)
    (h : el.isLocallyStatic o a id) : o.tags.isReserved el.tag := by
  unfold Element.isLocallyStatic at h
  simp only [hpre, Bool.false_or, Bool.and_eq_true, and_assoc] at h
  obtain ⟨-, -, -, -, -, -, -, hreserved, -⟩ := h
  exact hreserved

theorem isStaticNode_of_mem_links (h : a.WellFormed) (hel : a.element? id = some el)
    (hpre : el.pre = false) (hliteral : el.IsLiteral signals)
    (hstatic : a.isStaticNode o (a.outline id)) (hx : x ∈ a.links id) :
    a.isStaticNode o (a.outline x) := by
  rw [isStaticNode_outline h.acyclic hel, Bool.and_eq_true] at hstatic
  obtain ⟨hlocal, hcont⟩ := hstatic
  have htransp : el.isTransparent o := by
    simp [Element.isTransparent, isReserved_of_isLocallyStatic hpre hlocal]
  rw [htransp, Bool.not_true, Bool.false_or, Bool.and_eq_true, List.all_map,
    List.all_eq_true] at hcont
  rw [links_eq hel, Element.mem_links, Element.slotNodes, hliteral.scopedSlots,
    Element.branchNodes, hliteral.conditions] at hx
  rcases hx with (hx | hx) | hx
  · exact hcont.1 x hx
  · cases hx
  · cases hx

section

variable (h : a.WellFormed)
  (hwritten : ∀ id el, a.element? id = some el → el.Written o.toSettings signals)
  (hstatic : a.isStaticNode o (a.outline id)) (hbelow : a.Below id x)

include h hwritten hstatic hbelow

/-- All nodes below a static one are static, except inside of elements that are left as written. -/
theorem isStaticNode_of_below : a.AsWritten id x ∨ a.isStaticNode o (a.outline x) := by
  induction hbelow with
  | refl => exact .inr hstatic
  | @tail y x hbelow hlink ih =>
    rcases ih with ⟨z, el, hidz, hzy, hel, hpre⟩ | ih
    · exact .inl ⟨z, el, hidz, hzy.tail hlink, hel, hpre⟩
    · obtain ⟨el, hel, -⟩ := exists_element_of_mem_links hlink
      cases hpre : el.pre with
      | true => exact .inl ⟨y, el, hbelow, .single hlink, hel, hpre⟩
      | false =>
        have hlocal : el.isLocallyStatic o a y := by
          rw [isStaticNode_outline h.acyclic hel, Bool.and_eq_true] at ih
          exact ih.1
        have hliteral := isLiteral_of_isLocallyStatic (h.fits _ el hel) (hwritten _ el hel) hpre
          hlocal
        exact .inr (isStaticNode_of_mem_links h hel hpre hliteral ih hlink)

/-- Below a static element, a node is left as written or literal. -/
theorem isLiteral_of_below : a.AsWritten id x ∨ a.IsLiteral signals x := by
  by_cases hleft : a.AsWritten id x
  · exact .inl hleft
  have hx := (isStaticNode_of_below h hwritten hstatic hbelow).resolve_left hleft
  refine .inr ⟨fun content tokens isStatic hkind => ?_, fun el hel => ?_⟩
  · rw [isStaticNode_text hkind] at hx
    exact Option.isNone_iff_eq_none.mp hx
  · have hpre : el.pre = false := by
      cases hpre : el.pre with
      | false => rfl
      | true => exact absurd ⟨x, el, hbelow, .refl, hel, hpre⟩ hleft
    rw [isStaticNode_outline h.acyclic hel, Bool.and_eq_true] at hx
    exact isLiteral_of_isLocallyStatic (h.fits x el hel) (hwritten x el hel) hpre hx.1

end

/-! ## Marks do not matter -/

theorem AsWritten.of_unmarked (hx : a.AsWritten id x) (h : a'.unmarked = a.unmarked) :
    a'.AsWritten id x := by
  obtain ⟨y, el, hidy, hyx, hel, hpre⟩ := hx
  obtain ⟨el', hel', heq⟩ := element?_of_unmarked h.symm hel
  rw [heq] at hpre
  rw [AsWritten, below_of_unmarked h]
  exact ⟨y, el', hidy, hyx, hel', hpre⟩

theorem IsLiteral.of_unmarked (hx : a.IsLiteral signals x)
    (h : a'.unmarked = a.unmarked) : a'.IsLiteral signals x := by
  refine ⟨fun content tokens isStatic hkind => ?_, fun el hel => ?_⟩
  · obtain ⟨isStatic₀, hkind₀⟩ := text_of_unmarked h hkind
    exact hx.text content tokens isStatic₀ hkind₀
  · obtain ⟨el₀, hel₀, heq⟩ := element?_of_unmarked h hel
    rw [heq]
    exact { hx.element el₀ hel₀ with }

theorem isLiteral_of_isStatic (h : a.WellFormed)
    (hwritten : ∀ id el, a.element? id = some el → el.Written o.toSettings signals)
    (hel : (a.optimize o).element? id = some el) (hstatic : el.marks.isStatic)
    (hbelow : (a.optimize o).Below id x) :
    (a.optimize o).AsWritten id x ∨ (a.optimize o).IsLiteral signals x := by
  have hunm (id : NodeId) (el : Element) (hel : a.element? id = some el) :
      el.marks.isStatic = false := by rw [(hwritten id el hel).marks]
  have hsame := unmarked_optimize o a
  have hnode := isStaticNode_of_mark h hunm hel hstatic
  rw [below_of_unmarked hsame] at hbelow
  exact (isLiteral_of_below h hwritten hnode hbelow).imp (·.of_unmarked hsame) (·.of_unmarked hsame)

end Ast

theorem result_optimizedTree (o : Options) (source : String) {b : Builder}
    (h : (Builder.signals o source (read o.tags o.comments source) {}).result = .ok b) :
    (optimizedTree o source).result = .ok (b.ast.optimize o) := by
  rw [optimizedTree, Outcome.result_map, result_parse o source h]
  rfl

/-- Everything below an element that is marked as static is literal, in a template without content
that is left as written. -/
theorem static_content_isLiteral (o : Options) (ho : o.UsesWeb) (source : String)
    (hpre : ∀ signal ∈ read o.tags o.comments source, ∀ attr ∈ signal.attrs,
      attr.name ≠ o.directive "pre") :
    ∃ tree, (optimizedTree o source).result = .ok tree ∧
      ∀ id el, tree.element? id = some el → el.marks.isStatic = true →
        ∀ x, tree.Below id x → tree.IsLiteral (read o.tags o.comments source) x := by
  obtain ⟨b, hb, hkeeps, -⟩ := Builder.signals_read ho source
  have hwritten := hkeeps.tree.origin
  refine ⟨b.ast.optimize o, result_optimizedTree o source hb, fun id el hel hstatic x hbelow => ?_⟩
  have hwf := hkeeps.tree.toWellFormed
  refine (Ast.isLiteral_of_isStatic hwf hwritten hel hstatic hbelow).resolve_left fun hx => ?_
  -- an element that is left as written has the directive for that among its attributes
  obtain ⟨y, el₁, -, -, hel₁, hleft⟩ := hx
  obtain ⟨el₀, hel₀, heq⟩ := Ast.element?_of_unmarked (Ast.unmarked_optimize o b.ast) hel₁
  obtain ⟨tag, attrs, unary, span, hmem, hfrom⟩ := hwritten y el₀ hel₀
  rw [heq] at hleft
  obtain ⟨attr, hattr, hname⟩ := hfrom.pre hleft
  exact hpre _ hmem attr hattr hname

/-- The paragraph beside an interpolation is marked, and so all of it is literal. -/
theorem static_content_isLiteral_paragraph :
    let source := "<div><p id=a>x<b>y</b></p>{{ z }}</div>"
    let signals := read Web.options.tags Web.options.comments source
    (∀ signal ∈ signals, ∀ attr ∈ signal.attrs, attr.name ≠ Web.options.directive "pre") ∧
    ∃ tree, (optimizedTree Web.options source).result = .ok tree ∧
      ∃ el, tree.element? 1 = some el ∧ el.marks.isStatic = true ∧
        ∀ x, tree.Below 1 x → tree.IsLiteral signals x := by
  intro source signals
  have hpre : ∀ signal ∈ signals,
      ∀ attr ∈ signal.attrs, attr.name ≠ Web.options.directive "pre" := by decide +kernel
  obtain ⟨tree, htree, hliteral⟩ := static_content_isLiteral Web.options Web.usesWeb_options _ hpre
  obtain ⟨el, hel, hstatic⟩ := (Option.any_eq_true _ _).mp
    (check_ok htree (fun tree => (tree.element? 1).any (·.marks.isStatic)) (by decide +kernel))
  exact ⟨hpre, tree, htree, el, hel, hstatic, hliteral 1 el hel hstatic⟩

end TemplateCompiler
