import TemplateCompiler.Proofs.Tending

/-!
# What is left as written

Inside an element that was written with the directive to leave it as written, attributes keep their
text and nothing is interpolated (`NodeKind.LeftAlone`). Every node below such an element is a text
without tokens, or an element that has the attributes of its start tag and nothing else. There is
one exception. A module may expand an element before the flag is looked at, so an input with a
computed type and a two-way binding is expanded there as everywhere. The result says so exactly: an
element below the directive is raw if and only if its start tag is not expanded.
-/

namespace TemplateCompiler

open Markup List Option

variable {attrs : List Attr} {tag : String} {span : Span} {o : Options}

/-! ## Raw elements -/

namespace Element

/-- An element with the attributes of its start tag as they are, and nothing else. -/
def raw (tag : String) (attrs : List Attr) (span : Span) : Element :=
  { ofTag tag attrs with
    span
    attrs := attrs.map plainBinding
    plain := attrs.isEmpty }

/-- The element is raw, with some place in the tree. It has no condition and no loop, no directive,
listener or property, no key, reference, slot or component, and no class or style. -/
def IsRaw (attrs : List Attr) (el : Element) : Prop :=
  ∃ ns forbidden children scopedSlots,
    el = { raw el.tag attrs el.span with ns, forbidden, children, scopedSlots }

end Element

def Options.Expands (o : Options) (tag : String) (attrs : List Attr) : Prop :=
  Web.inputTypeModule ∈ o.modules ∧
    (Web.expandInputType? o.directivePrefix (Element.ofTag tag attrs)).isSome

/-- The element comes from a start tag among `seen`, and is raw unless it has been expanded. -/
def Element.LeftAlone (o : Options) (seen : List Signal) (el : Element) : Prop :=
  ∃ attrs unary, Signal.event (.opened el.tag attrs unary el.span) ∈ seen ∧
    ((o.Expands el.tag attrs ∧ el.processed ∧ el.hasBindings) ∨
      (¬ o.Expands el.tag attrs ∧ el.IsRaw attrs))

namespace Element

variable {o : Options} {seen : List Signal} {el el' : Element} {attrs : List Attr}

/-- What a step may do to an element that is left alone: it may be given other links, and another
chain if it has one. -/
structure Relinks (el el' : Element) : Prop where
  same : ∃ children scopedSlots conditions, el' = { el with children, scopedSlots, conditions }
  chain : el.ifExp = none → el'.conditions = el.conditions

theorem IsRaw.relink (h : el.IsRaw attrs) (hlinks : el.Relinks el') : el'.IsRaw attrs := by
  obtain ⟨ns, forbidden, children, scopedSlots, heq⟩ := h
  obtain ⟨⟨children', scopedSlots', conditions, rfl⟩, hchain⟩ := hlinks
  have hif : el.ifExp = none := by rw [heq]; rfl
  have hconds : conditions = [] := (hchain hif).trans (by rw [heq]; rfl)
  refine ⟨ns, forbidden, children', scopedSlots', ?_⟩
  rw [hconds]
  conv => lhs; rw [heq]
  rfl

theorem LeftAlone.relink (h : el.LeftAlone o seen) (hlinks : el.Relinks el') :
    el'.LeftAlone o seen := by
  obtain ⟨attrs, unary, hmem, hraw⟩ := h
  have hlinks' := hlinks
  obtain ⟨⟨children, scopedSlots, conditions, rfl⟩, -⟩ := hlinks
  refine ⟨attrs, unary, hmem, hraw.imp id fun ⟨hnot, hraw⟩ => ⟨hnot, hraw.relink hlinks'⟩⟩

theorem LeftAlone.processed (h : el.LeftAlone o seen) (hscope : el.slotScope.isSome) :
    el.processed := by
  obtain ⟨attrs, unary, -, ⟨-, hprocessed, -⟩ | ⟨-, ns, forbidden, children, slots, heq⟩⟩ := h
  · exact hprocessed
  · rw [heq] at hscope
    cases hscope

end Element

/-! ## Taking a start tag -/

namespace Element

variable {s : Settings} {el : Element}

/-- An element that an expansion has made. -/
structure IsExpanded (s : Settings) (tag : String) (span : Span) (el : Element) : Prop where
  tag : el.tag = tag
  span : el.span = span
  processed : el.processed
  bound : el.hasBindings
  unmarked : el.pre = false
  model : ∃ attr ∈ el.pending, attr.name = s.directive "model"
  needsData : el.plain = false

theorem IsBranch.isExpanded (h : el.IsBranch s tag attrs span) : el.IsExpanded s tag span :=
  { h with tag := h.origin.tag, span := h.origin.span }

theorem IsExpanded.leftAlone {seen : List Signal}
    {unary : Bool} (h : el.IsExpanded o.toSettings tag span)
    (hexpands : o.Expands tag attrs)
    (hmem : Signal.event (.opened tag attrs unary span) ∈ seen) : el.LeftAlone o seen := by
  refine ⟨attrs, unary, ?_, .inl ⟨?_, h.processed, h.bound⟩⟩
  · rwa [h.tag, h.span]
  · rwa [h.tag]

end Element

namespace Builder

variable {o : Options} {seen : List Signal} {b : Builder} {id : NodeId} {el : Element}
  {tag : String} {attrs : List Attr} {unary : Bool} {span : Span}

theorem newElement_isRaw (s : Settings) (b : Builder) (tag : String) (attrs : List Attr)
    (span : Span) : (b.newElement s tag attrs span).keepAttributes.IsRaw attrs := by
  unfold Element.keepAttributes
  split
  · next hempty =>
    obtain rfl : attrs = [] := List.isEmpty_iff.mp hempty
    exact ⟨_, _, [], [], rfl⟩
  · next hsome =>
    have hplain : attrs.isEmpty = false := Bool.not_eq_true _ ▸ hsome
    refine ⟨(b.newElement s tag attrs span).ns, (b.newElement s tag attrs span).forbidden, [], [],
      ?_⟩
    unfold Element.raw
    rw [hplain]
    rfl

theorem expanded_raw (ho : o.UsesWeb) (b : Builder) (id : NodeId)
    (hwr : ∀ name, el.hasAttr name → ∃ attr ∈ el.pending, attr.name = name) :
    (b.expanded o id el).Ensures fun r => r.1.asWritten = b.asWritten ∧
      ∃ others, r.1.ast = b.ast.pushElements b.parent? others ∧
        ((¬ (Web.inputTypeModule ∈ o.modules ∧
            (Web.expandInputType? o.directivePrefix el).isSome) ∧ others = [] ∧ r.2 = el) ∨
          ((Web.inputTypeModule ∈ o.modules ∧
            (Web.expandInputType? o.directivePrefix el).isSome) ∧
            ∀ e ∈ r.2 :: others, e.IsExpanded o.toSettings el.tag el.span)) := by
  refine .bind (expansion?_eq o.toSettings el ho.modules) fun r hr => ?_
  cases r with
  | none =>
    refine .pure ⟨rfl, [], rfl, .inl ⟨fun ⟨hmem, hsome⟩ => ?_, rfl, rfl⟩⟩
    obtain ⟨e, he⟩ := isSome_iff_exists.mp hsome
    cases (hr e).mpr ⟨hmem, he⟩
  | some e =>
    obtain ⟨hinput, hexpand⟩ := (hr e).mp rfl
    have he := Web.expandInputType?_proper hwr hexpand
    obtain ⟨branch, rest, exp, hbrs, -⟩ := he.first
    have hbr := he.branches
    rw [hbrs] at hbr
    show (b.expand o id el e).Ensures _
    unfold expand
    rw [hbrs]
    refine .bind (branchElement_spec ho _ el true (hbr branch (by simp))) fun head hhead => ?_
    refine .bind (otherBranches_spec ho _ el rest fun b hb => hbr b (by simp [hb]))
      fun others ⟨_, hoth⟩ => .pure ⟨rfl, others, rfl,
        .inr ⟨⟨hinput, isSome_of_eq_some hexpand⟩, fun e' he' => ?_⟩⟩
    rcases mem_cons.mp he' with rfl | he'
    · have hexpanded := hhead.isExpanded
      rw [linkChain_eq]
      exact { hexpanded with }
    · exact (hoth e' he').isExpanded

end Builder

/-! ## The builder -/

/-- Where content is left as written, texts have no tokens and elements are left alone. -/
def NodeKind.LeftAlone (o : Options) (seen : List Signal) (around : Around) : NodeKind → Prop
  | .text _ tokens _ => around.written → tokens = none
  | .element el => around.written → el.LeftAlone o seen
  | .comment .. => True

/-- Content is left alone as long as it is looked at: outside of what is left as written there is
nothing to show, and inside of it elements are only linked. -/
theorem raw_tends (ho : o.UsesWeb) (seen : List Signal) :
    Tends o (· ∈ seen) (NodeKind.LeftAlone o seen)
      (fun around el => around.written → el.keepAttributes.LeftAlone o seen)
      fun _ => True where
  opened {tag attrs unary span around} b b' id hmem _ := by
    obtain ⟨-, -, hwr⟩ := Builder.newElement_spec o.toSettings b tag attrs span
    refine (Builder.expanded_raw ho b' id hwr).mono fun r ⟨_, others, hast, hcases⟩ => ?_
    refine ⟨fun _ => ?_, others, hast, fun other hother _ => ?_⟩
    · have hkept := r.2.keepAttributes_eq
      rcases hcases with ⟨hnot, -, heq⟩ | ⟨hexpands, hall⟩
      · have hraw := heq ▸ Builder.newElement_isRaw o.toSettings b tag attrs span
        refine ⟨attrs, unary, ?_, .inr ⟨?_, hraw⟩⟩ <;> rw [hkept, heq]
        · exact hmem
        · exact hnot
      · have hhead := hall r.2 mem_cons_self
        refine ⟨attrs, unary, ?_, .inl ⟨?_, ?_, ?_⟩⟩ <;> rw [hkept]
        · rwa [hhead.tag, hhead.span]
        · rwa [hhead.tag]
        · exact hhead.processed
        · exact hhead.bound
    · rcases hcases with ⟨-, rfl, -⟩ | ⟨hexpands, hall⟩
      · cases hother
      · exact (hall other (mem_cons_of_mem _ hother)).leftAlone hexpands hmem
  pre hnot _ h := absurd h (by rw [hnot]; decide)
  asWritten _ h := ⟨h, trivial⟩
  structured _ hnot _ _ _ := ⟨fun h => absurd h (by rw [hnot]; decide), trivial⟩
  expanded hnot _ _ := ⟨fun h => absurd h (by rw [hnot]; decide), trivial⟩
  process above _ hnot _ _ := (Element.process_spec ho above _).mono
    fun _ _ h => absurd h (by rw [hnot]; decide)
  children _ h hwr := Element.LeftAlone.relink (h hwr) ⟨⟨_, _, _, rfl⟩, fun _ => rfl⟩
  branch _ h hif _ hwr := Element.LeftAlone.relink (h hwr)
    ⟨⟨_, _, _, rfl⟩, fun hnone => absurd hif (by rw [hnone]; decide)⟩
  slot _ h _ _ hwr := Element.LeftAlone.relink (h hwr) ⟨⟨_, _, _, rfl⟩, fun _ => rfl⟩
  unlinked _ _ := trivial
  text b _ _ hflag _ hwr := by
    rw [hflag, hwr]
    rfl
  comment _ := trivial

/-- **What is left as written.** Inside of an element with the directive to leave it as written, a
text has no tokens, and an element is raw exactly if no module expands its start tag: it has the
attributes of the start tag as literals, in order, and nothing else. Its scoped slots, if it has
any, are elements that have been expanded. -/
theorem parse_rawInside (o : Options) (ho : o.UsesWeb) (source : String) :
    ∃ tree, (parse o source).result = .ok tree ∧
      ∀ x, (∃ above ∈ tree.ancestorElements x, above.hasAttr (o.directive "pre") = true) →
        (∀ content tokens isStatic,
          tree.kind? x = some (.text content tokens isStatic) → tokens = none) ∧
        ∀ el, tree.element? x = some el → (∀ slot ∈ el.scopedSlots,
            ∃ content, tree.element? slot.2 = some content ∧ content.processed = true) ∧
          ∃ attrs unary, Signal.event (.opened el.tag attrs unary el.span) ∈
              read o.tags o.comments source ∧
            (el.IsRaw attrs ↔ ¬ o.Expands el.tag attrs) ∧
            (o.Expands el.tag attrs → el.processed = true ∧ el.hasBindings = true) := by
  obtain ⟨b, hb, htended, hkeeps, -⟩ := (Builder.signals_read_tended (raw_tends ho _) ho source
    fun _ h => h).and (Builder.signals_read ho source)
  have hwf := hkeeps.tree.toWellFormed
  have hinside {x : NodeId} (hx : ∃ above ∈ b.ast.ancestorElements x,
      above.hasAttr (o.directive "pre") = true) : (b.ast.around o.toSettings x).written = true :=
    List.any_eq_true.mpr hx
  refine ⟨b.ast, result_parse o source hb, fun x hx => ⟨fun content tokens isStatic htext =>
    htended.nodes x _ htext (hinside hx), fun el hel => ⟨fun slot hslot => ?_, ?_⟩⟩⟩
  · -- A scoped slot stands inside too, and has a scope.
    obtain ⟨content, hcontent, hscope⟩ :=
      (Option.any_eq_true _ _).mp (htended.slots x el hel slot hslot)
    have hparent : b.ast.parent? slot.2 = some x :=
      (hwf.fits x el hel).slotParent _ (List.mem_map_of_mem hslot)
    have hslot : (b.ast.around o.toSettings slot.2).written = true := by
      rw [hwf.parentsFirst.around_eq, hparent]
      exact (Bool.or_eq_true ..).mpr (.inr (hinside hx))
    have hleft : content.LeftAlone o _ := htended.nodes.element hcontent hslot
    exact ⟨content, hcontent, hleft.processed hscope⟩
  have hleft : el.LeftAlone o _ := htended.nodes.element hel (hinside hx)
  obtain ⟨attrs, unary, hmem, hcases⟩ := hleft
  refine ⟨attrs, unary, hmem, ?_⟩
  rcases hcases with ⟨hexpands, hprocessed, hbound⟩ | ⟨hnot, hisRaw⟩
  · refine ⟨⟨fun hisRaw => ?_, fun hnot => absurd hexpands hnot⟩, fun _ => ⟨hprocessed, hbound⟩⟩
    obtain ⟨ns, forbidden, children, scopedSlots, heq⟩ := hisRaw
    rw [heq] at hprocessed
    cases hprocessed
  · exact ⟨⟨fun _ => hnot, fun _ => hisRaw⟩, fun h => absurd h hnot⟩

/-- A binding and a condition inside of the directive stay as written, but an input of a computed
type beside them is expanded. -/
theorem parse_rawInside_input : Web.options.UsesWeb ∧ ∃ tree el input, (parse Web.options
          "<p r-pre><b :c=d r-if=e>{{ f }}</b><input :type=t r-model=m></p>").result = .ok tree ∧
        (∃ above ∈ tree.ancestorElements 1, above.hasAttr (Web.options.directive "pre") = true) ∧
        tree.element? 1 = some el ∧ (∃ attrs, el.IsRaw attrs) ∧
        tree.element? 3 = some input ∧ input.hasBindings = true ∧
        ∃ attrs, Web.options.Expands input.tag attrs ∧ ¬ input.IsRaw attrs := by
  obtain ⟨tree, htree, hall⟩ := parse_rawInside Web.options Web.usesWeb_options
    "<p r-pre><b :c=d r-if=e>{{ f }}</b><input :type=t r-model=m></p>"
  have hcheck := check_ok htree (fun tree =>
    (tree.ancestorElements 1).any (·.hasAttr (Web.options.directive "pre")) &&
      (tree.ancestorElements 3).any (·.hasAttr (Web.options.directive "pre")) &&
      ((tree.element? 1).any fun el => el.tag = "b") &&
      ((tree.element? 3).any fun el => el.processed)) (by decide +kernel)
  simp only [Bool.and_eq_true, decide_eq_true_iff, Option.any_eq_true, List.any_eq_true] at hcheck
  obtain ⟨⟨⟨hb, hinput⟩, el, hel, htag⟩, input, hinput', hprocessed⟩ := hcheck
  obtain ⟨-, attrs, unary, -, hraw, -⟩ := (hall 1 hb).2 el hel
  obtain ⟨-, attrs', unary', -, hraw', hexpanded⟩ := (hall 3 hinput).2 input hinput'
  have hnot : ¬ Web.options.Expands el.tag attrs := by
    rintro ⟨-, hsome⟩
    rw [htag] at hsome
    cases hsome
  have hexpands : Web.options.Expands input.tag attrs' := by
    refine Classical.byContradiction fun hnone => ?_
    obtain ⟨ns, forbidden, children, scopedSlots, heq⟩ := hraw'.mpr hnone
    rw [heq] at hprocessed
    cases hprocessed
  exact ⟨Web.usesWeb_options, tree, el, input, htree, hb, hel, ⟨attrs, hraw.mpr hnot⟩, hinput',
    (hexpanded hexpands).2, attrs', hexpands, fun h => hraw'.mp h hexpands⟩

end TemplateCompiler
