import TemplateCompiler.Proofs.MissingValues
import TemplateCompiler.Proofs.Tending
import TemplateCompiler.Proofs.Totality

/-!
# Which missing values are reported

A template is read start tag by start tag, and what is reported about a start tag is reported at two
points: its structural directives when it is met, its bindings when it is closed. `Opening` is a
start tag, and `Opening.missing` lists the errors for it, given whether its content is left as
written. The builder owes the second part of them for each start tag that is open (`owed`), and what
it has reported together with what it owes is what there is to report about the start tags so far.

Three things keep a blank value from being reported. A binding may be taken before it is looked at,
a structural directive may be written once more with a value, and the expansion of an input drops
the conditions of its start tag.
-/

namespace TemplateCompiler

open Markup List Element Web Text Noted
open Option hiding bind_assoc or_assoc

variable {extra : Attr} {name : String} {o : Options} {e : Expansion} {signal : Signal}
  {problem : Located Problem} {above : List Element} {el : Element}

/-! ## Start tags -/

/-- A start tag: its tag, its attributes in order, and its place. -/
structure Opening where
  tag : String
  attrs : List Attr
  span : Span

namespace Opening

def element (t : Opening) : Element := { Element.ofTag t.tag t.attrs with span := t.span }

def has (t : Opening) (name : String) : Bool := t.attrs.any (·.name = name)

def value? (t : Opening) (name : String) : Option String := t.element.attr? name

/-- The chain that takes the place of the tag, if it is an input of a computed type. -/
def expansion? (t : Opening) : Option Expansion := expandInputType? "r-" t.element

/-- What is reported when the tag is met. -/
def missingAtStart (t : Opening) (written : Bool) : List (Located Problem) :=
  t.expansion?.elim (if written then [] else t.element.missingStructure) fun e =>
    t.element.missingAt "r-for" ++ e.branches.flatMap fun branch =>
      Element.missingBindings t.tag (Element.ofTag t.tag branch.attrs).source branch.attrs

/-- What is reported when the tag is closed. -/
def missingAtEnd (t : Opening) (written : Bool) : List (Located Problem) :=
  if written || t.expansion?.isSome then []
  else Element.missingBindings t.tag t.element.source t.attrs

/-- What is reported about the tag, whose content may be left as written. -/
def missing (t : Opening) (written : Bool) : List (Located Problem) :=
  t.missingAtStart written ++ t.missingAtEnd written

def after (tags : List Opening) : Signal → List Opening
  | .event (.opened tag attrs unary span) => if unary then tags else ⟨tag, attrs, span⟩ :: tags
  | .event (.closed _ _) => tags.tail
  | _ => tags

def written (tags : List Opening) : Bool := tags.any (·.has "r-pre")

def missingIn (tags : List Opening) : Signal → List (Located Problem)
  | .event (.opened tag attrs _ span) =>
    (⟨tag, attrs, span⟩ : Opening).missing (written (⟨tag, attrs, span⟩ :: tags))
  | _ => []

/-- What is still to be reported about open tags. -/
def owed : List Opening → List (Located Problem)
  | [] => []
  | t :: tags => t.missingAtEnd (written (t :: tags)) ++ owed tags

/-- An element under construction that comes from the start tag. -/
structure MatchedBy (t : Opening) (el : Element) : Prop where
  pre : el.hasAttr "r-pre" = t.has "r-pre"
  processed : el.processed = t.expansion?.isSome
  same : t.expansion? = none → el.SameSource t.element ∧ el.valued = t.element.valued

end Opening

namespace Opening.MatchedBy

variable {t : Opening} {el el' : Element}

/-- A step that leaves the start tag and the bindings of an element alone. -/
theorem change (h : t.MatchedBy el) (hsame : el'.SameSource el) (hvalued : el'.valued = el.valued)
    (hproc : el'.processed = el.processed) : t.MatchedBy el' := by
  refine ⟨?_, hproc.trans h.processed, fun hnone => ?_⟩
  · rw [← h.pre, Element.hasAttr, hsame.source]
    rfl
  · exact ⟨hsame.trans (h.same hnone).1, hvalued.trans (h.same hnone).2⟩

theorem unlinked (h : t.MatchedBy el) (heq : el'.unlinked = el.unlinked) : t.MatchedBy el' := by
  have hpend : el'.pending = el.pending := congrArg (·.pending) heq
  refine h.change ⟨?_, ?_, ?_⟩ ?_ ?_
  · exact congrArg (·.tag) heq
  · exact congrArg (·.source) heq
  · exact congrArg (·.span) heq
  · rw [Element.valued, hpend]
    rfl
  · exact congrArg (·.processed) heq

end Opening.MatchedBy

/-! ## Closing an element -/

namespace Builder

variable {o : Options} {b : Builder} {id : NodeId} {el : Element} {t : Opening}

/-- The bindings of an element are looked at when it is closed, unless it is left as written or has
been looked at before. -/
theorem finished_tells (ho : o.IsWeb) (h : t.MatchedBy el) :
    (b.finished o id el).Tells fun _ l => l = t.missingAtEnd b.asWritten := by
  unfold finished Opening.missingAtEnd
  rw [← h.processed]
  split
  · exact .pure rfl
  · next hprocess =>
    have hnone : t.expansion? = none := by
      rw [← not_isSome_iff_eq_none, ← h.processed]
      exact fun hproc => hprocess (by rw [hproc, Bool.or_true])
    obtain ⟨hsame, hvalued⟩ := h.same hnone
    have hsrc : el.source = (Element.ofTag t.tag t.attrs).source := hsame.source
    have hconsistent : el.Consistent := consistent_ofTag hsrc hvalued
    refine (process_tells ho _ el hconsistent).mono ?_
    rintro _ l rfl
    rw [hsame.tag, hsame.source]
    exact congrArg (fun attrs => (Element.untaken _ attrs).filterMap Attr.missing?) hvalued

theorem close_tells (ho : o.IsWeb) (hel : b.ast.element? id = some el) (h : t.MatchedBy el) :
    (b.close o id).Tells fun _ l => l = t.missingAtEnd b.asWritten := by
  unfold close
  rw [hel]
  refine .bind (finished_tells ho (h.unlinked (b.unlinked_trimmed el))) ?_
  rintro el' l rfl
  refine .bindOmits (settle_omits (fun _ => rfl) (fun _ => rfl) rfl _ b id el') ?_
  refine .bindOmits (attach_omits (fun _ _ _ => rfl) (fun _ _ _ => rfl) id el') ?_
  exact .pure (append_nil _)

end Builder

/-! ## Expansions -/

namespace Opening

variable {t : Opening} {e : Expansion}

/-- The attributes of the tag that the branches of an expansion have. -/
def kept (t : Opening) : List Attr :=
  t.attrs.filter fun attr =>
    !([":type", "r-bind:type", "r-if", "r-else", "r-else-if"].contains attr.name)

theorem branches_expansion? (h : t.expansion? = some e) :
    ∃ type, computedType? "r-" t.element = some type ∧
      e.branches.map (·.attrs) = [t.kept ++ [{ name := "type", value := "checkbox" }],
        t.kept ++ [{ name := "type", value := "radio" }],
        t.kept ++ [{ name := ":type", value := type }]] := by
  unfold expansion? expandInputType? at h
  split at h
  · cases h
  · obtain ⟨type, htype, rfl⟩ := map_eq_some_iff.mp h
    exact ⟨type, htype, rfl⟩

/-- An attribute that is neither dropped nor added by an expansion has its last value in all
branches. -/
theorem attr?_branch (hextra : extra.name ≠ name)
    (hname : name ∉ [":type", "r-bind:type", "r-if", "r-else", "r-else-if"]) :
    (Element.ofTag t.tag (t.kept ++ [extra])).attr? name = t.value? name := by
  show _ = (Element.ofTag t.tag t.attrs).attr? name
  rw [attr?_ofTag, attr?_ofTag, reverse_append, reverse_singleton,
    singleton_append, find?_cons_of_neg (by simpa using hextra), kept,
    ← filter_reverse, find?_filter]
  congr 2
  funext attr
  by_cases heq : attr.name = name
  · simpa [heq] using hname
  · simp [heq]

theorem hasAttr_eq (t : Opening) : t.element.hasAttr name = t.has name := by
  show (Dict.ofList _).contains name = _
  rw [Dict.contains_ofList, List.any_map]
  rfl

end Opening

theorem expansion?_web (s : Settings) :
    expansion? s el modules = pure (expandInputType? s.directivePrefix el) := by
  cases h : expandInputType? s.directivePrefix el <;>
    simp [modules, expansion?, classModule, styleModule, inputTypeModule, h]

theorem otherBranches_tells (ho : o.IsWeb) (branches : List Branch) :
    (otherBranches o above el branches).Tells fun _ l => l = branches.flatMap fun branch =>
      Element.missingBindings el.tag (Element.ofTag el.tag branch.attrs).source branch.attrs := by
  induction branches with
  | nil => exact .pure rfl
  | cons branch rest ih =>
    refine .bind (branchElement_tells ho above el false branch) ?_
    rintro clone l rfl
    refine .bind ih ?_
    rintro others m rfl
    refine .pure ?_
    rw [append_nil]
    rfl

theorem branchElement_first (ho : o.UsesWeb) (branch : Branch) :
    (branchElement o above el true branch).Ensures fun head => head.processed ∧
      head.pre = false ∧ head.source = (Element.ofTag el.tag branch.attrs).source := by
  obtain ⟨_, _, _, _, heq, -, -, hsrc⟩ := result_branchElement o above el true branch
  exact .ofResult heq ((process_spec ho above _).mono fun head hhead =>
    ⟨hhead.processed, congrArg Element.Frame.pre hhead.frame,
      (congrArg Element.Frame.source hhead.frame).trans (hsrc rfl)⟩)

namespace Builder

variable {o : Options} {b : Builder} {id : NodeId} {el : Element} {t : Opening}

theorem expand_tells (ho : o.IsWeb) (hel : el.SameSource t.element)
    (he : t.expansion? = some e) (written : Bool) :
    (b.expand o id el e).Tells fun r l => r.1.asWritten = b.asWritten ∧
      (∃ others, r.1.ast = b.ast.pushElements b.parent? others) ∧ t.MatchedBy r.2 ∧
      r.2.pre = false ∧ l = t.missingAtStart written := by
  obtain ⟨type, -, hbrs⟩ := Opening.branches_expansion? he
  obtain ⟨branch, rest, hcons, hattrs, -⟩ := map_eq_cons_iff.mp hbrs
  have htag : el.tag = t.tag := hel.tag
  have hval (name : String) (hextra : "type" ≠ name)
      (hname : name ∉ [":type", "r-bind:type", "r-if", "r-else", "r-else-if"]) :
      (Element.ofTag el.tag branch.attrs).attr? name = t.value? name := by
    rw [hattrs]
    exact Opening.attr?_branch hextra hname
  unfold expand
  rw [hcons]
  refine .bind ((branchElement_tells ho _ el true branch).and
    (branchElement_first ho.usesWeb branch)) ?_
  rintro head l ⟨rfl, hproc, hpre, hsrc⟩
  refine .bind (otherBranches_tells ho rest) ?_
  rintro others l rfl
  refine .pure ⟨rfl, ⟨others, rfl⟩, ?_⟩
  rw [linkChain_eq]
  refine ⟨⟨?_, ?_, fun hnone => ?_⟩, hpre, ?_⟩
  · rw [hsrc, ← t.hasAttr_eq]
    exact congrArg Option.isSome (hval "r-pre" (by decide) (by decide))
  · rw [he]
    exact hproc
  · rw [he] at hnone
    cases hnone
  · have hloop : Element.missingAt
        { Element.ofTag el.tag branch.attrs with ns := el.ns, span := el.span } "r-for" =
        t.element.missingAt "r-for" := by
      have hattr := hval "r-for" (by decide) (by decide)
      unfold Element.missingAt
      rw [show Element.attr? { Element.ofTag el.tag branch.attrs with
        ns := el.ns, span := el.span } "r-for" = t.element.attr? "r-for" from hattr, hel.span]
    unfold Opening.missingAtStart
    rw [he, hloop, elim_some, hcons, flatMap_cons, htag]
    simp [List.append_assoc]

/-- The expansion of a new element depends on its start tag only. -/
theorem expandInputType?_eq (ho : o.IsWeb) (hel : el.SameSource t.element)
    (hpend : el.pending = t.attrs) :
    expandInputType? o.directivePrefix el = t.expansion? := by
  unfold Opening.expansion? expandInputType? computedType? typeBranches chainLink
    Element.hasAttr Element.attr?
  rw [ho.directivePrefix, hel.tag, hel.source, hpend]
  rfl

theorem expanded_tells (ho : o.IsWeb) (b : Builder) (id : NodeId) (hel : el.SameSource t.element)
    (hpend : el.pending = t.attrs) (hpre : el.pre = false) (hproc : el.processed = false) :
    (b.expanded o id el).Tells fun r l => r.1.asWritten = b.asWritten ∧
      (∃ others, r.1.ast = b.ast.pushElements b.parent? others) ∧ t.MatchedBy r.2 ∧
      r.2.pre = false ∧ l = if t.expansion?.isSome then t.missingAtStart true else [] := by
  unfold expanded
  rw [ho.modules, expansion?_web, expandInputType?_eq ho hel hpend]
  cases he : t.expansion? with
  | some e => exact expand_tells ho hel he true
  | none =>
    refine .pure ⟨rfl, ⟨[], rfl⟩, ⟨?_, ?_, fun _ => ⟨hel, ?_⟩⟩, hpre, rfl⟩
    · rw [← t.hasAttr_eq, Element.hasAttr, hel.source]
      rfl
    · rw [he]
      exact hproc
    · rw [Element.valued, hpend]
      rfl

/-! ## Taking a start tag -/

theorem enter_matched {s : Settings} (hs : s.directivePrefix = "r-") (b : Builder)
    (h : t.MatchedBy el) (hpre : el.pre = false) :
    t.MatchedBy (b.enter s el).2 ∧ (b.enter s el).1.asWritten = (b.asWritten || t.has "r-pre") := by
  obtain ⟨-, hmark⟩ := enter_marks s b hpre
  refine ⟨?_, ?_⟩
  · unfold enter
    split
    · exact h
    · have hvalued := valued_takePre hs el
      rw [takePre_eq] at hvalued ⊢
      exact h.change ⟨rfl, rfl, rfl⟩ hvalued rfl
  · show (b.asWritten || (b.enter s el).2.pre) = _
    have hdir : s.directive "pre" = "r-pre" := by rw [Settings.directive_eq hs]; rfl
    rw [hmark, hdir, h.pre]
    cases b.asWritten <;> simp

section Structure

variable {s : Settings} (hs : s.directivePrefix = "r-")
include hs

theorem takeLoop_matched (h : t.MatchedBy el) : t.MatchedBy (el.takeLoop s).value := by
  obtain ⟨loop, pending, -, heq⟩ := el.takeLoop_cases s
  have hvalued := valued_takeLoop hs el
  rw [heq] at hvalued ⊢
  exact h.change ⟨rfl, rfl, rfl⟩ hvalued rfl

theorem structural_matched (h : t.MatchedBy el) : t.MatchedBy (do
      let el ← el.takeLoop s
      let el ← el.takeCondition s id
      return el.takeOnce s : Noted Element).value := by
  have hvalued := (valued_takeOnce hs _).trans
    ((takeCondition_tells hs id).1.trans (valued_takeLoop hs el))
  obtain ⟨_, _, _, _, _, _, _, heq, -⟩ := el.structural_cases s id
  rw [value_bind, value_bind, value_pure] at heq ⊢
  rw [heq] at hvalued ⊢
  exact h.change ⟨rfl, rfl, rfl⟩ hvalued rfl

/-- The structural directives of a new element are looked at unless it is left as written. -/
theorem structured_matched (b : Builder) (id : NodeId) (h : t.MatchedBy el) :
    t.MatchedBy (b.structured s id el).value ∧ (b.structured s id el).notes.missing =
        if t.expansion?.isSome then [] else t.missingAtStart b.asWritten := by
  have hstart (hnone : t.expansion? = none) : t.missingAtStart b.asWritten =
      if b.asWritten then [] else t.element.missingStructure := by
    rw [Opening.missingAtStart, hnone]
    rfl
  unfold structured
  by_cases hwritten : b.asWritten
  · rw [if_pos hwritten]
    rw [keepAttributes_eq]
    refine ⟨h.change ⟨rfl, rfl, rfl⟩ rfl rfl, ?_⟩
    split
    · rfl
    · next hnone => rw [hstart (not_isSome_iff_eq_none.mp hnone), if_pos hwritten]; rfl
  · rw [if_neg hwritten, ← h.processed]
    by_cases hproc : el.processed
    · rw [if_pos hproc, if_pos hproc]
      exact ⟨h, rfl⟩
    · rw [if_neg hproc, if_neg hproc]
      have hnone : t.expansion? = none := by
        rw [← not_isSome_iff_eq_none, ← h.processed]
        exact hproc
      have hloop := takeLoop_matched hs h
      have hmissing := el.missing_takeLoop s
      rw [show s.directive "for" = "r-for" by rw [Settings.directive_eq hs]; rfl] at hmissing
      refine ⟨structural_matched hs h, ?_⟩
      rw [notes_bind, notes_bind, notes_pure, Diagnostics.append_empty,
        Diagnostics.missing_append, hmissing, (takeCondition_tells hs id).2,
        hstart hnone, if_neg hwritten]
      have hsame := (hloop.same hnone).1
      have hval : (el.takeLoop s).value.attr? "r-if" = t.element.attr? "r-if" := by
        rw [Element.attr?, hsame.source]
        rfl
      rw [(h.same hnone).1.missingAt, hsame.missingAt, hsame.missingAt, hval,
        Element.missingStructure, List.append_assoc]

end Structure

/-- What the builder has after a start tag: the elements before it are the same, and the new one
comes from the tag. -/
theorem placed_tells (ho : o.IsWeb) (b : Builder) (t : Opening) :
    (b.placed o t.tag t.attrs t.span).Tells fun b' l =>
      (∀ x < b.ast.nodes.size, b.ast.Relinked b'.ast x) ∧
      (∃ el, b'.ast.element? b.ast.nodes.size = some el ∧ t.MatchedBy el) ∧
      l = t.missingAtStart (b.asWritten || t.has "r-pre") := by
  have hnew : (b.newElement o.toSettings t.tag t.attrs t.span).SameSource t.element ∧
      (b.newElement o.toSettings t.tag t.attrs t.span).pending = t.attrs ∧
      (b.newElement o.toSettings t.tag t.attrs t.span).pre = false ∧
      (b.newElement o.toSettings t.tag t.attrs t.span).processed = false :=
    ⟨⟨rfl, rfl, rfl⟩, rfl, rfl, rfl⟩
  unfold placed
  dsimp only [Ast.nextId]
  generalize b.newElement o.toSettings t.tag t.attrs t.span = new at hnew ⊢
  obtain ⟨hsame, hpend, hpre, hproc⟩ := hnew
  refine .bindOmits (reportDuplicates_omits (fun _ => rfl) _ _) ?_
  refine .bindOmits (reportForbidden_omits (fun _ => rfl)) ?_
  refine .bind (expanded_tells ho { b with ast := b.ast.push b.parent? (.element new) }
    b.ast.nodes.size hsame hpend hpre hproc) ?_
  rintro ⟨b₁, el⟩ l ⟨hflag, ⟨others, hast⟩, hmatched, hunm, rfl⟩
  obtain ⟨hentered, hwritten⟩ := enter_matched ho.directivePrefix b₁ hmatched hunm
  obtain ⟨hstruct, hmissing⟩ := structured_matched ho.directivePrefix
    (b₁.enter o.toSettings el).1 b.ast.nodes.size hentered
  have hentered : (b₁.enter o.toSettings el).1.ast = b₁.ast := rfl
  generalize b₁.enter o.toSettings el = entered at hstruct hmissing hwritten hentered ⊢
  refine .bindLift ?_
  rw [hmissing, hwritten, hflag]
  generalize (entered.1.structured o.toSettings b.ast.nodes.size entered.2).value = el' at hstruct ⊢
  obtain ⟨reported, heq⟩ := withRoot_eq o.toSettings entered.1 b.ast.nodes.size el'
  refine .bindOmits (withRoot_omits (fun _ => rfl) (fun _ => rfl) _) ?_
  rw [heq]
  have hpushed := congrArg Ast.nodes (hentered.trans hast)
  refine .pure ⟨fun x hx => .ofSame (Ast.AddsElements.old_element
    (.place (P := fun _ => True) hpushed trivial fun _ _ => trivial) hx),
    ⟨el', Ast.AddsElements.element?_place hpushed el', hstruct⟩, ?_⟩
  -- What an expansion reports does not depend on what is left as written.
  cases he : t.expansion? with
  | none => exact append_nil _
  | some e =>
    unfold Opening.missingAtStart
    rw [he]
    exact append_nil _

/-! ## All signals -/

def Matches (a : Ast) (stack : List NodeId) (tags : List Opening) : Prop :=
  List.Forall₂ (fun id t => ∃ el, a.element? id = some el ∧ t.MatchedBy el) stack tags

namespace Matches

variable {a a' : Ast} {stack : List NodeId} {tags : List Opening}

theorem relinked (h : Matches a stack tags) (hlinks : ∀ x ∈ stack, a.Relinked a' x) :
    Matches a' stack tags :=
  Ast.forall₂_relinked (fun _ _ _ heq hmatched => hmatched.unlinked heq) h hlinks

/-- The open elements that carry the directive are those whose start tags have it. -/
theorem written (h : Matches a stack tags) :
    stack.any (a.carries "r-pre") = Opening.written tags := by
  induction h with
  | nil => rfl
  | cons hfirst _ ih =>
    obtain ⟨el, hel, hmatched⟩ := hfirst
    rw [any_cons, ih, Ast.carries, hel, any_some, hmatched.pre]
    rfl

end Matches

variable {seen : List Signal} {tags : List Opening}

theorem asWritten_eq (ho : o.IsWeb) {stack : List NodeId} (h : Matches b.ast stack tags)
    (hraw : b.Tended o (fun _ _ => True) (fun _ => True) stack) :
    b.asWritten = Opening.written tags := by
  have hpre : o.directive "pre" = "r-pre" := by
    rw [Settings.directive_eq ho.directivePrefix]
    rfl
  rw [hraw.flag, hpre, h.written]

/-- The open elements come from the open tags after the signal, and what has been reported or is
owed then is what was owed before or is there to report about a start tag. -/
def Tracks (tags : List Opening) (signal : Signal) (b : Builder) (l : List (Located Problem)) :
    Prop :=
  Matches b.ast b.stack (Opening.after tags signal) ∧
    ∀ e, (e ∈ l ∨ e ∈ Opening.owed (Opening.after tags signal)) ↔
      (e ∈ Opening.owed tags ∨ e ∈ Opening.missingIn tags signal)

theorem openElement_tells (ho : o.IsWeb) (hkeeps : b.Keeps o seen)
    (hraw : b.Tended o (fun _ _ => True) (fun _ => True) b.stack)
    (h : Matches b.ast b.stack tags) {tag : String} {attrs : List Attr} {unary : Bool} {span : Span}
    (hmem : Signal.event (.opened tag attrs unary span) ∈ seen) :
    (b.openElement o tag attrs unary span).Tells
      (Tracks tags (.event (.opened tag attrs unary span))) := by
  have hlt (x : NodeId) (hx : x ∈ b.stack) : x < b.ast.nodes.size :=
    hkeeps.tree.nested.lt_size x hx
  rw [openElement_eq]
  refine .bind ((placed_tells ho b ⟨tag, attrs, span⟩).and
    ((placed_spec ho.usesWeb hkeeps.tree hkeeps.rootless hmem).and
      (placed_tended (tends_trivial ho.usesWeb) ho.usesWeb hkeeps hraw hmem trivial))) ?_
  rintro b₁ l ⟨⟨hlinks, ⟨el, hel, hmatched⟩, rfl⟩, ⟨hsound, -, hstk⟩, hraw₁⟩
  have hopen : Matches b₁.ast (b.ast.nodes.size :: b.stack) (⟨tag, attrs, span⟩ :: tags) :=
    .cons ⟨el, hel, hmatched⟩ (h.relinked fun x hx => hlinks x (hlt x hx))
  have hwritten := asWritten_eq ho hopen hraw₁
  have hbef : (b.asWritten || (⟨tag, attrs, span⟩ : Opening).has "r-pre") =
      Opening.written (⟨tag, attrs, span⟩ :: tags) := by
    rw [asWritten_eq ho h hraw, Bool.or_comm]
    rfl
  rw [hbef]
  cases unary with
  | true =>
    refine ((close_tells ho hel hmatched).and (close_spec ho.usesWeb (hstk ▸ hsound))).mono ?_
    rintro b₂ l ⟨rfl, -, hstk', -, hlinks'⟩
    rw [hwritten]
    refine ⟨?_, fun e => ?_⟩
    · rw [hstk', hstk]
      refine (h.relinked fun x hx => hlinks x (hlt x hx)).relinked fun x hx => hlinks' x ?_
      exact Nat.ne_of_lt (hlt x hx)
    · exact or_comm
  | false =>
    refine .pure ⟨?_, fun e => ?_⟩
    · rw [hstk]
      exact hopen
    · show _ ∨ e ∈ Opening.missingAtEnd _ _ ++ Opening.owed tags ↔
        _ ∨ e ∈ Opening.missingAtStart _ _ ++ Opening.missingAtEnd _ _
      rw [append_nil, mem_append, mem_append, ← or_assoc, or_comm]

/-- A signal that opens and closes nothing leaves the open elements as they are. -/
theorem Tracks.same {b' : Builder} (h : Matches b.ast b.stack tags)
    (hstk : b'.stack = b.stack) (hlinks : ∀ x ∈ b.stack, b.ast.Relinked b'.ast x)
    (hafter : Opening.after tags signal = tags) (hmissing : Opening.missingIn tags signal = []) :
    Tracks tags signal b' [] := by
  refine ⟨?_, fun e => ?_⟩
  · rw [hstk, hafter]
    exact h.relinked hlinks
  · rw [hafter, hmissing]
    simp

section

variable (ho : o.IsWeb) (hkeeps : b.Keeps o seen)
  (hraw : b.Tended o (fun _ _ => True) (fun _ => True) b.stack)
  (h : Matches b.ast b.stack tags)

include ho hkeeps hraw h

theorem signal_tells (source : String) (hmem : signal ∈ seen) :
    (b.signal o source signal).Tells (Tracks tags signal) := by
  have hsame (x : NodeId) (_ : x ∈ b.stack) : b.ast.Relinked b.ast x := .ofSame rfl
  have hacts := b.signal_acts o source signal
  generalize b.signal o source signal = x at hacts ⊢
  cases hacts with
  | warning w span => exact .bindOmits (.error rfl _) (.pure (.same h rfl hsame rfl rfl))
  | opened tag attrs unary span => exact openElement_tells ho hkeeps hraw h hmem
  | @closed id rest tag span hstk =>
    have htree := hkeeps.tree
    have hwritten := asWritten_eq ho h hraw
    rw [hstk] at h htree
    obtain ⟨t, outer, hfirst, hrest, rfl⟩ := forall₂_cons_left_iff.mp h
    obtain ⟨el, hel, hmatched⟩ := hfirst
    refine ((close_tells (b := { b with stack := rest }) ho hel hmatched).and
      (close_spec ho.usesWeb htree)).mono ?_
    rintro b' l ⟨rfl, -, hstk', -, hlinks⟩
    refine ⟨?_, fun e => ?_⟩
    · rw [hstk']
      refine Matches.relinked hrest fun x hx => hlinks x ?_
      exact Nat.ne_of_lt (htree.nested.lt htree.toWellFormed x hx)
    · show e ∈ t.missingAtEnd b.asWritten ∨ e ∈ Opening.owed outer ↔
        e ∈ t.missingAtEnd (Opening.written (t :: outer)) ++ Opening.owed outer ∨ e ∈ []
      rw [hwritten]
      simp
  | unopened tag span hstk =>
    have hnone := h
    rw [hstk] at hnone
    cases hnone
    exact .pure (.same h rfl hsame rfl rfl)
  | outside content span =>
    have homits := textOutside_omits (p := Problem.isMissing) rfl (fun _ => rfl) source b content
    obtain ⟨_, _, heq⟩ := textOutside_eq source b content
    refine .lift ?_
    rw [homits.missing, heq]
    exact .same h rfl hsame rfl rfl
  | @child _ p _ kind _ hkind =>
    have hchild (x : NodeId) (hx : x ∈ b.stack) : b.ast.Relinked (b.addChild p kind).ast x :=
      addChild_relinked p kind (hkeeps.tree.nested.lt_size x hx)
    cases hkind <;> exact .pure (.same h rfl hchild rfl rfl)
  | textDropped | commentDropped => exact .pure (.same h rfl hsame rfl rfl)

/-- After all signals, what has been reported or is owed is what was owed before or is there to
report about one of the start tags. -/
theorem signals_tells (source : String) {signals : List Signal} (hseen : signals ⊆ seen) :
    (Builder.signals o source signals b).Tells fun b' l =>
      Matches b'.ast b'.stack (signals.foldl Opening.after tags) ∧
        ∀ e, (e ∈ l ∨ e ∈ Opening.owed (signals.foldl Opening.after tags)) ↔
          (e ∈ Opening.owed tags ∨ ∃ signal before after, signals = before ++ signal :: after ∧
            e ∈ Opening.missingIn (before.foldl Opening.after tags) signal) := by
  induction signals generalizing b tags with
  | nil => exact .pure ⟨h, fun e => by simp⟩
  | cons first later ih =>
    obtain ⟨hfirst, hlater⟩ := cons_subset.mp hseen
    refine .bind ((signal_tells ho hkeeps hraw h source hfirst).and
      ((signal_spec ho.usesWeb hkeeps source hfirst).and
        (signal_tended (tends_trivial ho.usesWeb) hkeeps hraw ho.usesWeb source hfirst trivial))) ?_
    rintro b₁ l ⟨⟨hmatches, htracks⟩, hkeeps₁, hraw₁⟩
    refine (ih hkeeps₁ hraw₁ hmatches hlater).mono ?_
    rintro b₂ m ⟨hmatches₂, htracks₂⟩
    refine ⟨hmatches₂, fun e => ?_⟩
    simp only [exists_split_cons]
    rw [exists_or, exists_eq_left, ← or_assoc]
    show _ ↔ (e ∈ Opening.owed tags ∨ e ∈ Opening.missingIn tags first) ∨ _
    rw [← htracks e, mem_append, or_assoc, or_assoc]
    exact or_congr_right (htracks₂ e)

end

end Builder

/-! ## The rule -/

namespace Opening

variable {t : Opening}

/-- The names of the bindings that are taken off the tag before their values are looked at. The
first attribute of each name is taken. -/
def taken (t : Opening) : List String := Element.takenBindings t.tag t.element.source

/-- An attribute of the tag that has no value is reported: under which name, and where. -/
inductive Misses (t : Opening) (written : Bool) : String → Span → Prop
  /-- The loop of an element, or of the first branch of an expansion. -/
  | loop {value : String} (hlooked : t.expansion?.isSome ∨ written = false)
      (hval : t.value? "r-for" = some value) (hblank : isBlank value) :
      Misses t written "r-for" t.span
  | condition {value : String} (hnone : t.expansion? = none) (hlooked : written = false)
      (hval : t.value? "r-if" = some value) (hblank : isBlank value) :
      Misses t written "r-if" t.span
  /-- A place in a chain is only looked for if the element does not start one. -/
  | branch {value : String} (hnone : t.expansion? = none) (hlooked : written = false)
      (hstart : ∀ exp, t.value? "r-if" = some exp → isBlank exp)
      (hval : t.value? "r-else-if" = some value) (hblank : isBlank value) :
      Misses t written "r-else-if" t.span
  /-- A binding that has not been taken. An expansion has no use for the type as it is written. -/
  | binding (before : List Attr) (attr : Attr) (after : List Attr)
      (hattrs : t.attrs = before ++ attr :: after)
      (hlooked : t.expansion?.isSome ∨ written = false)
      (hneeds : Element.needsValue attr.name) (hblank : isBlank attr.value)
      (hleft : ¬ (attr.name ∈ t.taken ∧ attr.name ∉ before.map (·.name)))
      (htype : t.expansion?.isSome → attr.name ≠ ":type" ∧ attr.name ≠ "r-bind:type") :
      Misses t written attr.name attr.span
  /-- The last branch of an expansion binds its type anew, at no place in the source. -/
  | type {type : String} (hsome : t.expansion?.isSome)
      (htype : computedType? "r-" t.element = some type) (hblank : isBlank type) :
      Misses t written ":type" {}

theorem mem_missingAt_iff {e : Located Problem} :
    e ∈ t.element.missingAt name ↔ e = missingValue name t.span ∧
      ∃ value, t.value? name = some value ∧ isBlank value := by
  show e ∈ (if (t.value? name).any isBlank then [missingValue name t.span] else []) ↔ _
  cases t.value? name with
  | none => simp
  | some value =>
    cases hblank : isBlank value <;> simp [hblank]

theorem takenBindings_branch (hextra : extra.name = "type" ∨ extra.name = ":type") :
    Element.takenBindings t.tag (Element.ofTag t.tag (t.kept ++ [extra])).source = t.taken := by
  refine map_congr_left fun name hname => ?_
  have hne : "type" ≠ ":" ++ name ∧ ":type" ≠ ":" ++ name ∧
      ":" ++ name ∉ [":type", "r-bind:type", "r-if", "r-else", "r-else-if"] := by
    have hnames := unlookedNames_subset t.tag hname
    clear hname
    revert name
    decide
  have hval : (Element.ofTag t.tag (t.kept ++ [extra])).attr? (":" ++ name) =
      t.element.attr? (":" ++ name) :=
    attr?_branch (hextra.elim (· ▸ hne.1) (· ▸ hne.2.1)) hne.2.2
  have hcontains : (Element.ofTag t.tag (t.kept ++ [extra])).source.contains (":" ++ name) =
      t.element.source.contains (":" ++ name) := congrArg Option.isSome hval
  rw [Element.bindingName, Element.bindingName, hcontains]

theorem type_not_mem_taken (t : Opening) : ":type" ∉ t.taken := by
  intro h
  obtain ⟨name, hname, heq⟩ := List.mem_map.mp h
  have hne : ":" ++ name ≠ ":type" ∧ "r-bind:" ++ name ≠ ":type" := by
    have hnames := unlookedNames_subset t.tag hname
    clear hname heq
    revert name
    decide
  unfold Element.bindingName at heq
  split at heq
  · exact hne.1 heq
  · exact hne.2 heq

theorem mem_missingBindings_branch {e : Located Problem}
    (hextra : extra.name = "type" ∨ extra.name = ":type") :
    e ∈ Element.missingBindings t.tag (Element.ofTag t.tag (t.kept ++ [extra])).source
        (t.kept ++ [extra]) ↔
      (∃ attr, e = missingValue attr.name attr.span ∧ Element.needsValue attr.name ∧
        isBlank attr.value ∧ (attr.name ≠ ":type" ∧ attr.name ≠ "r-bind:type") ∧
        ∃ before after, t.attrs = before ++ attr :: after ∧
          ¬ (attr.name ∈ t.taken ∧ attr.name ∉ before.map (·.name))) ∨ extra.missing? = some e := by
  have hkept (attr : Attr) := exists_split_filter
    (fun name => !([":type", "r-bind:type", "r-if", "r-else", "r-else-if"].contains name)) t.attrs
    attr fun found => ¬ (attr.name ∈ t.taken ∧ ¬ found)
  rw [mem_missingBindings_iff, takenBindings_branch hextra]
  simp only [exists_split_concat]
  constructor
  · rintro ⟨attr, rfl, hneeds, hblank, hsplit | ⟨rfl, -⟩⟩
    · obtain ⟨hname, hsplit⟩ := (hkept attr).mp hsplit
      refine .inl ⟨attr, rfl, hneeds, hblank, ?_, hsplit⟩
      simp at hname
      exact ⟨hname.1, hname.2.1⟩
    · refine .inr ?_
      rw [Attr.missing?, hneeds, hblank]
      rfl
  · rintro (⟨attr, rfl, hneeds, hblank, hname, hsplit⟩ | hmissing)
    · refine ⟨attr, rfl, hneeds, hblank, .inl ((hkept attr).mpr ⟨?_, hsplit⟩)⟩
      -- A structural directive needs no value, so it is none of the others that are dropped.
      have hplain : ∀ name ∈ ["r-if", "r-else", "r-else-if"], Element.needsValue name = false := by
        decide
      have hother : attr.name ∉ ["r-if", "r-else", "r-else-if"] := by
        intro hmem
        rw [hplain _ hmem] at hneeds
        cases hneeds
      simp [hname, hother]
    · unfold Attr.missing? at hmissing
      split at hmissing
      · next hmissed =>
        rw [Bool.and_eq_true] at hmissed
        refine ⟨extra, (Option.some.inj hmissing).symm, hmissed.1, hmissed.2, .inr ⟨rfl, ?_⟩⟩
        rintro ⟨htaken, -⟩
        rcases hextra with heq | heq
        · rw [heq] at hmissed
          exact absurd hmissed.1 (by decide)
        · exact t.type_not_mem_taken (heq ▸ htaken)
      · cases hmissing

theorem missingAtStart_some (he : t.expansion? = some e) (written : Bool) :
    t.missingAtStart written = t.element.missingAt "r-for" ++ (e.branches.map (·.attrs)).flatMap
      fun attrs => Element.missingBindings t.tag (Element.ofTag t.tag attrs).source attrs := by
  rw [missingAtStart, he, flatMap_map]
  rfl

/-- An input that is expanded reports its loop once, and its bindings in each branch. -/
theorem mem_missing_expanded (he : t.expansion? = some e) (written : Bool) :
    problem ∈ t.missing written ↔
      ∃ name span, problem = missingValue name span ∧ t.Misses written name span := by
  have hsome : t.expansion?.isSome := isSome_of_eq_some he
  obtain ⟨type, htype, hbrs⟩ := branches_expansion? he
  have hplain (value : String) : (⟨"type", value, {}⟩ : Attr).missing? = none := by
    rw [Attr.missing?, show Element.needsValue "type" = false by decide]
    rfl
  have hend : t.missingAtEnd written = [] := by
    rw [missingAtEnd, hsome, Bool.or_true]
    rfl
  rw [missing, hend, append_nil, missingAtStart_some he, hbrs, mem_append, mem_missingAt_iff]
  simp only [flatMap_cons, flatMap_nil, append_nil, mem_append]
  rw [mem_missingBindings_branch (.inl rfl), mem_missingBindings_branch (.inl rfl),
    mem_missingBindings_branch (.inr rfl), hplain, hplain]
  -- All branches report the bindings that are kept, and only the last one has a type to report.
  simp only [reduceCtorEq, or_false, or_self_left]
  constructor
  · rintro (⟨rfl, value, hval, hblank⟩ |
      ⟨attr, rfl, hneeds, hblank, hname, before, after, hattrs, hleft⟩ | h)
    · exact ⟨_, _, rfl, .loop (.inl hsome) hval hblank⟩
    · exact ⟨_, _, rfl, .binding before attr after hattrs (.inl hsome) hneeds hblank hleft
        fun _ => hname⟩
    · unfold Attr.missing? at h
      split at h
      · next hmissed =>
        rw [Bool.and_eq_true] at hmissed
        exact ⟨_, _, (Option.some.inj h).symm, .type hsome htype hmissed.2⟩
      · cases h
  · rintro ⟨name, span, rfl, hmisses⟩
    cases hmisses with
    | loop _ hval hblank => exact .inl ⟨rfl, _, hval, hblank⟩
    | condition hnone => rw [hnone] at he; cases he
    | branch hnone => rw [hnone] at he; cases he
    | binding before attr after hattrs _ hneeds hblank hleft hname =>
      exact .inr (.inl ⟨attr, rfl, hneeds, hblank, hname hsome, before, after, hattrs, hleft⟩)
    | type _ htype' hblank =>
      cases htype.symm.trans htype'
      refine .inr (.inr ?_)
      rw [Attr.missing?, hblank, show Element.needsValue ":type" by decide]
      rfl

/-- Any other start tag reports nothing if it is left as written, and else its structure and its
bindings. -/
theorem mem_missing_plain (hnone : t.expansion? = none) (written : Bool) :
    problem ∈ t.missing written ↔
      ∃ name span, problem = missingValue name span ∧ t.Misses written name span := by
  have hstart : t.missingAtStart written = if written then [] else t.element.missingStructure := by
    rw [missingAtStart, hnone]
    rfl
  have hend : t.missingAtEnd written = if written then [] else
      Element.missingBindings t.tag t.element.source t.attrs := by
    rw [missingAtEnd, hnone, isSome_none, Bool.or_false]
  rw [missing, hstart, hend]
  cases written with
  | true =>
    refine ⟨nofun, ?_⟩
    rintro ⟨name, span, rfl, hmisses⟩
    cases hmisses <;> simp_all
  | false =>
    show problem ∈ t.element.missingStructure ++
      Element.missingBindings t.tag t.element.source t.attrs ↔ _
    rw [Element.missingStructure, mem_append, mem_append, mem_append,
      mem_ite_nil_right, mem_missingAt_iff, mem_missingAt_iff, mem_missingAt_iff,
      Option.all_eq_true, mem_missingBindings_iff]
    constructor
    · rintro (((⟨rfl, _, hval, hblank⟩ | ⟨rfl, _, hval, hblank⟩) | ⟨hstart, rfl, _, hval, hblank⟩) |
        ⟨attr, rfl, hneeds, hblank, before, after, hattrs, hleft⟩)
      · exact ⟨_, _, rfl, .loop (.inr rfl) hval hblank⟩
      · exact ⟨_, _, rfl, .condition hnone rfl hval hblank⟩
      · exact ⟨_, _, rfl, .branch hnone rfl hstart hval hblank⟩
      · refine ⟨_, _, rfl, .binding before attr after hattrs (.inr rfl) hneeds hblank hleft ?_⟩
        rw [hnone]
        exact nofun
    · rintro ⟨name, span, rfl, hmisses⟩
      cases hmisses with
      | loop _ hval hblank => exact .inl (.inl (.inl ⟨rfl, _, hval, hblank⟩))
      | condition _ _ hval hblank => exact .inl (.inl (.inr ⟨rfl, _, hval, hblank⟩))
      | branch _ _ hstart hval hblank => exact .inl (.inr ⟨hstart, rfl, _, hval, hblank⟩)
      | binding before attr after hattrs _ hneeds hblank hleft _ =>
        exact .inr ⟨attr, rfl, hneeds, hblank, before, after, hattrs, hleft⟩
      | type hsome => rw [hnone] at hsome; cases hsome

theorem mem_missing_iff (t : Opening) (written : Bool) : problem ∈ t.missing written ↔
      ∃ name span, problem = missingValue name span ∧ t.Misses written name span := by
  cases he : t.expansion? with
  | none => exact mem_missing_plain he written
  | some e => exact mem_missing_expanded he written

/-- Why the blank value of an attribute of a tag is not reported, given the attributes before it. -/
inductive Overlooks (t : Opening) (front : List Attr) (attr : Attr) : Prop
  /-- The binding is taken without looking at its value. -/
  | taken (hname : attr.name ∈ t.taken) (hfirst : attr.name ∉ front.map (·.name))
  /-- A structural directive is written again with a value. -/
  | again {value : String} (hname : attr.name = "r-if" ∨ attr.name = "r-for")
      (hval : t.value? attr.name = some value) (hblank : isBlank value = false)
  /-- An expansion only uses the condition, and the type, in its own conditions. -/
  | condition (hsome : t.expansion?.isSome)
      (hname : attr.name = "r-if" ∨ attr.name = "r-bind:type")
  | type {type : String} (hsome : t.expansion?.isSome) (hname : attr.name = ":type")
      (htype : computedType? "r-" t.element = some type) (hblank : isBlank type = false)

theorem exists_value? (t : Opening) (attr : Attr) (hattr : attr ∈ t.attrs) :
    ∃ value, t.value? attr.name = some value := by
  have hwritten : t.has attr.name := List.any_eq_true.mpr ⟨attr, hattr, by simp⟩
  rw [← hasAttr_eq] at hwritten
  exact isSome_iff_exists.mp hwritten

theorem misses_of_not_overlooks {front back : List Attr} {attr : Attr}
    (hattrs : t.attrs = front ++ attr :: back) (hblank : isBlank attr.value)
    (hname : attr.name = "r-if" ∨ attr.name = "r-for" ∨ Element.needsValue attr.name)
    (hnot : ¬ t.Overlooks front attr) : ∃ span, t.Misses false attr.name span := by
  obtain ⟨value, hval⟩ := t.exists_value? attr (by simp [hattrs])
  have hlast (hname : attr.name = "r-if" ∨ attr.name = "r-for") : isBlank value := by
    by_contra hwritten
    exact hnot (.again hname hval (Bool.eq_false_iff.mpr hwritten))
  rcases hname with hif | hfor | hneeds
  · have hnone : t.expansion? = none := by
      by_contra hsome
      exact hnot (.condition (isSome_iff_ne_none.mpr hsome) (.inl hif))
    have hblank' := hlast (.inl hif)
    rw [hif] at hval ⊢
    exact ⟨_, .condition hnone rfl hval hblank'⟩
  · have hblank' := hlast (.inr hfor)
    rw [hfor] at hval ⊢
    exact ⟨_, .loop (.inr rfl) hval hblank'⟩
  · by_cases htype : t.expansion?.isSome ∧ attr.name = ":type"
    · obtain ⟨hsome, htype⟩ := htype
      obtain ⟨e, he⟩ := isSome_iff_exists.mp hsome
      obtain ⟨type, hcomputed, -⟩ := branches_expansion? he
      have hblank' : isBlank type := by
        by_contra hwritten
        exact hnot (.type hsome htype hcomputed (Bool.eq_false_iff.mpr hwritten))
      rw [htype]
      exact ⟨_, .type hsome hcomputed hblank'⟩
    · refine ⟨_, .binding front attr back hattrs (.inr rfl) hneeds hblank
        (fun h => hnot (.taken h.1 h.2)) fun hsome =>
          ⟨fun heq => htype ⟨hsome, heq⟩, fun heq => ?_⟩⟩
      exact hnot (.condition hsome (.inr heq))

end Opening

/-! ## Whole templates -/

/-- The tag is read from a source inside of the tags `above`, innermost first. -/
def Opening.ReadIn (o : Options) (source : String) (t : Opening) (above : List Opening) : Prop :=
  ∃ before unary after, above = before.foldl Opening.after [] ∧
    read o.tags o.comments source = before ++ .event (.opened t.tag t.attrs unary t.span) :: after

theorem Opening.exists_readIn_iff {source : String} {e : Located Problem} :
    (∃ signal before after, read o.tags o.comments source = before ++ signal :: after ∧
        e ∈ missingIn (before.foldl Opening.after []) signal) ↔
      ∃ (t : Opening) (above : List Opening), t.ReadIn o source above ∧
        e ∈ t.missing (written (t :: above)) := by
  constructor
  · rintro ⟨signal, before, after, hread, he⟩
    cases signal with
    | event event =>
      cases event with
      | opened tag attrs unary span =>
        exact ⟨⟨tag, attrs, span⟩, _, ⟨before, unary, after, rfl, hread⟩, he⟩
      | _ => cases he
    | _ => cases he
  · rintro ⟨t, _, ⟨before, unary, after, rfl, hread⟩, he⟩
    exact ⟨_, before, after, hread, he⟩

/-- The values that are found missing while a template is read are those that its start tags
miss. -/
theorem parse_tells (ho : o.IsWeb) (source : String) :
    (parse o source).Tells fun _ l => ∀ e, e ∈ l ↔
      ∃ (t : Opening) (above : List Opening), t.ReadIn o source above ∧
        e ∈ t.missing (Opening.written (t :: above)) := by
  refine .bind ((Builder.signals_tells ho (Builder.keeps_empty o) (Builder.tended_empty o) .nil
    source (List.Subset.refl _)).and (Builder.signals_read ho.usesWeb source)) ?_
  intro b l htold
  obtain ⟨⟨hmatches, htracks⟩, -, hstk⟩ := htold
  -- No start tag is open at the end, so nothing is owed any more.
  rw [hstk] at hmatches
  have htags := forall₂_nil_left_iff.mp hmatches
  simp only [htags, Opening.owed, not_mem_nil, or_false, false_or, Opening.exists_readIn_iff]
    at htracks
  split
  · refine .bindOmits (.error rfl none) (.pure ?_)
    rwa [append_nil]
  · refine .pure ?_
    rwa [append_nil]

theorem compileTree_tells (ho : o.IsWeb) (source : String) :
    (compileTree o source).Tells fun _ l => ∀ e, e ∈ l ↔
      ∃ (t : Opening) (above : List Opening), t.ReadIn o source above ∧
        e ∈ t.missing (Opening.written (t :: above)) := by
  obtain ⟨bodies, hbodies, -⟩ := ensures_compileTree ho.usesWeb source
  refine ⟨bodies, hbodies, ?_⟩
  obtain ⟨tree, htree, hall⟩ := parse_tells ho source
  have hnotes : (compileTree o source).notes.missing = (parse o source).notes.missing := by
    unfold compileTree optimizedTree
    simp only [map_eq_pure_bind, bind_assoc, pure_bind]
    rw [Outcome.notes_bind htree, Diagnostics.missing_append,
      (generate_omits ho.usesWeb.modules rfl rfl _).1.missing, append_nil]
  rwa [hnotes]

/-- Every template is compiled, and the values that are reported missing are those that its start
tags miss. In a tag whose content is not left as written, this is every condition, loop, two-way
binding and binding with a blank value that is not overlooked. -/
theorem compile_missingValues (o : Options) (ho : o.IsWeb) (template : String) :
    ∃ (out : Output) (errors : List (Located Problem)), compile o template = .ok out ∧
      out.errors = errors.map (fun e => withPlace (Text.trim template) e.cause.message e.span) ∧
      (∀ name place, ⟨.valueMissing name, place⟩ ∈ errors ↔
        ∃ (t : Opening) (above : List Opening) (span : Span),
          t.ReadIn o (Text.trim template) above ∧ place = some span ∧
          t.Misses (Opening.written (t :: above)) name span) ∧
      ∀ (t : Opening) (above : List Opening), t.ReadIn o (Text.trim template) above →
        Opening.written (t :: above) = false → ∀ front attr back, t.attrs = front ++ attr :: back →
          Text.isBlank attr.value = true →
          (attr.name = "r-if" ∨ attr.name = "r-for" ∨ Element.needsValue attr.name = true) →
          ¬ t.Overlooks front attr →
          ∃ span, withPlace (Text.trim template) ("Directive " ++ attr.name ++ " requires a value.")
            (some span) ∈ out.errors := by
  obtain ⟨bodies, hbodies, hmissing⟩ := compileTree_tells ho (trim template)
  have hreported (name : String) (place : Option Span) :
      ⟨.valueMissing name, place⟩ ∈ (compileTree o (trim template)).notes.errors ↔
        ∃ (t : Opening) (above : List Opening) (span : Span),
          t.ReadIn o (trim template) above ∧ place = some span ∧
          t.Misses (Opening.written (t :: above)) name span := by
    have hmem : ⟨.valueMissing name, place⟩ ∈ (compileTree o (trim template)).notes.errors ↔
        ⟨.valueMissing name, place⟩ ∈ (compileTree o (trim template)).notes.missing :=
      ⟨fun h => mem_filter.mpr ⟨h, rfl⟩, fun h => (mem_filter.mp h).1⟩
    rw [hmem, hmissing]
    constructor
    · rintro ⟨t, above, hread, he⟩
      obtain ⟨_, span, heq, hmisses⟩ := (t.mem_missing_iff _).mp he
      cases heq
      exact ⟨t, above, span, hread, rfl, hmisses⟩
    · rintro ⟨t, above, span, hread, rfl, hmisses⟩
      exact ⟨t, above, hread, (t.mem_missing_iff _).mpr ⟨name, span, rfl, hmisses⟩⟩
  refine ⟨_, (compileTree o (trim template)).notes.errors, compile_of_result hbodies, rfl,
    hreported, ?_⟩
  intro t above hread hwritten front attr back hattrs hblank hname hnot
  obtain ⟨span, hmisses⟩ := Opening.misses_of_not_overlooks hattrs hblank hname hnot
  rw [← hwritten] at hmisses
  exact ⟨span, List.mem_map_of_mem
    ((hreported attr.name span).mpr ⟨t, above, span, hread, rfl, hmisses⟩)⟩

/-- Of two bindings without a value, the key is overlooked and the other one is reported. -/
theorem compile_missingValues_key :
    Web.options.IsWeb ∧ ∃ out, compile Web.options "<p :key='' :id=''></p>" = .ok out ∧
      (∃ span, withPlace "<p :key='' :id=''></p>" "Directive :id requires a value." (some span) ∈
        out.errors) ∧
      out.errors = ["Directive :id requires a value. (line 1, column 12)"] := by
  obtain ⟨out, errors, hout, -, -, hall⟩ :=
    compile_missingValues options isWeb_options "<p :key='' :id=''></p>"
  refine ⟨isWeb_options, out, hout, ?_, ?_⟩
  · let t : Opening := ⟨"p", [⟨":key", "", ⟨3, 10⟩⟩, ⟨":id", "", ⟨11, 17⟩⟩], ⟨0, 18⟩⟩
    have hread : t.ReadIn options (trim "<p :key='' :id=''></p>") [] :=
      ⟨[], false, [.event (.closed "p" ⟨18, 22⟩)], rfl, by decide +kernel⟩
    refine hall t [] hread (by decide) [⟨":key", "", ⟨3, 10⟩⟩] ⟨":id", "", ⟨11, 17⟩⟩ [] rfl
      (by decide) (.inr (.inr (by decide))) ?_
    intro hover
    cases hover with
    | taken hname => exact absurd hname (by decide +kernel)
    | again hname => exact absurd hname (by decide)
    | condition _ hname => exact absurd hname (by decide)
    | type _ hname => exact absurd hname (by decide)
  · have hcheck : ((compile options "<p :key='' :id=''></p>").toOption.map (·.errors)) =
        some ["Directive :id requires a value. (line 1, column 12)"] := by
      decide +kernel
    rw [hout] at hcheck
    exact Option.some.inj hcheck

end TemplateCompiler
