import TemplateCompiler.Proofs.Outcome
import TemplateCompiler.Template.Builder

/-!
# What steps do not report

Each step of the compiler reports problems of a few kinds, and most steps report none of the kind
that a theorem is about. `Omits p x` says that no error of the step `x` is one that `p` picks out.
It is stated for any `p`, so that a lemma about a step names the kinds of problem that the step can
report, as what `p` must not pick out.

A chain of such steps is one too, whether or not an extension stops it on the way.
-/

namespace TemplateCompiler

open Markup

variable {p : Problem → Bool} {s : Settings} {b : Builder} {el : Element}

namespace Noted

variable {α β : Type}

def Omits (p : Problem → Bool) (n : Noted α) : Prop := ∀ e ∈ n.notes.errors, p e.cause = false

namespace Omits

theorem pure (a : α) : Omits p (Pure.pure a) := by
  intro e he
  cases he

theorem bind {n : Noted α} {f : α → Noted β} (hn : n.Omits p) (hf : (f n.value).Omits p) :
    (n >>= f).Omits p := by
  intro e he
  exact (List.mem_append.mp he).elim (hn e) (hf e)

theorem error {problem : Problem} (h : p problem = false) (span : Option Span) :
    (error problem span).Omits p := by
  intro e he
  rw [List.mem_singleton.mp he]
  exact h

theorem tip (advice : Advice) (span : Option Span) : (tip advice span).Omits p := by
  intro e he
  cases he

end Omits

end Noted

namespace Outcome

variable {α β : Type}

def Omits (p : Problem → Bool) (x : Outcome α) : Prop := ∀ e ∈ x.notes.errors, p e.cause = false

namespace Omits

theorem pure (a : α) : Omits p (Pure.pure a) := by
  intro e he
  cases he

theorem lift {n : Noted α} (h : n.Omits p) : Omits p (liftM n) := by
  intro e he
  rw [notes_lift] at he
  exact h e he

/-- What follows a step that fails is not run, and reports nothing. -/
theorem bind {x : Outcome α} {f : α → Outcome β} (hx : x.Omits p) (hf : ∀ a, (f a).Omits p) :
    (x >>= f).Omits p := by
  intro e he
  rcases List.mem_append.mp he with he | he
  · exact hx e he
  · have hcont : e ∈ (ExceptT.bindCont f x.run.value).notes.errors := he
    cases hval : x.run.value with
    | error failure =>
      rw [hval] at hcont
      cases hcont
    | ok a =>
      rw [hval] at hcont
      exact hf a e hcont

end Omits

end Outcome

/-! ## Attributes -/

namespace Element

theorem takeKey_omits (h : p .keyedTemplate = false) (s : Settings) (el : Element) :
    (el.takeKey s).Omits p := by
  unfold takeKey
  split
  · split
    · exact .bind (.error h _) (.pure _)
    · exact .pure _
  · exact .pure _

theorem takeSlot_omits (h : p .keyedSlot = false) (s : Settings) (el : Element) :
    (el.takeSlot s).Omits p := by
  unfold takeSlot
  split
  · unfold takeOutlet
    dsimp only
    split
    · exact .bind (.error h _) (.pure _)
    · exact .pure _
  · refine .bind ?_ (.pure _)
    unfold takeScope
    split
    · split
      · exact .bind (.tip _ _) (.pure _)
      · exact .pure _
    · dsimp only
      split
      · exact .bind (.tip _ _) (.pure _)
      · exact .pure _

theorem dropModifier_omits (attr : Attr) (ignored : String) (modifiers : List String) :
    (dropModifier attr ignored modifiers).Omits p := by
  unfold dropModifier
  split
  · exact .bind (.tip _ _) (.pure _)
  · exact .pure _

theorem addListener_omits (attr : Attr) (name : List Char)
    (modifiers : Option (List String)) : (el.addListener attr name modifiers).Omits p := by
  refine .bind ?_ ?_
  · cases modifiers with
    | none => exact .pure _
    | some modifiers =>
      exact .bind (dropModifier_omits _ _ _) (.bind (dropModifier_omits _ _ _) (.pure _))
  · split <;> exact .pure _

theorem addPlain_omits (s : Settings) (el : Element) (attr : Attr) :
    (el.addPlain s attr).Omits p := by
  unfold addPlain
  split
  · exact .bind (.tip _ _) (.pure _)
  · exact .pure _

end Element

/-! ## Start tags -/

theorem reportDuplicates_omits (h : ∀ name, p (.duplicateAttribute name) = false)
    (seen : List String) (attrs : List Attr) : (reportDuplicates seen attrs).Omits p := by
  induction attrs generalizing seen with
  | nil => exact .pure _
  | cons attr rest ih =>
    unfold reportDuplicates
    split
    · exact .bind (.error (h _) _) (ih _)
    · exact ih _

theorem reportForbidden_omits (h : ∀ tag, p (.sideEffectTag tag) = false) :
    (reportForbidden el).Omits p := by
  unfold reportForbidden
  split
  · exact .error (h _) _
  · exact .pure _

/-! ## Links -/

namespace Builder

theorem dropToElement_omits
    (h : ∀ text ifName elseName, p (.textBetweenBranches text ifName elseName) = false) (a : Ast)
    (siblings : List NodeId) : (dropToElement s a siblings).Omits p := by
  induction siblings with
  | nil => exact .pure _
  | cons first others ih =>
    unfold dropToElement
    split
    · exact .pure _
    · split
      · exact .bind (.error (h ..) _) ih
      · exact ih
    · exact ih

theorem attach_omits
    (htext : ∀ text ifName elseName, p (.textBetweenBranches text ifName elseName) = false)
    (hbr : ∀ branch tag ifName, p (.branchWithoutIf branch tag ifName) = false) (id : NodeId)
    (el : Element) : (b.attach s id el).Omits p := by
  unfold attach
  split
  · split
    · exact .pure _
    · unfold link
      split
      · refine .bind (dropToElement_omits htext b.ast _) ?_
        dsimp only
        split
        · exact .pure _
        · exact .bind (.error (hbr ..) _) (.pure _)
      · exact .pure _
  · exact .pure _

/-! ## The root -/

theorem reportRoot_omits {problem : Problem} (h : p problem = false)
    (span : Option Span) : (b.reportRoot problem span).Omits p := by
  unfold reportRoot
  split
  · exact .pure _
  · exact .bind (.error h _) (.pure _)

section

variable (htag : ∀ tag, p (.rootOfManyNodes tag) = false)
  (hloop : ∀ loop, p (.rootLoops loop) = false)

include htag hloop

theorem checkRoot_omits : (b.checkRoot s el).Omits p := by
  have hchecked (b : Builder) : (if el.hasAttr (s.directive "for") then
      b.reportRoot (.rootLoops (s.directive "for")) el.span else pure b).Omits p := by
    split
    · exact reportRoot_omits (hloop _) _
    · exact .pure _
  unfold checkRoot
  dsimp only
  split
  · exact .bind (reportRoot_omits (htag _) _) (hchecked _)
  · exact hchecked b

theorem withRoot_omits (id : NodeId) : (b.withRoot s id el).Omits p := by
  unfold withRoot
  split
  · exact checkRoot_omits htag hloop
  · exact .pure _

theorem settle_omits (hmany : p .manyRoots = false) (s : Settings)
    (b : Builder) (id : NodeId) (el : Element) : (b.settle s id el).Omits p := by
  unfold settle
  split
  · unfold addToRoot
    split
    · exact .bind (checkRoot_omits htag hloop) (.pure _)
    · exact reportRoot_omits hmany _
  · exact .pure _

end

theorem textOutside_omits (honly : p .onlyText = false)
    (htext : ∀ text, p (.textOutsideRoot text) = false) (source : String) (b : Builder)
    (content : String) : (b.textOutside source content).Omits p := by
  unfold textOutside
  split
  · exact reportRoot_omits honly none
  · split
    · exact .pure _
    · exact .bind (.error (htext _) _) (.pure _)

end Builder

end TemplateCompiler
