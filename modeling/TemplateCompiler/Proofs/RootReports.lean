import TemplateCompiler.Proofs.Building
import TemplateCompiler.Proofs.Omission

/-!
# What is reported about the root

A template has one root element, and the builder says so at most once. Root problems are found in
four places (text that is all of the template, a first element that cannot be a root, an element too
many, and nothing at all in the end), which share one flag. `Outcome.Accounts o x P` counts them:
the step `x` gives a result, and `P` holds of it and of the number of root problems that `x` has
reported itself. What an extension reports is not counted, whatever it is about.

The other half follows an element from its start tag at the top level (`Builder.Settled`): it is the
root, or the outermost open element, or a branch in the chain of the root, unless a root problem has
been reported. Only the chain of the element that is being closed can change in other ways than by
growing, and no branch is added to the root while it is open.
-/

namespace TemplateCompiler

open Markup List Builder

variable {problem : Problem} {o : Options} {el : Element} {s : Settings}
  {source tag content name : String}
  {modules : List Module} {above : List Element}

def Problem.isAboutRoot : Problem → Bool
  | .rootOfManyNodes _ => true
  | .rootLoops _ => true
  | .manyRoots => true
  | .noRoot => true
  | .onlyText => true
  | _ => false

def Diagnostics.rootErrors (d : Diagnostics) : List (Located Problem) :=
  d.errors.filter (·.cause.isAboutRoot)

namespace Options

/-- No extension fails when the builder runs it. -/
structure HooksSucceed (o : Options) : Prop where
  expand : ∀ m ∈ o.modules, ∀ el, ∃ e, (m.expand o.toSettings el).result = .ok e
  transform : ∀ m ∈ o.modules, ∀ el, ∃ el', (m.transform o.toSettings el).result = .ok el'
  handler : ∀ name handler, o.directives.get? name = some handler →
    ∀ el dir, ∃ r, (handler o.toSettings el dir).result = .ok r

/-- An extension reports the error when it is run on some element. -/
inductive HookReports (o : Options) (e : Located Problem) : Prop
  | expand (m : Module) (hm : m ∈ o.modules) (el : Element)
      (he : e ∈ (m.expand o.toSettings el).notes.errors)
  | transform (m : Module) (hm : m ∈ o.modules) (el : Element)
      (he : e ∈ (m.transform o.toSettings el).notes.errors)
  | handler (name : String) (handler : DirectiveHandler)
      (hname : o.directives.get? name = some handler) (el : Element) (dir : Directive)
      (he : e ∈ (handler o.toSettings el dir).notes.errors)

end Options

/-! ## Counting root problems -/

/-- Among the reports are `n` root problems, apart from those of extensions. -/
def Diagnostics.Counts (o : Options) (n : Nat) (d : Diagnostics) : Prop :=
  ∃ own others, d.rootErrors.Perm (own ++ others) ∧ (∀ e ∈ others, o.HookReports e) ∧ own.length = n

namespace Diagnostics.Counts

variable {o : Options} {d d' : Diagnostics} {n n' : Nat}

theorem zero (h : ∀ e ∈ d.rootErrors, o.HookReports e) : d.Counts o 0 :=
  ⟨[], d.rootErrors, List.Perm.refl _, h, rfl⟩

theorem append (h : d.Counts o n) (h' : d'.Counts o n') : (d ++ d').Counts o (n + n') := by
  obtain ⟨own, others, hperm, hothers, hown⟩ := h
  obtain ⟨own', others', hperm', hoth', hown'⟩ := h'
  refine ⟨own ++ own', others ++ others', ?_, fun e he => ?_, ?_⟩
  · have hsplit : (d ++ d').rootErrors = d.rootErrors ++ d'.rootErrors := filter_append ..
    rw [hsplit, List.append_assoc]
    refine (hperm.append hperm').trans ?_
    rw [List.append_assoc]
    refine List.Perm.append_left _ ?_
    rw [← List.append_assoc, ← List.append_assoc]
    exact List.Perm.append_right _ perm_append_comm
  · exact (mem_append.mp he).elim (hothers e) (hoth' e)
  · rw [length_append, hown, hown']

end Diagnostics.Counts

namespace Noted

variable {α β : Type} {o : Options}

/-- The step reports `n` root problems, and `P` holds of its value and of `n`. -/
def Accounts (o : Options) (x : Noted α) (P : α → Nat → Prop) : Prop :=
  ∃ n, x.notes.Counts o n ∧ P x.value n

abbrev Unrooted (n : Noted α) : Prop := n.Omits Problem.isAboutRoot

theorem Unrooted.accounts {x : Noted α} {P : α → Nat → Prop} (h : x.Unrooted) (hP : P x.value 0) :
    x.Accounts o P := by
  refine ⟨0, .zero fun e he => ?_, hP⟩
  obtain ⟨hmem, hroot⟩ := mem_filter.mp he
  rw [h e hmem] at hroot
  cases hroot

namespace Accounts

variable {x : Noted α} {P : α → Nat → Prop}

theorem pure {a : α} (h : P a 0) : Accounts o (Pure.pure a) P :=
  ⟨0, .zero (fun e he => by cases he), h⟩

theorem mono {Q : α → Nat → Prop} (hx : x.Accounts o P) (h : ∀ a n, P a n → Q a n) :
    x.Accounts o Q := by
  obtain ⟨n, hn, hP⟩ := hx
  exact ⟨n, hn, h _ n hP⟩

theorem error {P : Unit → Nat → Prop} (h : problem.isAboutRoot)
    (span : Option Span) (hP : P () 1) : (Noted.error problem span).Accounts o P := by
  refine ⟨1, ⟨[⟨problem, span⟩], [], ?_, (fun e he => by cases he), rfl⟩, hP⟩
  have hfilter : (Noted.error problem span).notes.rootErrors = [⟨problem, span⟩] :=
    filter_cons_of_pos h
  rw [hfilter]
  exact List.Perm.refl _

theorem bind {f : α → Noted β} {Q : β → Nat → Prop} (hx : x.Accounts o P)
    (hf : ∀ a n, P a n → (f a).Accounts o fun b m => Q b (n + m)) : (x >>= f).Accounts o Q := by
  obtain ⟨n, hn, hP⟩ := hx
  obtain ⟨m, hm, hQ⟩ := hf _ n hP
  exact ⟨n + m, hn.append hm, hQ⟩

end Accounts

end Noted

namespace Outcome

variable {α β : Type} {o : Options}

/-- The step gives a result, with `n` reports of its own about the root, and `P` holds of both. -/
def Accounts (o : Options) (x : Outcome α) (P : α → Nat → Prop) : Prop :=
  ∃ a n, x.result = .ok a ∧ x.notes.Counts o n ∧ P a n

/-- The step gives a result and reports nothing about the root. -/
def Quiet (o : Options) (x : Outcome α) : Prop := x.Accounts o fun _ n => n = 0

namespace Accounts

variable {x : Outcome α} {P : α → Nat → Prop} {Q : β → Nat → Prop} {f : α → Outcome β}

theorem pure {a : α} (h : P a 0) : Accounts o (Pure.pure a) P :=
  ⟨a, 0, rfl, .zero (fun e he => by cases he), h⟩

theorem mono {Q : α → Nat → Prop} (hx : x.Accounts o P) (h : ∀ a n, P a n → Q a n) :
    x.Accounts o Q := by
  obtain ⟨a, n, ha, hn, hP⟩ := hx
  exact ⟨a, n, ha, hn, h a n hP⟩

theorem andYields {Q : α → Prop} (hx : x.Accounts o P) (h : x.Yields Q) :
    x.Accounts o fun a n => P a n ∧ Q a := by
  obtain ⟨a, n, ha, hn, hP⟩ := hx
  exact ⟨a, n, ha, hn, hP, h a ha⟩

theorem bind (hx : x.Accounts o P)
    (hf : ∀ a n, P a n → (f a).Accounts o fun b m => Q b (n + m)) : (x >>= f).Accounts o Q := by
  obtain ⟨a, n, ha, hn, hP⟩ := hx
  obtain ⟨b, m, hb, hm, hQ⟩ := hf a n hP
  refine ⟨b, n + m, ?_, ?_, hQ⟩
  · rw [result_bind, ha]
    exact hb
  · rw [notes_bind ha]
    exact hn.append hm

theorem lift {x : Noted α} (h : x.Accounts o P) : Accounts o (liftM x) P := by
  obtain ⟨n, hn, hP⟩ := h
  exact ⟨x.value, n, rfl, by rwa [notes_lift], hP⟩

theorem bindLift {x : Noted α} (hx : x.Unrooted)
    (hf : (f x.value).Accounts o Q) : Accounts o (liftM x >>= f) Q := by
  refine bind (P := fun a n => a = x.value ∧ n = 0) (lift (hx.accounts ⟨rfl, rfl⟩)) ?_
  rintro a n ⟨rfl, rfl⟩
  exact hf.mono fun b m h => by rwa [Nat.zero_add]

theorem bindQuiet (hx : x.Quiet o) (hf : ∀ a, (f a).Accounts o Q) : (x >>= f).Accounts o Q := by
  refine bind hx fun a n hn => (hf a).mono fun b m h => ?_
  rwa [hn, Nat.zero_add]

end Accounts

namespace Quiet

variable {x : Outcome α}

theorem pure (a : α) : Quiet o (Pure.pure a) := Accounts.pure rfl

theorem bind {f : α → Outcome β} (hx : x.Quiet o) (hf : ∀ a, (f a).Quiet o) : (x >>= f).Quiet o :=
  Accounts.bind hx fun a n hn => (hf a).mono fun _ m hm => by rw [hn, hm]

theorem lift {x : Noted α} (h : x.Unrooted) : Quiet o (liftM x) :=
  Accounts.lift (h.accounts rfl)

theorem hook (hres : ∃ a, x.result = .ok a) (h : ∀ e ∈ x.notes.errors, o.HookReports e) :
    x.Quiet o := by
  obtain ⟨a, ha⟩ := hres
  exact ⟨a, 0, ha, .zero fun e he => h e (mem_filter.mp he).1, rfl⟩

end Quiet

end Outcome

/-! ## Elements -/

namespace Element

open Noted

section

variable (s : Settings)

theorem takeValued_unrooted : (el.takeValued s name).Unrooted := by
  unfold takeValued
  split
  · split
    · exact .bind (.error rfl _) (.pure _)
    · exact .pure _
  · exact .pure _

theorem takeLoop_unrooted : (el.takeLoop s).Unrooted := by
  refine .bind (takeValued_unrooted s) ?_
  obtain ⟨exp | exp, el'⟩ := (el.takeValued s "for").value
  · exact .pure _
  · dsimp only
    split
    · exact .pure _
    · exact .bind (.error rfl _) (.pure _)

theorem takeCondition_unrooted (id : NodeId) : (el.takeCondition s id).Unrooted := by
  refine .bind (takeValued_unrooted s) ?_
  obtain ⟨exp | exp, el'⟩ := (el.takeValued s "if").value
  · exact .bind (takeValued_unrooted s) (.pure _)
  · exact .pure _

theorem addBinding_unrooted (attr : Attr) (name : List Char)
    (modifiers : List String) : (el.addBinding s attr name modifiers).Unrooted := by
  unfold addBinding
  split
  · exact .bind (.error rfl _) (.pure _)
  · exact .pure _

theorem addWrittenDirective_unrooted (above : List Element) (attr : Attr)
    (directive : Directive) : (el.addWrittenDirective s above attr directive).Unrooted := by
  unfold addWrittenDirective
  split
  · split
    · exact .bind (.error rfl _) (.pure _)
    · split
      · exact .bind (.error rfl _) (.pure _)
      · exact .pure _
  · exact .pure _

theorem addAttributes_unrooted (above : List Element) (attrs : List Attr)
    (el : Element) : (addAttributes s above attrs el).Unrooted := by
  induction attrs generalizing el with
  | nil => exact .pure _
  | cons attr rest ih =>
    refine .bind ?_ (ih _)
    unfold addAttribute
    dsimp only
    split
    · exact addPlain_omits s el attr
    · split
      · exact addBinding_unrooted s attr _ _
      · split
        · exact addListener_omits attr _ _
        · exact addWrittenDirective_unrooted s above attr _

end

/-! ## Extensions -/

section Extensions

variable {o : Options} (ho : o.HooksSucceed)
include ho

theorem transformAll_quiet (hmods : modules ⊆ o.modules)
    (el : Element) : (transformAll o.toSettings modules el).Quiet o := by
  induction modules generalizing el with
  | nil => exact .pure _
  | cons m rest ih =>
    have hm : m ∈ o.modules := hmods (by simp)
    exact .bind (.hook (ho.transform m hm el) fun e he => .transform m hm el he)
      (ih fun x hx => hmods (by simp [hx]))

theorem runHandlers_quiet (directives : List Directive) (el : Element) :
    (runHandlers o directives el).Quiet o := by
  induction directives generalizing el with
  | nil => exact .pure _
  | cons directive rest ih =>
    refine .bind ?_ fun r => .bind (ih r.1) fun r' => .pure _
    unfold runHandler
    split
    · next handler hname =>
      exact .bind (.hook (ho.handler _ handler hname el directive)
        fun e he => .handler _ handler hname el directive he) fun _ => .pure _
    · exact .bind (.lift (.tip _ _)) fun _ => .pure _

theorem process_quiet : (el.process o above).Quiet o := by
  refine .bind (.lift (takeKey_omits rfl _ _)) fun el => ?_
  refine .bind (.lift (takeSlot_omits rfl _ _)) fun el => ?_
  refine .bind (transformAll_quiet ho (List.Subset.refl _) _) fun el => ?_
  refine .bind (.lift (addAttributes_unrooted _ above _ el)) fun el => ?_
  refine .bind ?_ fun _ => .pure _
  exact .bind (runHandlers_quiet ho _ _) fun _ => .pure _

end Extensions

end Element

section Expansions

variable {o : Options} (ho : o.HooksSucceed)
include ho

theorem branchElement_quiet (first : Bool)
    (branch : Branch) : (branchElement o above el first branch).Quiet o := by
  refine .bind (.lift ?_) fun clone => Element.process_quiet ho
  unfold Element.takeLoopIf
  split
  · exact Element.takeLoop_unrooted _
  · exact .pure _

theorem otherBranches_quiet (branches : List Branch) :
    (otherBranches o above el branches).Quiet o := by
  induction branches with
  | nil => exact .pure _
  | cons branch rest ih =>
    exact .bind (branchElement_quiet ho false branch) fun _ => .bind ih fun _ => .pure _

theorem expansion?_quiet (hmods : modules ⊆ o.modules) :
    (expansion? o.toSettings el modules).Quiet o := by
  induction modules with
  | nil => exact .pure _
  | cons m rest ih =>
    have hm : m ∈ o.modules := hmods (by simp)
    refine .bind (.hook (ho.expand m hm el) fun e he => .expand m hm el he) fun r => ?_
    cases r with
    | none => exact ih fun x hx => hmods (by simp [hx])
    | some e => exact .pure _

end Expansions

/-! ## Chains of conditions grow -/

namespace Ast

variable {a a' a'' : Ast} {id skip : NodeId}

/-- The element with number `id` is rendered in the place of the root: it is the root, or a branch
in its chain. -/
def AtRoot (a : Ast) (id : NodeId) : Prop :=
  a.root = some id ∨
    ∃ r el, a.root = some r ∧ a.element? r = some el ∧ ∃ c ∈ el.conditions, c.block = id

/-- The tree grows, and so does the chain of each element but one. -/
structure ChainsGrow (skip : NodeId) (a a' : Ast) : Prop extends Extends a a' where
  chain : ∀ x el, x ≠ skip → a.element? x = some el →
    ∃ el', a'.element? x = some el' ∧ el.conditions ⊆ el'.conditions

namespace ChainsGrow

theorem refl (skip : NodeId) (a : Ast) : a.ChainsGrow skip a :=
  ⟨.refl a, fun _ el _ hel => ⟨el, hel, List.Subset.refl _⟩⟩

theorem trans (h : a.ChainsGrow skip a') (h' : a'.ChainsGrow skip a'') : a.ChainsGrow skip a'' := by
  refine ⟨h.toExtends.trans h'.toExtends, fun x el hx hel => ?_⟩
  obtain ⟨el', hel', hsub⟩ := h.chain x el hx hel
  obtain ⟨el'', hel'', hsub'⟩ := h'.chain x el' hx hel'
  exact ⟨el'', hel'', List.Subset.trans hsub hsub'⟩

theorem push (skip : NodeId) (a : Ast) (parent : Option NodeId) (kind : NodeKind) :
    a.ChainsGrow skip (a.push parent kind) := by
  refine ⟨.push .., fun x el _ hel => ⟨el, ?_, List.Subset.refl _⟩⟩
  rwa [element?_push_of_lt (lt_size_of_element? hel)]

theorem pushElements (skip : NodeId) (a : Ast) (parent : Option NodeId) (els : List Element) :
    a.ChainsGrow skip (a.pushElements parent els) := by
  induction els generalizing a with
  | nil => exact refl skip a
  | cons el rest ih => exact (push skip a parent (.element el)).trans (ih _)

theorem modifyElement (skip : NodeId) (a : Ast) (id : NodeId) {f : Element → Element}
    (hf : ∀ el, el.conditions ⊆ (f el).conditions) : a.ChainsGrow skip (a.modifyElement id f) := by
  refine ⟨.modifyElement .., fun x el _ hel => ?_⟩
  by_cases hx : id = x
  · subst hx
    exact ⟨f el, element?_modifyElement_self hel, hf el⟩
  · exact ⟨el, by rwa [element?_modifyElement_of_ne hx], List.Subset.refl _⟩

theorem setElement (a : Ast) (id : NodeId) (el : Element) :
    a.ChainsGrow id (a.setElement id el) := by
  refine ⟨.modifyElement .., fun x elx hx hel => ⟨elx, ?_, List.Subset.refl _⟩⟩
  rwa [Ast.setElement, element?_modifyElement_of_ne (Ne.symm hx)]

theorem reroot (skip : NodeId) (a : Ast) (root : Option NodeId) :
    a.ChainsGrow skip { a with root } :=
  ⟨⟨Nat.le_refl _, fun _ _ => rfl, fun _ hx => hx⟩, fun _ el _ hel => ⟨el, hel, List.Subset.refl _⟩⟩

theorem relinks {parent : Option NodeId} {el : Element} (skip : NodeId)
    (h : a.Relinks parent id el a') : a.ChainsGrow skip a' := by
  induction h with
  | refl => exact refl skip a
  | children x _ _ ih => exact ih.trans (modifyElement skip _ x fun _ => List.Subset.refl _)
  | branch head _ _ ih => exact ih.trans (modifyElement skip _ head fun _ => subset_append_left _ _)
  | slot _ _ _ _ _ ih => exact ih.trans (modifyElement skip _ _ fun _ => List.Subset.refl _)

end ChainsGrow

/-- What has its place at the root keeps it when its own element is changed. -/
theorem AtRoot.setElement (h : a.AtRoot id) (el : Element) : (a.setElement id el).AtRoot id := by
  rcases h with hroot | ⟨r, elr, hroot, hel, hblock⟩
  · exact .inl hroot
  · by_cases hr : id = r
    · exact .inl (hr ▸ hroot)
    · exact .inr ⟨r, elr, hroot, by rwa [Ast.setElement, element?_modifyElement_of_ne hr], hblock⟩

end Ast

namespace Builder

open Noted

variable {o : Options} {b b' b'' : Builder} {id : NodeId} {n n' : Nat}

/-! ## Reports of the builder -/

/-- Going from `b` to `b'`, `n` root problems were reported: one if the flag has been set. -/
def Reports (b b' : Builder) (n : Nat) : Prop :=
  b.rootReported.toNat + n = b'.rootReported.toNat

theorem Reports.trans (h : b.Reports b' n) (h' : b'.Reports b'' n') : b.Reports b'' (n + n') := by
  unfold Reports at *
  omega

theorem reportRoot_accounts (b : Builder) (h : problem.isAboutRoot) (span : Option Span) :
    (b.reportRoot problem span).Accounts o fun b' n =>
      b.Reports b' n ∧ b' = { b with rootReported := true } := by
  unfold reportRoot
  split
  · next hreported => exact .pure ⟨rfl, by rw [← hreported]⟩
  · next hreported =>
    refine .bind (P := fun _ n => n = 1) (.error h _ rfl) fun _ n hn => .pure ⟨?_, rfl⟩
    simp [Reports, hreported, hn]

theorem checkRoot_accounts (s : Settings) (b : Builder) (el : Element) :
    (b.checkRoot s el).Accounts o fun b' n =>
      b.Reports b' n ∧ ∃ rootReported, b' = { b with rootReported } := by
  suffices h : (b.checkRoot s el).Accounts o b.Reports by
    obtain ⟨n, hn, hreports⟩ := h
    exact ⟨n, hn, hreports, checkRoot_eq s b el⟩
  have hloop (b' : Builder) (n : Nat) (h : b.Reports b' n) : (if el.hasAttr (s.directive "for") then
        b'.reportRoot (.rootLoops (s.directive "for")) el.span
      else pure b').Accounts o fun b'' m => b.Reports b'' (n + m) := by
    split
    · exact (reportRoot_accounts b' rfl _).mono fun b'' m h' => h.trans h'.1
    · exact .pure h
  unfold checkRoot
  dsimp only
  split
  · exact .bind (reportRoot_accounts b rfl _) fun b' n h => hloop b' n h.1
  · exact .bind (.pure rfl) hloop

/-! ## Closing an element -/

theorem structured_unrooted : (b.structured s id el).Unrooted := by
  unfold structured
  split
  · exact .pure _
  · split
    · exact .pure _
    · exact .bind (Element.takeLoop_unrooted s)
        (.bind (Element.takeCondition_unrooted s id) (.pure _))

/-- How the builder goes on from `b` to `b'` with `n` root problems: the stack is the same, and only
the element with number `id` is changed in other ways than by growing. -/
structure Goes (id : NodeId) (b b' : Builder) (n : Nat) : Prop where
  reports : b.Reports b' n
  stack : b'.stack = b.stack
  grows : b.ast.ChainsGrow id b'.ast

theorem Goes.refl (id : NodeId) (b : Builder) : b.Goes id b 0 := ⟨rfl, rfl, .refl id _⟩

theorem Goes.trans (h : b.Goes id b' n) (h' : b'.Goes id b'' n') : b.Goes id b'' (n + n') :=
  ⟨h.reports.trans h'.reports, h'.stack.trans h.stack, h.grows.trans h'.grows⟩

theorem Goes.ofAst {a : Ast} (h : b.ast.ChainsGrow id a) :
    b.Goes id { b with ast := a } 0 := ⟨rfl, rfl, h⟩

theorem attach_goes (skip : NodeId) (s : Settings) (b : Builder) (id : NodeId) (el : Element) :
    b.Goes skip (b.attach s id el).value 0 ∧ (b.attach s id el).value.ast.root = b.ast.root := by
  cases hp : b.parent? with
  | none =>
    rw [attach_of_nil (head?_eq_none_iff.mp hp)]
    exact ⟨.refl skip b, rfl⟩
  | some p =>
    obtain ⟨a, heq, hjoins⟩ := attach_joins s id el hp fun _ => trivial
    rw [heq]
    exact ⟨.ofAst (.relinks skip hjoins.relinks), hjoins.relinks.root⟩

/-- An element at the top level is given its place at the root, or a root problem is reported. -/
theorem settle_accounts :
    (b.settle s id el).Accounts o fun b' n => b.Goes id b' n ∧ b'.ast.root = b.ast.root ∧
      (b.stack = [] → b'.rootReported ∨ b'.ast.AtRoot id) := by
  unfold settle
  split
  · unfold addToRoot
    split
    · next root heq =>
      obtain ⟨hroot, hcond⟩ := Option.filter_eq_some_iff.mp heq
      simp only [Bool.and_eq_true, Option.any_eq_true] at hcond
      obtain ⟨-, rootEl, hel, -⟩ := hcond
      refine .bind (checkRoot_accounts s b el) ?_
      rintro b' n ⟨hreports, reported, rfl⟩
      refine .pure ⟨⟨hreports, rfl, .modifyElement id _ _ fun el => subset_append_left _ _⟩, rfl,
        fun _ => .inr (.inr ?_)⟩
      refine ⟨root, _, hroot, Ast.element?_modifyElement_self hel, ⟨el.elseIf, id⟩, ?_, rfl⟩
      exact mem_append_right _ (mem_singleton_self _)
    · refine (reportRoot_accounts b rfl _).mono ?_
      rintro b' n ⟨hreports, rfl⟩
      exact ⟨⟨hreports, rfl, .refl id _⟩, rfl, fun _ => .inl rfl⟩
  · next htop =>
    refine .pure ⟨⟨rfl, rfl, .refl id _⟩, rfl, fun hstack => .inr (.inl ?_)⟩
    simpa [hstack] using htop

theorem close_accounts (ho : o.HooksSucceed) (b : Builder) (hid : (b.ast.element? id).isSome) :
    (b.close o id).Accounts o fun b' n => b.Goes id b' n ∧ b'.ast.root = b.ast.root ∧
      (b.stack = [] → b'.rootReported ∨ b'.ast.AtRoot id) := by
  obtain ⟨el, hel⟩ := Option.isSome_iff_exists.mp hid
  unfold close
  rw [hel]
  refine .bindQuiet ?_ fun el' => ?_
  · unfold finished
    split
    · exact .pure _
    · exact Element.process_quiet ho
  refine .bind (.lift settle_accounts) ?_
  rintro b₁ n ⟨hgoes, hroot, hplace⟩
  obtain ⟨hattach, hroot'⟩ := attach_goes id o.toSettings
    { b₁ with ast := b₁.ast.setElement id el' } id el'
  have hset := Goes.ofAst (Ast.ChainsGrow.setElement b₁.ast id el')
  have hall := (hgoes.trans hset).trans hattach
  refine .bindLift (attach_omits (fun _ _ _ => rfl) (fun _ _ _ => rfl) _ _) ?_
  refine .pure ⟨⟨hall.reports, hall.stack, hall.grows⟩, ?_, fun hstack => ?_⟩
  · exact hroot'.trans hroot
  · -- Nothing is open, so there is nothing to attach the element to.
    rw [attach_of_nil (by exact hgoes.stack.trans hstack)]
    exact (hplace hstack).imp_right (·.setElement el')

/-! ## Taking a start tag -/

theorem expanded_accounts (ho : o.HooksSucceed) :
    (b.expanded o id el).Accounts o fun r n => b.Goes id r.1 n ∧ r.1.ast.root = b.ast.root := by
  refine .bindQuiet (expansion?_quiet ho (List.Subset.refl _)) fun e => ?_
  cases e with
  | none => exact .pure ⟨.refl id b, rfl⟩
  | some e =>
    unfold expand
    dsimp only
    split
    · exact .pure ⟨.refl id b, rfl⟩
    · refine .bindQuiet (branchElement_quiet ho _ _) fun head => ?_
      refine .bindQuiet (otherBranches_quiet ho _) fun others => .pure ⟨?_, ?_⟩
      · exact .ofAst (.pushElements id _ _ _)
      · exact Ast.root_pushElements ..

theorem withRoot_accounts : (b.withRoot s id el).Accounts o fun b' n =>
      b.Goes id b' n ∧ b'.ast.root = b.ast.root.or (some id) := by
  suffices h : (b.withRoot s id el).Accounts o b.Reports by
    obtain ⟨n, hn, hreports⟩ := h
    obtain ⟨reported, heq⟩ := withRoot_eq s b id el
    rw [heq] at hreports
    refine ⟨n, hn, ?_⟩
    rw [heq]
    exact ⟨⟨hreports, rfl, .reroot id ..⟩, rfl⟩
  unfold withRoot
  split
  · exact (checkRoot_accounts s _ el).mono fun b' n h => h.1
  · exact .pure rfl

theorem placed_accounts (ho : o.HooksSucceed) (attrs : List Attr) (span : Span) :
    (b.placed o tag attrs span).Accounts o fun b' n => b.Goes b.ast.nodes.size b' n ∧
      b'.ast.root = b.ast.root.or (some b.ast.nodes.size) ∧
      (b'.ast.element? b.ast.nodes.size).isSome := by
  unfold placed
  dsimp only [Ast.nextId]
  generalize b.newElement o.toSettings tag attrs span = new
  refine .bindLift (reportDuplicates_omits (fun _ => rfl) _ _)
    (.bindLift (reportForbidden_omits (fun _ => rfl)) ?_)
  refine .bind (expanded_accounts ho) ?_
  rintro ⟨b₁, el⟩ n ⟨hexpanded, hroot⟩
  refine .bindLift structured_unrooted ?_
  refine .bind (.lift withRoot_accounts) ?_
  rintro b₂ m ⟨hrooted, hroot'⟩
  have hpushed := Goes.ofAst (.push b.ast.nodes.size b.ast b.parent? (.element new))
  have henter : b₁.Goes b.ast.nodes.size (b₁.enter o.toSettings el).1 0 := ⟨rfl, rfl, .refl _ _⟩
  have hset := Goes.ofAst (Ast.ChainsGrow.setElement b₂.ast b.ast.nodes.size
    ((b₁.enter o.toSettings el).1.structured o.toSettings b.ast.nodes.size
      (b₁.enter o.toSettings el).2).value)
  have hall := (((hpushed.trans hexpanded).trans henter).trans hrooted).trans hset
  refine .pure ⟨?_, ?_, ?_⟩
  · rwa [Nat.zero_add] at hall
  · exact hroot'.trans (congrArg (Option.or · (some b.ast.nodes.size)) hroot)
  · show ((b₂.ast.modifyElement _ _).element? _).isSome
    rw [Ast.isSome_element?_modifyElement]
    have hnew := Option.isSome_of_eq_some (Ast.element?_push_self b.ast b.parent? new)
    exact hrooted.grows.element _ (hexpanded.grows.element _ hnew)

/-! ## All signals -/

/-- What holds of the builder between two signals. -/
structure Steady (b : Builder) : Prop where
  opened : ∀ x ∈ b.stack, (b.ast.element? x).isSome
  root : ∀ r ∈ b.ast.root, (b.ast.element? r).isSome

/-- The element has its place at the root or is on the way there, unless that has been reported. No
branch is added to the chain of the root before the root is closed. -/
def Settled (b : Builder) (id : NodeId) : Prop :=
  b.rootReported ∨ b.ast.root = some id ∨ b.stack.getLast? = some id ∨
    ∃ r el, b.ast.root = some r ∧ r ∉ b.stack ∧ b.ast.element? r = some el ∧
      ∃ c ∈ el.conditions, c.block = id

/-- When no element is open, an element that is settled has its place. -/
theorem settled_iff (hstack : b.stack = []) :
    b.Settled id ↔ b.rootReported ∨ b.ast.AtRoot id := by
  unfold Settled Ast.AtRoot
  simp [hstack]

/-- What some signals keep, with `n` root problems reported. -/
structure Proceeds (b b' : Builder) (n : Nat) : Prop where
  reports : b.Reports b' n
  steady : b'.Steady
  settled : ∀ id, b.Settled id → b'.Settled id

theorem Proceeds.refl (h : b.Steady) : b.Proceeds b 0 := ⟨rfl, h, fun _ h => h⟩

theorem Proceeds.trans (h : b.Proceeds b' n) (h' : b'.Proceeds b'' n') : b.Proceeds b'' (n + n') :=
  ⟨h.reports.trans h'.reports, h'.steady, fun id hid => h'.settled id (h.settled id hid)⟩

theorem Reports.mono (h : b.Reports b' n) (hb : b.rootReported) :
    b'.rootReported := by
  unfold Reports at h
  rw [hb] at h
  cases hb' : b'.rootReported with
  | true => rfl
  | false =>
    rw [hb'] at h
    cases (Nat.eq_zero_of_add_eq_zero h).1

theorem Settled.grow {skip : NodeId} (h : b.Settled id) (hreports : b.Reports b' n)
    (hgrows : b.ast.ChainsGrow skip b'.ast)
    (hroot : ∀ r, b.ast.root = some r → b'.ast.root = some r)
    (hlast : b.stack.getLast? = some id → b'.Settled id)
    (hstack : ∀ r el, b.ast.element? r = some el → r ∉ b.stack → r ∉ b'.stack ∧ r ≠ skip) :
    b'.Settled id := by
  rcases h with h | h | h | ⟨r, el, hr, hopen, hel, c, hc, hblock⟩
  · exact .inl (hreports.mono h)
  · exact .inr (.inl (hroot id h))
  · exact hlast h
  · obtain ⟨hclosed, hskip⟩ := hstack r el hel hopen
    obtain ⟨el', hel', hsub⟩ := hgrows.chain r el hskip hel
    exact .inr (.inr (.inr ⟨r, el', hroot r hr, hclosed, hel', c, hsub hc, hblock⟩))

theorem close_proceeds (ho : o.HooksSucceed) (h : b.Steady) {p : NodeId} {rest : List NodeId}
    (hstack : b.stack = p :: rest) :
    (close o { b with stack := rest } p).Accounts o b.Proceeds := by
  refine (close_accounts ho { b with stack := rest } (h.opened p (by simp [hstack]))).mono ?_
  rintro b' n ⟨hgoes, hroot, hplace⟩
  refine ⟨hgoes.reports, ⟨fun x hx => ?_, fun r hr => ?_⟩, fun id hid => ?_⟩
  · rw [hgoes.stack] at hx
    exact hgoes.grows.element x (h.opened x (by simp [hstack, show x ∈ rest from hx]))
  · rw [hroot] at hr
    exact hgoes.grows.element r (h.root r hr)
  · refine hid.grow hgoes.reports hgoes.grows (fun r hr => hroot.trans hr) (fun hlast => ?_)
      fun r el _ hr => ?_
    · rw [hstack] at hlast
      cases rest with
      | nil =>
        -- The outermost open element is closed, and so is given its place.
        cases hlast
        exact (settled_iff hgoes.stack).mpr (hplace rfl)
      | cons q outer =>
        refine .inr (.inr (.inl ?_))
        rw [hgoes.stack, ← hlast]
        rfl
    · rw [hstack] at hr
      rw [hgoes.stack]
      exact ⟨fun hmem => hr (by simp [show r ∈ rest from hmem]), fun heq => hr (by simp [heq])⟩

/-- Elements that were there before a change are not the one that is changed freely. -/
theorem Goes.proceeds (h : b.Steady) (hgoes : b.Goes b.ast.nodes.size b' n)
    (hkept : ∀ r, b.ast.root = some r → b'.ast.root = some r)
    (hroot : ∀ r ∈ b'.ast.root, (b'.ast.element? r).isSome) : b.Proceeds b' n := by
  refine ⟨hgoes.reports, ⟨fun x hx => ?_, hroot⟩, fun id hid => ?_⟩
  · rw [hgoes.stack] at hx
    exact hgoes.grows.element x (h.opened x hx)
  · refine hid.grow hgoes.reports hgoes.grows hkept (fun hlast => ?_) fun r el hel hr => ?_
    · exact .inr (.inr (.inl (by rwa [hgoes.stack])))
    · rw [hgoes.stack]
      exact ⟨hr, Nat.ne_of_lt (Ast.lt_size_of_element? hel)⟩

theorem openElement_accounts (ho : o.HooksSucceed) (h : b.Steady) (tag : String)
    (attrs : List Attr) (unary : Bool) (span : Span) :
    (b.openElement o tag attrs unary span).Accounts o fun b' n => b.Proceeds b' n ∧
      (b.stack = [] → b'.Settled b.ast.nodes.size) := by
  rw [openElement_eq]
  refine .bind (placed_accounts ho attrs span) ?_
  rintro b₁ n ⟨hplaced, hroot, hnew⟩
  have hkept (r : NodeId) (hr : b.ast.root = some r) : b₁.ast.root = some r := by
    rw [hroot, hr]
    rfl
  have hrooted (r : NodeId) (hr : r ∈ b₁.ast.root) : (b₁.ast.element? r).isSome := by
    rw [hroot, Option.mem_def, Option.or_eq_some_iff] at hr
    rcases hr with hr | ⟨-, hr⟩
    · exact hplaced.grows.element r (h.root r hr)
    · cases hr
      exact hnew
  split
  · refine (close_accounts ho b₁ hnew).mono ?_
    rintro b₂ m ⟨hclosed, hroot', hplace⟩
    have hgoes := hplaced.trans hclosed
    refine ⟨hgoes.proceeds h (fun r hr => hroot'.trans (hkept r hr)) fun r hr => ?_, fun hnil => ?_⟩
    · rw [hroot'] at hr
      exact hclosed.grows.element r (hrooted r hr)
    · exact (settled_iff (hgoes.stack.trans hnil)).mpr (hplace (hplaced.stack.trans hnil))
  · have hproceeds := hplaced.proceeds h hkept hrooted
    refine .pure ⟨⟨hproceeds.reports, ⟨fun x hx => ?_, hrooted⟩, fun id hid => ?_⟩, fun hnil => ?_⟩
    · rcases mem_cons.mp hx with rfl | hx
      · exact hnew
      · exact hproceeds.steady.opened x hx
    · refine hid.grow hproceeds.reports hplaced.grows hkept (fun hlast => ?_) fun r el hel hr => ?_
      · refine .inr (.inr (.inl ?_))
        rw [getLast?_cons, hplaced.stack, hlast]
        rfl
      · have hne := Nat.ne_of_lt (Ast.lt_size_of_element? hel)
        rw [hplaced.stack]
        exact ⟨fun hmem => (mem_cons.mp hmem).elim hne hr, hne⟩
    · refine .inr (.inr (.inl ?_))
      rw [hplaced.stack, hnil]
      rfl

theorem addChild_proceeds (h : b.Steady) (p : NodeId) (kind : NodeKind) :
    b.Proceeds (b.addChild p kind) 0 := by
  have hgrows : b.ast.ChainsGrow b.ast.nodes.size (b.addChild p kind).ast :=
    (Ast.ChainsGrow.push ..).trans (.modifyElement _ _ _ fun _ => List.Subset.refl _)
  exact (Goes.ofAst hgrows).proceeds h (fun _ hr => hr) fun r hr => hgrows.element r (h.root r hr)

theorem textOutside_accounts (h : b.Steady) :
    (b.textOutside source content).Accounts o b.Proceeds := by
  unfold textOutside
  split
  · refine (reportRoot_accounts b rfl none).mono ?_
    rintro b' n ⟨hreports, rfl⟩
    exact ⟨hreports, ⟨h.opened, h.root⟩, fun _ _ => .inl rfl⟩
  · split
    · exact .pure (.refl h)
    · exact Unrooted.accounts (.bind (.error rfl _) (.pure _))
        ⟨rfl, ⟨h.opened, h.root⟩, fun _ hid => hid⟩

theorem signal_accounts (ho : o.HooksSucceed) (h : b.Steady) (signal : Signal) :
    (b.signal o source signal).Accounts o b.Proceeds := by
  have hacts := b.signal_acts o source signal
  generalize b.signal o source signal = x at hacts ⊢
  cases hacts with
  | warning w span => exact .bindLift (.error rfl _) (.pure (.refl h))
  | opened tag attrs unary span =>
    exact (openElement_accounts ho h tag attrs unary span).mono fun b' n hb' => hb'.1
  | closed tag span hstack => exact close_proceeds ho h hstack
  | outside content span => exact .lift (textOutside_accounts h)
  | child hstack hkind => exact .pure (addChild_proceeds h _ _)
  | unopened | textDropped | commentDropped => exact .pure (.refl h)

theorem signals_accounts (ho : o.HooksSucceed) (h : b.Steady) (source : String)
    {signals : List Signal} {tags tags' : List String}
    (hopen : openAfter signals tags = some tags') (hlen : b.stack.length = tags.length) :
    (Builder.signals o source signals b).Accounts o fun b' n =>
      b.Proceeds b' n ∧ b'.stack.length = tags'.length := by
  refine .andYields ?_ (signals_stack o source b hopen hlen)
  clear hopen hlen
  induction signals generalizing b with
  | nil => exact .pure (.refl h)
  | cons first later ih =>
    exact .bind (signal_accounts ho h first) fun b₁ n hb₁ =>
      (ih hb₁.steady).mono fun b₂ m hb₂ => hb₁.trans hb₂

theorem steady_empty : ({} : Builder).Steady :=
  ⟨(fun _ h => by cases h), (fun _ h => by cases h)⟩

theorem signals_append (first second : List Signal) :
    signals o source (first ++ second) b =
      signals o source first b >>= signals o source second := by
  induction first generalizing b with
  | nil => exact (pure_bind _ _).symm
  | cons signal rest ih =>
    simp only [cons_append, signals, ih, bind_assoc]

/-- Whatever is opened at the top level is settled in the end. -/
theorem settled_signals (ho : o.HooksSucceed) {before after : List Signal}
    {tag : String} {attrs : List Attr} {unary : Bool} {span : Span} {final : Builder}
    (hres : (signals o source
      (before ++ .event (.opened tag attrs unary span) :: after) {}).result = .ok final)
    (hopen : openAfter (before ++ .event (.opened tag attrs unary span) :: after) [] = some [])
    (htop : openAfter before [] = some []) :
    ∃ b, (signals o source before {}).result = .ok b ∧ final.Settled b.ast.nodes.size := by
  obtain ⟨b, _, hb, -, hbef, hlen⟩ := signals_accounts ho steady_empty source htop rfl
  obtain ⟨b₁, _, hb₁, -, hopened, hsettled⟩ :=
    openElement_accounts ho hbef.steady tag attrs unary span
  have hnil : b.stack = [] := length_eq_zero_iff.mp hlen
  have hrest : openAfter after (if unary then [] else [tag]) = some [] := by
    rw [openAfter_append, htop] at hopen
    exact hopen
  have hlen₁ : b₁.stack.length = (if unary then [] else [tag]).length := by
    rw [openElement_stack o b tag attrs unary span b₁ hb₁, hnil]
    split <;> rfl
  obtain ⟨b₂, _, hb₂, -, hafter, -⟩ := signals_accounts ho hopened.steady source hrest hlen₁
  have hfinal : final = b₂ := by
    rw [signals_append, Outcome.result_bind, hb] at hres
    have hlater : (b.openElement o tag attrs unary span >>=
        signals o source after).result = .ok final := hres
    rw [Outcome.result_bind, hb₁] at hlater
    exact Except.ok.inj (hlater.symm.trans hb₂)
  rw [hfinal]
  exact ⟨b, hb, hafter.settled _ (hsettled hnil)⟩

end Builder

/-- The number of root problems of a template, by what the builder ends with. -/
theorem counts_parse (ho : o.HooksSucceed) {b : Builder}
    (hb : (signals o source (read o.tags o.comments source) {}).result = .ok b) :
    (parse o source).notes.Counts o (if b.rootReported || b.ast.root.isNone then 1 else 0) := by
  obtain ⟨b', n, hb', hn, hproceeds, -⟩ := signals_accounts ho steady_empty source
    (openAfter_read o.tags o.comments source) rfl
  obtain rfl : b' = b := Except.ok.inj (hb'.symm.trans hb)
  have hreported : n = b'.rootReported.toNat := (Nat.zero_add n).symm.trans hproceeds.reports
  -- The last step reports a missing root if no other root problem has been reported.
  have hlast : Outcome.Accounts o (do
      if b'.ast.root.isNone && !b'.rootReported then Noted.error .noRoot none
      return b'.ast : Outcome Ast) fun _ m =>
        m = if b'.ast.root.isNone && !b'.rootReported then 1 else 0 := by
    split
    · exact .bind (.lift (.error rfl _ rfl)) fun _ m hm => .pure hm
    · exact .pure rfl
  obtain ⟨-, m, -, hm, rfl⟩ := hlast
  unfold parse
  rw [Outcome.notes_bind hb]
  have hsum := hn.append hm
  rw [hreported] at hsum
  have hnumber : b'.rootReported.toNat + (if b'.ast.root.isNone && !b'.rootReported then 1 else 0) =
      if b'.rootReported || b'.ast.root.isNone then 1 else 0 := by
    cases b'.rootReported <;> cases b'.ast.root.isNone <;> rfl
  rw [← hnumber]
  exact hsum

/-- **Root problems are reported once.** Apart from what extensions report, a template has at most
one error about its root, and exactly one if it has no root. If it has none, then every element that
is opened at the top level is the root or a branch in the chain of the root. -/
theorem parse_rootErrors (o : Options) (ho : o.HooksSucceed) (source : String) :
    ∃ tree own others, (parse o source).result = .ok tree ∧
      (parse o source).notes.rootErrors.Perm (own ++ others) ∧
      (∀ e ∈ others, o.HookReports e) ∧ own.length ≤ 1 ∧ (tree.root = none → own.length = 1) ∧
      (own = [] → ∀ before tag attrs unary span after,
        read o.tags o.comments source = before ++ .event (.opened tag attrs unary span) :: after →
        openAfter before [] = some [] →
        ∃ b, (Builder.signals o source before {}).result = .ok b ∧ tree.AtRoot b.ast.nextId) := by
  obtain ⟨b, _, hb, -, -, hlen⟩ := signals_accounts ho steady_empty source
    (openAfter_read o.tags o.comments source) rfl
  have hstack : b.stack = [] := length_eq_zero_iff.mp hlen
  obtain ⟨own, others, hperm, hothers, hown⟩ := counts_parse ho hb
  refine ⟨b.ast, own, others, result_parse o source hb, hperm, hothers, ?_, fun hnone => ?_, ?_⟩
  · rw [hown]
    split <;> decide
  · rw [hown, hnone, Option.isNone_none, Bool.or_true]
    rfl
  · rintro rfl before tag attrs unary span after hread htop
    have hopen := openAfter_read o.tags o.comments source
    rw [hread] at hb hopen
    obtain ⟨b₀, hb₀, hsettled⟩ := settled_signals ho hb hopen htop
    refine ⟨b₀, hb₀, ((settled_iff hstack).mp hsettled).resolve_left fun hreported => ?_⟩
    rw [hreported] at hown
    cases hown

theorem Options.UsesWeb.hooksSucceed (ho : o.UsesWeb) : o.HooksSucceed where
  expand m hm el := by
    have hweb := ho.modules m hm
    simp only [Web.modules, mem_cons, not_mem_nil, or_false] at hweb
    rcases hweb with rfl | rfl | rfl <;> exact ⟨_, rfl⟩
  transform m hm el := by
    obtain ⟨el', hel', -⟩ := Web.transform_refines (ho.modules m hm) o.toSettings el
    exact ⟨el', hel'⟩
  handler name handler hname el dir := by
    obtain ⟨known, hknown⟩ := ho.directives name handler hname
    obtain ⟨r, hr, -⟩ := Web.handler_refines hknown o.toSettings el dir
    exact ⟨r, hr⟩

/-- A chain at the top level, in which the second element is a branch of the root. -/
theorem parse_rootErrors_chain : Web.options.HooksSucceed ∧
      (parse Web.options "<p r-if=a>x</p><i r-else>").notes.rootErrors = [] ∧
      ∃ before attrs span after,
        read Web.options.tags Web.options.comments "<p r-if=a>x</p><i r-else>" =
          before ++ .event (.opened "i" attrs false span) :: after ∧
        openAfter before [] = some [] ∧
        ∃ tree b, (parse Web.options "<p r-if=a>x</p><i r-else>").result = .ok tree ∧
          (Builder.signals Web.options "<p r-if=a>x</p><i r-else>" before {}).result = .ok b ∧
          tree.AtRoot b.ast.nextId := by
  have hread : read Web.options.tags Web.options.comments "<p r-if=a>x</p><i r-else>" =
      (read Web.options.tags Web.options.comments "<p r-if=a>x</p><i r-else>").take 3 ++
        .event (.opened "i" [⟨"r-else", "", ⟨18, 24⟩⟩] false ⟨15, 25⟩) ::
          (read Web.options.tags Web.options.comments "<p r-if=a>x</p><i r-else>").drop 4 := by
    decide +kernel
  have hopen : openAfter ((read Web.options.tags Web.options.comments
      "<p r-if=a>x</p><i r-else>").take 3) [] = some [] := by
    decide +kernel
  have hnone : (parse Web.options "<p r-if=a>x</p><i r-else>").notes.rootErrors = [] := by
    decide +kernel
  obtain ⟨tree, own, others, htree, hperm, -, -, -, htop⟩ := parse_rootErrors Web.options
    Web.usesWeb_options.hooksSucceed "<p r-if=a>x</p><i r-else>"
  rw [hnone] at hperm
  have hown : own = [] := (append_eq_nil_iff.mp hperm.nil_eq.symm).1
  obtain ⟨b, hb, hplace⟩ := htop hown _ _ _ _ _ _ hread hopen
  exact ⟨Web.usesWeb_options.hooksSucceed, hnone, _, _, _, _, hread, hopen, tree, b, htree, hb,
    hplace⟩

end TemplateCompiler
