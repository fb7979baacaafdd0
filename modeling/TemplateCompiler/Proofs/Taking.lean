import TemplateCompiler.Proofs.Arena
import TemplateCompiler.Proofs.Nesting
import TemplateCompiler.Proofs.Outcome
import TemplateCompiler.Template.Builder

/-!
# How the builder takes signals

All that is proved about a tree under construction goes through the signals one by one, and a signal
leads to one of few steps: a start tag is taken, the innermost element is closed, or a text or
comment is added to it. `Acts` lists them with what is known about each, whatever the extensions
are.

No extension can reach the stack of open elements either. It follows the tags, so at the end of a
template no element is open (`signals_read_stack`).
-/

namespace TemplateCompiler

open Markup List Noted

variable {b : Builder} {p id : NodeId} {tags final : List String} {s : Settings} {el : Element}
  {o : Options}

def Element.unlinked (el : Element) : Element :=
  { el with children := [], scopedSlots := [], conditions := [] }

namespace Ast

variable {a a' a'' : Ast} {parent : Option NodeId} {id x : NodeId} {el : Element}
  {f : Element → Element}

/-- What an element with number `id` changes about others when it is closed: they may get other
children, a chain gets a branch, and the parent gets a scoped slot. -/
inductive Relinks (parent : Option NodeId) (id : NodeId) (el : Element) (a : Ast) : Ast → Prop
  | refl : Relinks parent id el a a
  | children {a' : Ast} (x : NodeId) (children : Element → List NodeId) :
    Relinks parent id el a a' →
      Relinks parent id el a (a'.modifyElement x fun q => { q with children := children q })
  | branch {a' : Ast} (head : NodeId) : Relinks parent id el a a' →
    (∀ q, a'.element? head = some q → q.ifExp.isSome) →
      Relinks parent id el a (Builder.addBranch a' head ⟨el.elseIf, id⟩)
  | slot {a' : Ast} {p : NodeId} (name : String) (hname : name = el.slotTarget.getD "\"default\"") :
    Relinks parent id el a a' → p ∈ parent → el.slotScope.isSome →
      Relinks parent id el a (a'.modifyElement p fun q =>
        { q with scopedSlots := q.scopedSlots.filter (·.1 ≠ name) ++ [(name, id)] })

/-- The children of an element up to the last one that is an element, last first. -/
def lastElements (s : Settings) (a : Ast) (p : NodeId) : List NodeId :=
  (Builder.dropToElement s a ((a.element? p).elim [] (·.children)).reverse).value

def upToElement (s : Settings) (a : Ast) (p : NodeId) : Ast :=
  a.modifyElement p fun q => { q with children := (a.lastElements s p).reverse }

/-- How a closed element with number `id` is joined to the tree: at the top level, or to the open
element around it. What is stray has been reported. -/
inductive Joins (s : Settings) (id : NodeId) (el : Element) (stray : Prop) (a : Ast) :
    Option NodeId → Ast → Prop
  | root (hroot : a.root = some id) : Joins s id el stray a none a
  | extra (h : stray) : Joins s id el stray a none a
  | rootBranch {head headEl} (hroot : a.root = some head) (hne : head ≠ id)
      (hhead : a.element? head = some headEl) (hif : headEl.ifExp.isSome) :
    Joins s id el stray a none (Builder.addBranch a head ⟨el.elseIf, id⟩)
  | forbidden {p : NodeId} (h : el.forbidden) : Joins s id el stray a (some p) a
  | lone {p : NodeId} (h : stray) : Joins s id el stray a (some p) (a.upToElement s p)
  | branch {p head headEl} (hlast : (a.lastElements s p).head? = some head)
      (hhead : (a.upToElement s p).element? head = some headEl) (hif : headEl.ifExp.isSome) :
    Joins s id el stray a (some p) (Builder.addBranch (a.upToElement s p) head ⟨el.elseIf, id⟩)
  | slot {p : NodeId} (name) (hname : name = el.slotTarget.getD "\"default\"")
      (hscope : el.slotScope.isSome) :
    Joins s id el stray a (some p) (a.modifyElement p fun q =>
      { q with scopedSlots := q.scopedSlots.filter (·.1 ≠ name) ++ [(name, id)] })
  | child {p : NodeId} : Joins s id el stray a (some p) (a.modifyElement p fun q =>
      { q with children := q.children ++ [id] })

theorem Joins.relinks {s : Settings} {stray : Prop} (h : a.Joins s id el stray parent a') :
    a.Relinks parent id el a' := by
  cases h with
  | root | extra | forbidden => exact .refl
  | rootBranch _ _ hhead hif =>
    refine .branch _ .refl fun q hq => ?_
    cases hhead.symm.trans hq
    exact hif
  | lone => exact .children _ _ .refl
  | branch _ hhead hif =>
    refine .branch _ (.children _ _ .refl) fun q hq => ?_
    cases hhead.symm.trans hq
    exact hif
  | slot name hname hscope => exact .slot name hname .refl rfl hscope
  | child => exact .children _ (·.children ++ [id]) .refl

/-- The element with number `x` is the same in both trees, but for its links. -/
def Relinked (a a' : Ast) (x : NodeId) : Prop :=
  ∀ el, a.element? x = some el → ∃ el', a'.element? x = some el' ∧ el'.unlinked = el.unlinked

namespace Relinked

theorem ofSame (h : a'.element? x = a.element? x) : a.Relinked a' x :=
  fun el hel => ⟨el, h.trans hel, rfl⟩

theorem trans (h : a.Relinked a' x) (h' : a'.Relinked a'' x) : a.Relinked a'' x := by
  intro el hel
  obtain ⟨el', hel', heq⟩ := h el hel
  obtain ⟨el'', hel'', heq'⟩ := h' el' hel'
  exact ⟨el'', hel'', heq'.trans heq⟩

theorem modifyElement (a : Ast) (id x : NodeId) (hf : ∀ el, (f el).unlinked = el.unlinked) :
    a.Relinked (a.modifyElement id f) x := by
  intro el hel
  rw [element?_modifyElement, hel]
  split
  · exact ⟨f el, rfl, hf el⟩
  · exact ⟨el, rfl, rfl⟩

end Relinked

namespace Relinks

theorem relinked (h : a.Relinks parent id el a') (x : NodeId) : a.Relinked a' x := by
  induction h with
  | refl => exact .ofSame rfl
  | children y _ _ ih => exact ih.trans (.modifyElement _ y x fun _ => rfl)
  | branch head _ _ ih => exact ih.trans (.modifyElement _ head x fun _ => rfl)
  | slot _ _ _ _ _ ih => exact ih.trans (.modifyElement _ _ x fun _ => rfl)

theorem root (h : a.Relinks parent id el a') : a'.root = a.root := by
  induction h with
  | refl => rfl
  | children _ _ _ ih | branch _ _ _ ih | slot _ _ _ _ _ ih => exact ih

end Relinks

end Ast

namespace Builder

/-! ## Flags -/

theorem reportRoot_eq (b : Builder) (problem : Problem) (span : Option Span) :
    ∃ rootReported, (b.reportRoot problem span).value = { b with rootReported } := by
  unfold reportRoot
  split
  · exact ⟨b.rootReported, rfl⟩
  · exact ⟨true, rfl⟩

theorem checkRoot_eq (s : Settings) (b : Builder) (el : Element) :
    ∃ rootReported, (b.checkRoot s el).value = { b with rootReported } := by
  have hloop (b' : Builder) (h : ∃ rootReported, b' = { b with rootReported }) :
      ∃ rootReported, (if el.hasAttr (s.directive "for") then
        b'.reportRoot (.rootLoops (s.directive "for")) el.span
      else pure b').value = { b with rootReported } := by
    obtain ⟨reported, rfl⟩ := h
    split
    · obtain ⟨reported', heq⟩ := reportRoot_eq { b with rootReported := reported }
        (.rootLoops (s.directive "for")) el.span
      exact ⟨reported', heq⟩
    · exact ⟨reported, rfl⟩
  unfold checkRoot
  dsimp only
  split
  · exact hloop _ (reportRoot_eq b _ _)
  · exact hloop b ⟨b.rootReported, rfl⟩

/-- Making the first element the root changes nothing else about a tree. -/
theorem withRoot_eq (s : Settings) (b : Builder) (id : NodeId) (el : Element) :
    ∃ rootReported, (b.withRoot s id el).value =
      { b with ast := { b.ast with root := b.ast.root.or (some id) }, rootReported } := by
  unfold withRoot
  split
  · next hnone =>
    rw [Option.isNone_iff_eq_none.mp hnone]
    exact checkRoot_eq s { b with ast := { b.ast with root := some id } } el
  · next hsome =>
    obtain ⟨root, hroot⟩ :=
      Option.ne_none_iff_exists'.mp (mt Option.isNone_iff_eq_none.mpr hsome)
    refine ⟨b.rootReported, ?_⟩
    rw [value_pure, hroot, Option.some_or, ← hroot]

theorem textOutside_eq (source : String) (b : Builder) (content : String) :
    ∃ rootReported textReported,
      (b.textOutside source content).value = { b with rootReported, textReported } := by
  unfold textOutside
  split
  · obtain ⟨reported, heq⟩ := reportRoot_eq b .onlyText none
    exact ⟨reported, b.textReported, heq⟩
  · split
    · exact ⟨b.rootReported, b.textReported, rfl⟩
    · exact ⟨b.rootReported, true, rfl⟩

/-! ## Links -/

theorem reportRoot_errors (hfirst : b.rootReported = false) (problem : Problem)
    (span : Option Span) : (b.reportRoot problem span).notes.errors ≠ [] := by
  unfold reportRoot
  rw [hfirst]
  exact cons_ne_nil _ _

theorem checkRoot_quiet (hfirst : b.rootReported = false)
    (herr : (b.checkRoot s el).notes.errors = []) : (b.checkRoot s el).value = b := by
  unfold checkRoot at herr ⊢
  dsimp only at herr ⊢
  split at herr
  · rw [notes_bind, Diagnostics.errors_append, append_eq_nil_iff] at herr
    exact absurd herr.1 (reportRoot_errors hfirst _ _)
  · next htag =>
    rw [if_neg htag]
    rw [notes_bind, Diagnostics.errors_append, append_eq_nil_iff] at herr
    replace herr := herr.2
    rw [value_bind, value_pure] at *
    split at herr
    · exact absurd herr (reportRoot_errors hfirst _ _)
    · next hloop => rw [if_neg hloop, value_pure]

/-- A closed element in its place, with the flags of what is around it. -/
def joined (s : Settings) (b : Builder) (id : NodeId) (el : Element) : Noted Builder := do
  let b ← b.settle s id el
  let b ← attach s { b with ast := b.ast.setElement id el } id el
  return { b with
    asWritten := b.asWritten && !el.pre
    keepsSpace := b.keepsSpace && !s.tags.isPre el.tag }

theorem close_eq (hel : b.ast.element? id = some el) :
    b.close o id = b.finished o id (b.trimmed el) >>= fun el => b.joined o.toSettings id el := by
  unfold close joined
  simp only [hel, liftM_bind, liftM_pure]

theorem attach_of_nil (hstk : b.stack = []) : b.attach s id el = pure b := by
  unfold attach
  rw [parent?, hstk]
  rfl

theorem settle_of_cons {rest : List NodeId} (hstk : b.stack = p :: rest) :
    b.settle s id el = pure b := by
  unfold settle
  rw [hstk]
  rfl

theorem attach_joins {stray : Prop} (s : Settings) (id : NodeId) (el : Element)
    (hp : b.parent? = some p) (hstray : (b.attach s id el).notes.errors ≠ [] → stray) :
    ∃ ast, (b.attach s id el).value = { b with ast } ∧ b.ast.Joins s id el stray (some p) ast := by
  revert hstray
  unfold attach
  rw [hp]
  dsimp only
  split
  · next hforb => exact fun _ => ⟨b.ast, rfl, .forbidden hforb⟩
  · unfold link
    split
    · unfold linkBranch
      rw [value_bind, notes_bind]
      dsimp only
      split
      · next head heq =>
        obtain ⟨hlast, hcond⟩ := Option.filter_eq_some_iff.mp heq
        obtain ⟨headEl, hhead, hif⟩ := (Option.any_eq_true _ _).mp hcond
        exact fun _ => ⟨_, rfl, .branch hlast hhead hif⟩
      · exact fun hstray =>
          ⟨_, rfl, .lone (hstray (append_ne_nil_of_right_ne_nil _ (cons_ne_nil _ _)))⟩
    · refine fun _ => ⟨_, rfl, ?_⟩
      split
      · next hscope => exact .slot _ rfl hscope
      · exact .child

theorem settle_joins (s : Settings) (id : NodeId) (el : Element) (hstk : b.stack = []) :
    ∃ ast rootReported, (b.settle s id el).value = { b with ast, rootReported } ∧
      (b.ast.setElement id el).Joins s id el
        (¬ ((b.settle s id el).notes.errors = [] ∧ b.rootReported = false)) none
        (ast.setElement id el) ∧
      ((b.settle s id el).notes.errors = [] ∧ b.rootReported = false → rootReported = false) := by
  unfold settle
  split
  · next hroot =>
    unfold addToRoot
    split
    · next root heq =>
      obtain ⟨hr, hcond⟩ := Option.filter_eq_some_iff.mp heq
      simp only [Bool.and_eq_true, Option.any_eq_true] at hcond
      obtain ⟨-, rootEl, hel, hif⟩ := hcond
      have hne : root ≠ id := by
        rintro rfl
        simp [hr] at hroot
      obtain ⟨reported, hcheck⟩ := checkRoot_eq s b el
      rw [value_bind, notes_bind, hcheck]
      have hcomm : (addBranch b.ast root ⟨el.elseIf, id⟩).setElement id el =
        addBranch (b.ast.setElement id el) root ⟨el.elseIf, id⟩ := Ast.modifyElement_comm hne
      refine ⟨addBranch b.ast root ⟨el.elseIf, id⟩, reported, rfl, ?_, fun ⟨herr, hfirst⟩ => ?_⟩
      · rw [hcomm]
        exact .rootBranch hr hne ((Ast.element?_modifyElement_of_ne hne.symm).trans hel) hif
      · rw [Diagnostics.errors_append, append_eq_nil_iff] at herr
        have hquiet := checkRoot_quiet hfirst herr.1
        rw [hcheck] at hquiet
        exact (congrArg rootReported hquiet).trans hfirst
    · obtain ⟨reported, hreport⟩ := reportRoot_eq b .manyRoots el.span
      have hstray := fun h : _ ∧ b.rootReported = false =>
        reportRoot_errors h.2 .manyRoots el.span h.1
      exact ⟨b.ast, reported, hreport, .extra hstray, fun h => absurd h hstray⟩
  · next hroot =>
    have hroot : b.ast.root = some id := by simpa [hstk] using hroot
    exact ⟨b.ast, b.rootReported, rfl, .root hroot, And.right⟩

theorem joined_joins (s : Settings) (b : Builder) (id : NodeId) (el : Element) :
    ∃ ast rootReported, (b.joined s id el).value = { b with
        ast, rootReported
        asWritten := b.asWritten && !el.pre
        keepsSpace := b.keepsSpace && !s.tags.isPre el.tag } ∧
      (b.ast.setElement id el).Joins s id el
        (¬ ((b.joined s id el).notes.errors = [] ∧ b.rootReported = false)) b.parent? ast ∧
      ((b.joined s id el).notes.errors = [] ∧ b.rootReported = false → rootReported = false) := by
  unfold joined
  cases hp : b.parent? with
  | none =>
    have hstk : b.stack = [] := head?_eq_none_iff.mp hp
    obtain ⟨ast, reported, heq, hjoins⟩ := settle_joins s id el hstk
    rw [value_bind, notes_bind, heq, value_bind, notes_bind, attach_of_nil (by exact hstk)]
    simp only [notes_pure, Diagnostics.append_empty]
    exact ⟨_, reported, rfl, hjoins⟩
  | some p =>
    obtain ⟨rest, hstk⟩ := head?_eq_some_iff.mp hp
    rw [settle_of_cons hstk, pure_bind, value_bind, notes_bind, notes_pure,
      Diagnostics.append_empty]
    obtain ⟨ast, heq, hjoins⟩ :=
      attach_joins (b := { b with ast := b.ast.setElement id el }) s id el hp
      fun (herr : _ ≠ []) (h : _ ∧ b.rootReported = false) => herr h.1
    rw [heq]
    exact ⟨ast, b.rootReported, rfl, hjoins, And.right⟩

/-! ## Open elements -/

theorem close_same (o : Options) (b : Builder) (id : NodeId) :
    (b.close o id).Yields fun b' => b'.stack = b.stack ∧ b'.ast.root = b.ast.root ∧
      ∀ x ≠ id, b.ast.Relinked b'.ast x := by
  cases hel : b.ast.element? id with
  | none =>
    unfold close
    rw [hel]
    exact .pure ⟨rfl, rfl, fun _ _ => .ofSame rfl⟩
  | some el =>
    rw [close_eq hel]
    refine .bind (fun _ _ => trivial) fun el' _ => .lift ?_
    obtain ⟨_, _, heq, hjoins, -⟩ := joined_joins o.toSettings b id el'
    rw [heq]
    refine ⟨rfl, hjoins.relinks.root, fun x hx => .trans (.ofSame ?_) (hjoins.relinks.relinked x)⟩
    exact Ast.element?_modifyElement_of_ne hx.symm

theorem expanded_stack : (b.expanded o id el).Yields (·.1.stack = b.stack) := by
  refine .bind (fun _ _ => trivial) fun e _ => ?_
  cases e with
  | none => exact .pure rfl
  | some e =>
    unfold expand
    dsimp only
    split
    · exact .pure rfl
    · refine .bind (fun _ _ => trivial) fun _ _ => ?_
      exact .bind (fun _ _ => trivial) fun _ _ => .pure rfl

theorem openElement_stack (o : Options) (b : Builder) (tag : String) (attrs : List Attr)
    (unary : Bool) (span : Span) : (b.openElement o tag attrs unary span).Yields
      (·.stack = if unary then b.stack else b.ast.nodes.size :: b.stack) := by
  have hrooted (b' : Builder) (el : Element) :
      (b'.withRoot o.toSettings b.ast.nextId el).value.stack = b'.stack := by
    obtain ⟨reported, heq⟩ := withRoot_eq o.toSettings b' b.ast.nextId el
    rw [heq]
  refine .bindLift (.bindLift (.bind expanded_stack fun r hr => .bindLift (.bindLift ?_)))
  dsimp only
  split
  · exact (close_same o _ _).mono fun b' hb' => hb'.1.trans ((hrooted ..).trans hr)
  · exact .pure (congrArg (b.ast.nodes.size :: ·) ((hrooted ..).trans hr))

/-! ## One signal -/

/-- The node that a text or comment becomes inside the element with number `p`. -/
inductive Adds (o : Options) (b : Builder) (p : NodeId) : Signal → NodeKind → Prop
  | text {parent : Element} {tokens : Option (List TextToken)} (content : String) (span : Span)
      (hpar : b.ast.element? p = some parent)
      (hkept : b.keptText o.toSettings parent content ≠ "")
      (htokens : tokens = if b.asWritten || b.keptText o.toSettings parent content = " " then none
        else Interpolation.parse? o.delimiters (b.keptText o.toSettings parent content))
      (hspace : ¬ (tokens.isNone && b.keptText o.toSettings parent content = " " &&
        parent.children.getLast?.any b.ast.isSpace)) :
    Adds o b p (.event (.text content span))
      (.text (b.keptText o.toSettings parent content) tokens false)
  | comment (content : String) (span : Span) :
    Adds o b p (.event (.comment content span)) (.comment content false)

theorem Adds.ne_element {o : Options} {signal : Signal} {kind : NodeKind}
    (h : b.Adds o p signal kind) (el : Element) : kind ≠ .element el := by
  cases h <;> nofun

/-- What the builder does with a signal. -/
inductive Acts (o : Options) (source : String) (b : Builder) : Signal → Outcome Builder → Prop
  | warning (w : Warning) (span : Span) : Acts o source b (.warning w span)
      (liftM (Noted.error (.markup w) (some span)) >>= fun _ => pure b)
  | opened (tag : String) (attrs : List Attr) (unary : Bool) (span : Span) :
    Acts o source b (.event (.opened tag attrs unary span)) (b.openElement o tag attrs unary span)
  | closed {id : NodeId} {rest : List NodeId} (tag : String) (span : Span)
      (hstk : b.stack = id :: rest) :
    Acts o source b (.event (.closed tag span)) (close o { b with stack := rest } id)
  | unopened (tag : String) (span : Span) (hstk : b.stack = []) :
    Acts o source b (.event (.closed tag span)) (pure b)
  | outside (content : String) (span : Span) (hstk : b.stack = []) :
    Acts o source b (.event (.text content span)) (liftM (b.textOutside source content))
  | child {signal : Signal} {p : NodeId} {rest : List NodeId} {kind : NodeKind}
      (hstk : b.stack = p :: rest) (hkind : b.Adds o p signal kind) :
    Acts o source b signal (pure (b.addChild p kind))
  | textDropped (content : String) (span : Span) :
    Acts o source b (.event (.text content span)) (pure b)
  | commentDropped (content : String) (span : Span) :
    Acts o source b (.event (.comment content span)) (pure b)

theorem signal_acts (o : Options) (source : String) (b : Builder) (signal : Signal) :
    b.Acts o source signal (b.signal o source signal) := by
  cases signal with
  | warning w span => exact .warning w span
  | event event =>
    cases event with
    | opened tag attrs unary span => exact .opened tag attrs unary span
    | closed tag span =>
      unfold signal closeElement
      dsimp only
      split
      · next hstk => exact .unopened tag span hstk
      · next hstk => exact .closed tag span hstk
    | text content span =>
      unfold signal parent?
      cases hstk : b.stack with
      | nil => exact .outside content span hstk
      | cons p rest =>
        dsimp only [head?_cons]
        split
        · next parent hpar =>
          unfold addText
          dsimp only
          split
          · exact .textDropped content span
          · next hkept =>
            generalize htokens : (if b.asWritten || b.keptText o.toSettings parent content = " "
              then none else Interpolation.parse? o.delimiters _) = tokens
            split
            · exact .textDropped content span
            · next hspace =>
              exact .child hstk (.text content span hpar hkept htokens.symm hspace)
        · exact .textDropped content span
    | comment content span =>
      unfold signal parent?
      cases hstk : b.stack with
      | nil => exact .commentDropped content span
      | cons p rest => exact .child hstk (.comment content span)

theorem signal_stack (source : String) {first : Signal} {later : List Signal}
    (hopen : openAfter (first :: later) tags = some final) (hlen : b.stack.length = tags.length) :
    (b.signal o source first).Yields fun b' =>
      ∃ tags', openAfter later tags' = some final ∧ b'.stack.length = tags'.length := by
  have hacts := b.signal_acts o source first
  generalize b.signal o source first = x at hacts ⊢
  cases hacts with
  | warning w span => exact .bindLift (.pure ⟨tags, hopen, hlen⟩)
  | opened tag attrs unary span =>
    refine (openElement_stack o b _ _ _ _).mono fun b' hb' => ⟨_, hopen, ?_⟩
    rw [hb']
    split <;> simp [hlen]
  | closed tag span hstk =>
    rw [hstk] at hlen
    obtain ⟨innermost, outer, rfl⟩ := exists_cons_of_length_eq_add_one hlen.symm
    rw [openAfter] at hopen
    split at hopen
    · exact (close_same o _ _).mono fun b' hb' => ⟨outer, hopen, hb'.1 ▸ Nat.succ.inj hlen⟩
    · cases hopen
  | unopened tag span hstk =>
    -- Nothing is open, so no tag can be closed.
    rw [hstk] at hlen
    obtain rfl : tags = [] := length_eq_zero_iff.mp hlen.symm
    cases hopen
  | outside content span hstk =>
    obtain ⟨_, _, heq⟩ := textOutside_eq source b content
    exact .lift ⟨tags, hopen, heq ▸ hlen⟩
  | child hstk hkind => cases hkind <;> exact .pure ⟨tags, hopen, hlen⟩
  | textDropped | commentDropped => exact .pure ⟨tags, hopen, hlen⟩

theorem signals_stack (o : Options) (source : String) (b : Builder) {signals : List Signal}
    (hopen : openAfter signals tags = some final)
    (hlen : b.stack.length = tags.length) :
    (Builder.signals o source signals b).Yields (·.stack.length = final.length) := by
  induction signals generalizing b tags with
  | nil =>
    cases hopen
    exact .pure hlen
  | cons first later ih =>
    exact .bind (signal_stack source hopen hlen) fun b' ⟨_, hopen', hlen'⟩ => ih b' hopen' hlen'

theorem signals_read_stack (o : Options) (source : String) :
    (Builder.signals o source (read o.tags o.comments source) {}).Yields (·.stack = []) :=
  (signals_stack o source {} (openAfter_read o.tags o.comments source) rfl).mono
    fun _ hlen => length_eq_zero_iff.mp hlen

end Builder

end TemplateCompiler
