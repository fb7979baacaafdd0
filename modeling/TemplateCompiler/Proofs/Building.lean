import TemplateCompiler.Proofs.Origin
import TemplateCompiler.Proofs.Taking

/-!
# The tree that is built

For every template, and whatever its markup is like, the builder gets through, leaves no element
open, and its tree is well formed (`parse_wellFormed`). A configuration with the extensions of the
web is all that is asked for.

The builder keeps `Ast.Sound` while elements are open: the tree is well formed around them, every
element keeps to a start tag, and the first element is the root. Closing an element (`close_spec`)
and taking a start tag (`openElement_spec`) are the two steps that change links; both are put
together from edits of a tree under construction. That nothing is open in the end follows from the
way the signals of a template nest.
-/

namespace TemplateCompiler

open Markup List Noted Element Nat Signal
open Option hiding bind_assoc

variable {s : Settings} {signals : List Signal} {el : Element} {kind : NodeKind}
  {els others : List Element}

/-- The element keeps to a start tag among some signals. -/
def Element.Written (s : Settings) (signals : List Signal) (el : Element) : Prop :=
  ∃ tag attrs unary span, event (.opened tag attrs unary span) ∈ signals ∧ el.From s tag attrs span

theorem Element.Written.marks (h : el.Written s signals) : el.marks = {} := by
  obtain ⟨tag, attrs, unary, span, -, hfrom⟩ := h
  exact hfrom.marks

theorem Element.Written.drop {el' : Element}
    (h : el.Written s signals) (hview : el'.fromView = el.fromView)
    (hpend : el'.pending ⊆ el.pending) : el'.Written s signals := by
  obtain ⟨tag, attrs, unary, span, hmem, hel⟩ := h
  exact ⟨tag, attrs, unary, span, hmem, hel.drop hview hpend⟩

namespace Ast

/-- A tree under construction in which every element keeps to a start tag among `seen`, and whose
root is its first node and an element. -/
structure Sound (s : Settings) (seen : List Signal) (a : Ast) (stack : List NodeId) : Prop
    extends OpenAt a stack where
  rootFirst : ∀ r ∈ a.root, r = 0
  rootElement : ∀ r ∈ a.root, (a.element? r).isSome
  origin : ∀ id el, a.element? id = some el → el.Written s seen

variable {s : Settings} {seen : List Signal} {a : Ast} {stack stack' rest : List NodeId}
  {id p : NodeId} {el el' : Element}

namespace Sound

theorem pop (h : a.Sound s seen (id :: stack)) : a.Sound s seen stack :=
  ⟨h.toOpenAt.pop, h.rootFirst, h.rootElement, h.origin⟩

/-- Changing an element keeps a tree sound if it keeps the links in order and the element to its
start tag. -/
theorem modifyElement {f : Element → Element} (h : a.Sound s seen stack)
    (hopen : (a.modifyElement id f).OpenAt stack')
    (hf : ∀ el, a.element? id = some el → el.Written s seen → (f el).Written s seen) :
    (a.modifyElement id f).Sound s seen stack' := by
  refine ⟨hopen, h.rootFirst, fun r hr => ?_, fun j elj hj => ?_⟩
  · rw [isSome_element?_modifyElement]
    exact h.rootElement r hr
  rcases element?_modifyElement_cases hj with ⟨-, hj⟩ | ⟨rfl, el, hel, rfl⟩
  · exact h.origin j elj hj
  · exact hf el hel (h.origin id el hel)

/-- A new text or comment becomes the last child of the innermost open element. -/
theorem addChild (h : a.Sound s seen (p :: rest)) (hkind : ∀ el, kind ≠ .element el) :
    ((a.push (some p) kind).modifyElement p fun el =>
      { el with children := el.children ++ [a.nodes.size] }).Sound s seen (p :: rest) := by
  obtain ⟨el, hel⟩ := isSome_iff_exists.mp h.nested.1
  have hp : p < a.nodes.size := lt_size_of_element? hel
  have hpush : (a.push (some p) kind).OpenAt (p :: rest) :=
    h.toOpenAt.push (fun q hq => by cases hq; exact hp) fun el heq => absurd heq (hkind el)
  have hold (j : NodeId) (elj : Element) (hj : (a.push (some p) kind).element? j = some elj) :
      a.element? j = some elj :=
    (element?_push_cases hj).resolve_left fun hnew => hkind elj hnew.2
  have hlinks (y x : NodeId) (hx : x ∈ (a.push (some p) kind).links y) : x < a.nodes.size := by
    obtain ⟨ely, hely, hx⟩ := exists_element_of_mem_links hx
    exact (h.fits y ely (hold y ely hely)).inTree x hx
  have hel' : (a.push (some p) kind).element? p = some el := by rwa [element?_push_of_lt hp]
  have hnext : Fits.Next (a.push (some p) kind) p el a.nodes.size :=
    ⟨by simp, hp, fun y hy => hlinks p y (by rwa [links_eq hel'])⟩
  have hsound : (a.push (some p) kind).Sound s seen (p :: rest) :=
    ⟨hpush, h.rootFirst, fun r hr => (Extends.push ..).element r (h.rootElement r hr),
      fun j elj hj => h.origin j elj (hold j elj hj)⟩
  refine hsound.modifyElement ?_ fun _ _ hw => hw.drop rfl (List.Subset.refl _)
  refine hpush.modify hel'
    ((hpush.fits p el hel').addChild hnext (by rw [parent?_push, if_pos rfl]))
    fun x hx => ?_
  rcases mem_cons.mp ((el.links_addChild _).mem_iff.mp hx) with rfl | hx
  · refine .inr ⟨fun hmem => ?_, fun y hy => ?_, hpush.le_head⟩
    · exact lt_irrefl _ (lt_of_lt_of_le hp (hpush.le_head _ hmem))
    · exact lt_irrefl _ (hlinks y _ hy)
  · exact .inl hx

/-- An element may lose children and be given another meaning. -/
theorem replace (h : a.Sound s seen stack) (hel : a.element? id = some el)
    (hdrop : el.Drops el') (hw : el'.Written s seen) : (a.setElement id el').Sound s seen stack :=
  h.modifyElement
    (h.toOpenAt.modify hel ((h.fits id el hel).drop hdrop) fun _ hx => .inl (hdrop.links.subset hx))
    fun _ _ _ => hw

theorem keepChildren (h : a.Sound s seen stack) (hel : a.element? id = some el)
    {kept : List NodeId} (hkept : kept.Sublist el.children) :
    (a.modifyElement id fun el => { el with children := kept }).Sound s seen stack := by
  have hdrop : el.Drops { el with children := kept } := ⟨hkept, List.Sublist.refl _, rfl, rfl⟩
  refine h.modifyElement ?_ fun _ _ hw => hw.drop rfl (List.Subset.refl _)
  exact h.toOpenAt.modify hel ((h.fits id el hel).drop hdrop)
    fun x hx => .inl (hdrop.links.subset hx)

/-- Elements without links may be added beside the innermost open element. -/
theorem pushElements (h : a.Sound s seen (id :: stack))
    (hbare : ∀ el ∈ els, el.Bare) (hw : ∀ el ∈ els, el.Written s seen) :
    (a.pushElements stack.head? els).Sound s seen (id :: stack) := by
  refine ⟨h.toOpenAt.pushElements h.toOpenAt.pop.head_lt hbare, fun r hr => ?_, fun r hr => ?_,
    fun j elj hj => ?_⟩
  · rw [root_pushElements] at hr
    exact h.rootFirst r hr
  · rw [root_pushElements] at hr
    exact (Extends.pushElements ..).element r (h.rootElement r hr)
  · rw [element?_eq_some_iff, kind?_pushElements] at hj
    split at hj
    · exact h.origin j elj (element?_eq_some_iff.mpr hj)
    · obtain ⟨el, hel, heq⟩ := map_eq_some_iff.mp hj
      cases heq
      exact hw elj (mem_of_getElem? hel)

/-- What stands beside the innermost open element after that. -/
theorem beside_pushElements (h : a.Sound s seen (id :: stack)) {x : Nat}
    (hfirst : a.nodes.size ≤ x) (hlast : x < a.nodes.size + els.length) :
    ((a.pushElements stack.head? els).element? x).isSome ∧
      (a.pushElements stack.head? els).parent? x = (a.pushElements stack.head? els).parent? id := by
  have hid : id < a.nodes.size := lt_size_of_isSome h.nested.1
  constructor
  · have hget : x - a.nodes.size < els.length := by omega
    have hel : (a.pushElements stack.head? els).element? x = some els[x - a.nodes.size] := by
      rw [element?_eq_some_iff, kind?_pushElements, if_neg (not_lt.mpr hfirst),
        getElem?_eq_getElem hget]
      rfl
    exact isSome_of_eq_some hel
  · rw [parent?_pushElements, if_pos ⟨hfirst, hlast⟩, (Extends.pushElements ..).parent id hid,
      h.nested.2.1]

end Sound

/-- The tree `a'` has the nodes of `a` as they are, and beyond them only elements below `above`
that satisfy `P`. -/
structure AddsElements (a : Ast) (above : Option NodeId) (P : Element → Prop) (a' : Ast) : Prop
    extends Extends a a' where
  old : ∀ x < a.nodes.size, a'.kind? x = a.kind? x
  added : ∀ x kind, a.nodes.size ≤ x → a'.kind? x = some kind →
    a'.parent? x = above ∧ ∃ el, kind = .element el ∧ P el

namespace AddsElements

variable {above : Option NodeId} {P : Element → Prop} {a' : Ast} {x : NodeId}

theorem old_element (h : a.AddsElements above P a') (hx : x < a.nodes.size) :
    a'.element? x = a.element? x := by
  unfold element?
  rw [h.old x hx]

theorem added_element (h : a.AddsElements above P a') (hx : a.nodes.size ≤ x)
    (hel : a'.element? x = some el) : a'.parent? x = above ∧ P el := by
  obtain ⟨hpar, el', heq, hP⟩ := h.added x _ hx (element?_eq_some_iff.mp hel)
  cases heq
  exact ⟨hpar, hP⟩

theorem element?_place {new : Element}
    (hnodes : a'.nodes = ((a.push above (.element new)).pushElements above others).nodes)
    (el : Element) : (a'.setElement a.nodes.size el).element? a.nodes.size = some el := by
  refine element?_modifyElement_self (?_ : a'.element? _ = some new)
  rw [element?_eq_some_iff]
  unfold kind?
  rw [hnodes]
  show kind? _ _ = _
  rw [kind?_pushElements, size_push, if_pos (lt_succ_self _), kind?_push, if_pos rfl]

theorem place {new : Element}
    (hnodes : a'.nodes = ((a.push above (.element new)).pushElements above others).nodes)
    (hel : P el) (hoth : ∀ other ∈ others, P other) :
    a.AddsElements above P (a'.setElement a.nodes.size el) := by
  have hkind (x : NodeId) : a'.kind? x =
      ((a.push above (.element new)).pushElements above others).kind? x := by
    unfold kind?
    rw [hnodes]
  have hpar (x : NodeId) : a'.parent? x =
      ((a.push above (.element new)).pushElements above others).parent? x := by
    unfold parent?
    rw [hnodes]
  have hsize : a'.nodes.size = a.nodes.size + 1 + others.length := by
    rw [hnodes, size_pushElements, size_push]
  have hset (x : Nat) (hx : x < a.nodes.size) :
      (a'.setElement a.nodes.size el).kind? x = a.kind? x := by
    have hx' : x < a.nodes.size + 1 := lt_succ_of_lt hx
    rw [setElement, kind?_modifyElement, if_neg (ne_of_gt hx), hkind, kind?_pushElements,
      size_push, if_pos hx', kind?_push, if_neg (Nat.ne_of_lt hx)]
  refine ⟨⟨?_, fun x hx => ?_, fun x hx => ?_⟩, hset, fun x kind hx hx' => ⟨?_, ?_⟩⟩
  · rw [setElement, size_modifyElement]
    omega
  · have hnew : ¬ (a.nodes.size + 1 ≤ x ∧ x < a.nodes.size + 1 + others.length) := by omega
    rw [setElement, parent?_modifyElement, hpar, parent?_pushElements, size_push, if_neg hnew,
      parent?_push_of_lt hx]
  · obtain ⟨elx, helx⟩ := isSome_iff_exists.mp hx
    have hold := hset x (lt_size_of_element? helx)
    rw [element?_eq_some_iff.mp helx] at hold
    exact isSome_of_eq_some (element?_eq_some_iff.mpr hold)
  · have hlt : x < a.nodes.size + 1 + others.length := by
      have := lt_size_of_kind? hx'
      rwa [setElement, size_modifyElement, hsize] at this
    rw [setElement, parent?_modifyElement, hpar, parent?_pushElements, size_push, parent?_push]
    by_cases hfirst : x = a.nodes.size
    · rw [if_pos hfirst, ite_self]
    · have hnew : a.nodes.size + 1 ≤ x ∧ x < a.nodes.size + 1 + others.length := by omega
      rw [if_pos hnew]
  · rw [setElement, kind?_modifyElement] at hx'
    split at hx'
    · next hfirst =>
      -- The first of the new nodes is the element that is set.
      have hfirst' : x < a.nodes.size + 1 := lt_succ_of_le (le_of_eq hfirst.symm)
      rw [hkind, kind?_pushElements, size_push, if_pos hfirst', kind?_push,
        if_pos hfirst.symm] at hx'
      exact ⟨el, (Option.some.inj hx').symm, hel⟩
    · next hne =>
      have hnew : ¬ x < a.nodes.size + 1 :=
        not_lt.mpr (succ_le_of_lt (lt_of_le_of_ne hx hne))
      rw [hkind, kind?_pushElements, size_push, if_neg hnew] at hx'
      obtain ⟨other, hother, heq⟩ := map_eq_some_iff.mp hx'
      exact ⟨other, heq.symm, hoth other (mem_of_getElem? hother)⟩

end AddsElements

end Ast

/-! ## Closing an element -/

/-- What becomes of an element when it is closed. -/
structure Element.Closes (s : Settings) (seen : List Signal) (el el' : Element) : Prop
    extends Drops el el' where
  written : el'.Written s seen

namespace Builder

variable {o : Options} {s : Settings} {seen : List Signal} {b : Builder} {id p : NodeId}
  {rest : List NodeId} {el el' : Element} {a a' : Ast}

theorem dropSpaces_sublist (a : Ast) (children : List NodeId) :
    (dropSpaces a children).Sublist children := by
  have := (dropWhile_sublist (l := children.reverse) a.isSpace).reverse
  rwa [reverse_reverse] at this

theorem trimmed_closes (b : Builder) (hel : el.Written s seen) :
    el.Closes s seen (b.trimmed el) := by
  unfold trimmed
  split
  · exact ⟨⟨List.Sublist.refl _, List.Sublist.refl _, rfl, rfl⟩, hel⟩
  · exact ⟨⟨dropSpaces_sublist _ _, List.Sublist.refl _, rfl, rfl⟩,
      hel.drop rfl (List.Subset.refl _)⟩

theorem finished_spec (ho : o.UsesWeb) (b : Builder) (id : NodeId)
    (hel : el.Written o.toSettings seen) :
    (b.finished o id (b.trimmed el)).Ensures (el.Closes o.toSettings seen) := by
  have htrim := b.trimmed_closes hel
  unfold finished
  split
  · exact .pure htrim
  · refine (process_spec ho _ _).mono fun el' hel' => ?_
    obtain ⟨tag, attrs, unary, span, hmem, hfrom⟩ := htrim.written
    have hframe := hel'.frame
    refine ⟨⟨?_, ?_, ?_, ?_⟩, ?_⟩
    · rw [show el'.children = _ from congrArg Frame.children hframe]
      exact htrim.children
    · rw [show el'.scopedSlots = _ from congrArg Frame.scopedSlots hframe]
      exact htrim.scopedSlots
    · exact (congrArg Frame.conditions hframe).trans htrim.conditions
    · exact (congrArg Frame.ifExp hframe).trans htrim.ifExp
    · exact ⟨tag, attrs, unary, span, hmem, hfrom.refine hel'.toRefines⟩

/-! ### Its place in the tree -/

/-- A branch at the end of a chain is a new link to its element. -/
theorem mem_links_addBranch {c : Condition} {x : NodeId}
    (hx : x ∈ { el with conditions := el.conditions ++ [c] }.links) :
    x ∈ el.links ∨ x = c.block := by
  rcases mem_links.mp hx with hx | hx
  · exact .inl (mem_links.mpr (.inl hx))
  · cases hconds : el.conditions with
    | nil => simp [branchNodes, hconds] at hx
    | cons first others =>
      simp only [branchNodes, hconds, cons_append, tail_cons, map_append,
        mem_append, map_cons, map_nil, mem_singleton] at hx
      refine hx.imp_left fun hx => branch_link ?_
      rwa [branchNodes, hconds]

/-- The innermost open element may be closed as a branch of an element before it that has a
condition and the same parent, and does not stand before the open elements. -/
theorem addBranch_sound (h : a.Sound s seen (id :: rest)) {head : NodeId} {headEl : Element}
    (hhead : a.element? head = some headEl) (hif : headEl.ifExp.isSome) (hlt : head < id)
    (hpar : a.parent? head = rest.head?) (hlast : ∀ e ∈ rest, e ≤ head)
    (exp : Option String) : (addBranch a head ⟨exp, id⟩).Sound s seen rest := by
  have hfits := (h.fits head headEl hhead).addBranch (c := ⟨exp, id⟩)
    (h.toOpenAt.next hhead hlt) (by rw [h.nested.2.1, hpar]) h.nested.1 hif
  refine h.modifyElement ?_ fun _ _ hw => hw.drop rfl (List.Subset.refl _)
  exact h.toOpenAt.link hhead hfits (fun y hy => mem_links_addBranch hy) hlast

/-- Dropping text and comments leaves a part of the siblings. -/
theorem dropToElement_suffix (s : Settings) (a : Ast) (siblings : List NodeId) :
    (dropToElement s a siblings).value <:+ siblings := by
  induction siblings with
  | nil => exact suffix_refl _
  | cons first others ih =>
    have hdropped := ih.trans (suffix_cons first others)
    unfold dropToElement
    split
    · exact suffix_refl _
    · split <;> exact hdropped
    · exact hdropped

theorem lastElements_front (s : Settings) (hpar : a.element? p = some el) :
    (a.lastElements s p).reverse <+: el.children := by
  have hsuffix := dropToElement_suffix s a el.children.reverse
  rw [← reverse_prefix, reverse_reverse] at hsuffix
  rwa [Ast.lastElements, hpar]

theorem upToElement_sound (h : a.Sound s seen (id :: p :: rest)) :
    (a.upToElement s p).Sound s seen (id :: p :: rest) := by
  obtain ⟨parent, hpar⟩ := isSome_iff_exists.mp h.nested.2.2.1
  exact h.keepChildren hpar (lastElements_front s hpar).sublist

theorem joins_sound {stray : Prop} (h : a.Sound s seen (id :: rest))
    (hjoins : a.Joins s id el stray rest.head? a') : a'.Sound s seen rest := by
  cases rest with
  | nil =>
    cases hjoins with
    | root | extra => exact h.pop
    | @rootBranch head _ hroot hne hhead hif =>
      obtain rfl : head = 0 := h.rootFirst head hroot
      exact addBranch_sound h hhead hif (Nat.pos_of_ne_zero hne.symm) h.parent?_zero (by simp) _
  | cons p rest =>
    obtain ⟨parent, hpar⟩ := isSome_iff_exists.mp h.nested.2.2.1
    have hfits := h.fits p parent hpar
    have hlt := h.parents id p h.nested.2.1
    have hnext := h.toOpenAt.next hpar hlt
    have hdropped := upToElement_sound h
    cases hjoins with
    | forbidden => exact h.pop
    | lone => exact hdropped.pop
    | @branch _ head _ hlast hhead hif =>
      have hpar' : (a.upToElement s p).element? p = _ := Ast.element?_modifyElement_self hpar
      have hchild : head ∈ (a.lastElements s p).reverse := mem_reverse.mpr (mem_of_mem_head? hlast)
      have hlinked := Ast.links_eq hpar' ▸ child_link hchild
      refine addBranch_sound hdropped hhead hif (hdropped.earlier id (by simp) p hlt head hlinked)
        ((hdropped.fits p _ hpar').childParent head hchild) (fun e he => ?_) _
      have hle := hdropped.pop.toOpenAt.le_head e he
      exact le_of_lt (lt_of_le_of_lt hle (hdropped.lt_of_mem_links hlinked).1)
    | slot name =>
      -- A slot of the same name gives way to the new one.
      have hdrop : parent.Drops { parent with
          scopedSlots := parent.scopedSlots.filter (·.1 ≠ name) } :=
        ⟨List.Sublist.refl _, filter_sublist, rfl, rfl⟩
      have hlinks := links_addSlot { parent with
        scopedSlots := parent.scopedSlots.filter (·.1 ≠ name) } name id
      refine h.modifyElement ?_ fun _ _ hw => hw.drop rfl (List.Subset.refl _)
      refine h.toOpenAt.link hpar ((hfits.drop hdrop).addSlot (hnext.drop hdrop.links.subset)
        h.nested.2.1 h.nested.1) (fun x hx => ?_) h.pop.toOpenAt.le_head
      rcases mem_cons.mp (hlinks.mem_iff.mp hx) with rfl | hx
      · exact .inr rfl
      · exact .inl (hdrop.links.subset hx)
    | child =>
      refine h.modifyElement ?_ fun _ _ hw => hw.drop rfl (List.Subset.refl _)
      refine h.toOpenAt.link hpar (hfits.addChild hnext h.nested.2.1) (fun x hx => ?_)
        h.pop.toOpenAt.le_head
      rcases mem_cons.mp ((parent.links_addChild _).mem_iff.mp hx) with rfl | hx
      · exact .inr rfl
      · exact .inl hx

theorem close_spec (ho : o.UsesWeb) (h : b.ast.Sound o.toSettings seen (id :: b.stack)) :
    (b.close o id).Ensures fun b' =>
      b'.ast.Sound o.toSettings seen b.stack ∧ b'.stack = b.stack ∧ b'.ast.root = b.ast.root ∧
        ∀ x ≠ id, b.ast.Relinked b'.ast x := by
  refine .andYields ?_ (close_same o b id)
  obtain ⟨el, hel⟩ := isSome_iff_exists.mp h.nested.1
  rw [close_eq hel]
  refine .bind (finished_spec ho b id (h.origin id el hel)) fun el' hclosed => .lift ?_
  obtain ⟨_, _, heq, hjoins, -⟩ := joined_joins o.toSettings b id el'
  rw [heq]
  exact joins_sound (h.replace hel hclosed.toDrops hclosed.written) hjoins

/-! ## Taking a start tag -/

/-- The element `el`, which keeps to a start tag, can take the place of a new element with number
`id`. -/
structure Places (s : Settings) (seen : List Signal) (tag : String) (attrs : List Attr)
    (span : Span) (a : Ast) (id : NodeId) (stack : List NodeId) (el : Element) : Prop where
  tree : a.Sound s seen (id :: stack)
  fits : a.Fits id el
  fresh : ∀ x ∈ el.links, ∀ y, x ∉ a.links y
  origin : el.From s tag attrs span

variable {tag : String} {attrs : List Attr} {unary : Bool} {span : Span} {stack : List NodeId}

namespace Places

theorem new (h : a.Sound s seen stack) (hbare : el.Bare) (hfrom : el.From s tag attrs span)
    (hmem : event (.opened tag attrs unary span) ∈ seen) :
    Places s seen tag attrs span (a.push stack.head? (.element el)) a.nodes.size stack el := by
  refine ⟨⟨h.toOpenAt.enter hbare, h.rootFirst, fun r hr => ?_, fun j elj hj => ?_⟩, .ofBare hbare,
    fun x hx => ?_, hfrom⟩
  · exact (Ast.Extends.push ..).element r (h.rootElement r hr)
  · rcases Ast.element?_push_cases hj with ⟨-, heq⟩ | hj
    · cases heq
      exact ⟨tag, attrs, unary, span, hmem, hfrom⟩
    · exact h.origin j elj hj
  · rw [hbare.links] at hx
    cases hx

section

variable (h : Places s seen tag attrs span a id stack el)

include h

theorem change (hdrop : el.Drops el')
    (horigin : el'.From s tag attrs span) : Places s seen tag attrs span a id stack el' :=
  ⟨h.tree, h.fits.drop hdrop, fun x hx => h.fresh x (hdrop.links.subset hx), horigin⟩

/-- The element becomes the root if there is none, for then it is the first one. -/
theorem reroot (hfirst : a.root = none → id = 0) :
    Places s seen tag attrs span { a with root := a.root.or (some id) } id stack el := by
  have hext : Ast.Extends a { a with root := a.root.or (some id) } :=
    ⟨le_refl _, fun _ _ => rfl, fun _ hx => hx⟩
  obtain ⟨old, hold⟩ := isSome_iff_exists.mp h.tree.nested.1
  have hroots (r : NodeId) (hr : r ∈ a.root.or (some id)) : r ∈ a.root ∨ r = id ∧ id = 0 := by
    rw [mem_def, or_eq_some_iff] at hr
    exact hr.imp_right fun ⟨hnone, heq⟩ => ⟨(Option.some.inj heq).symm, hfirst hnone⟩
  refine ⟨⟨h.tree.toOpenAt.ofNodes rfl, fun r hr => ?_, fun r hr => ?_, h.tree.origin⟩,
    h.fits.extend (Ast.lt_size_of_element? hold) hext, h.fresh, h.origin⟩
  · rcases hroots r hr with hr | ⟨rfl, hzero⟩
    · exact h.tree.rootFirst r hr
    · exact hzero
  · rcases hroots r hr with hr | ⟨rfl, -⟩
    · exact h.tree.rootElement r hr
    · exact h.tree.nested.1

theorem place (hmem : event (.opened tag attrs unary span) ∈ seen) :
    (a.setElement id el).Sound s seen (id :: stack) := by
  obtain ⟨old, hold⟩ := isSome_iff_exists.mp h.tree.nested.1
  have hle := h.tree.toOpenAt.le_head
  refine h.tree.modifyElement ?_ fun _ _ _ => ⟨tag, attrs, unary, span, hmem, h.origin⟩
  refine h.tree.toOpenAt.modify hold h.fits fun x hx => .inr ⟨fun hx' => ?_, h.fresh x hx, hle⟩
  exact lt_irrefl x (lt_of_le_of_lt (hle x hx') (h.fits.lt_of_mem_links hx))

end

end Places

theorem enter_places (h : Places s seen tag attrs span b.ast id stack el) :
    Places s seen tag attrs span b.ast id stack (b.enter s el).2 := by
  unfold enter
  split
  · exact h
  · obtain ⟨pre, pending, hwo, hpre, heq⟩ := el.takePre_cases s
    rw [heq]
    refine h.change ⟨List.Sublist.refl _, List.Sublist.refl _, rfl, rfl⟩ ?_
    have horigin := h.origin
    refine ⟨horigin.tag, horigin.span, horigin.marks, fun hp => ?_, horigin.written,
      fun hb => ?_, horigin.literal, horigin.style⟩
    · exact (hpre hp).elim horigin.pre horigin.written
    · exact fun attr hattr => horigin.pending hb (hwo.sublist.subset hattr)

theorem enter_shape (s : Settings) (b : Builder) (h : el.Bare ∨ el.processed) :
    (b.enter s el).2.Bare ∨ (b.enter s el).2.processed := by
  unfold enter
  split
  · exact h
  · rw [takePre_eq]
    exact h.imp_left fun h => ⟨h.children, h.scopedSlots, h.conditions, h.ifExp⟩

/-- The structural directives of a new element fit it into the tree. -/
theorem structured_places (b : Builder) (h : Places s seen tag attrs span a id stack el)
    (hshape : el.Bare ∨ el.processed) :
    Places s seen tag attrs span a id stack (b.structured s id el).value := by
  unfold structured
  split
  · refine h.change ?_ h.origin.keepAttributes
    unfold keepAttributes
    split
    · split <;> exact ⟨List.Sublist.refl _, List.Sublist.refl _, rfl, rfl⟩
    · exact ⟨List.Sublist.refl _, List.Sublist.refl _, rfl, rfl⟩
  · split
    · exact h
    · next hproc =>
      have hbare : el.Bare := hshape.resolve_right hproc
      obtain ⟨loop, once, pending, ifExp, conditions, isElse, elseIf, heq, hwo, hcondition⟩ :=
        el.structural_cases s id
      rw [heq]
      rcases hcondition with ⟨rfl, rfl⟩ | ⟨exp, rfl, rfl⟩
      · exact h.change ⟨List.Sublist.refl _, List.Sublist.refl _, rfl, rfl⟩
          (h.origin.drop rfl hwo.sublist.subset)
      · have hconds : el.conditions ++ [⟨some exp, id⟩] = [⟨some exp, id⟩] := by
          rw [hbare.conditions, nil_append]
        refine ⟨h.tree, ?_, fun x hx => ?_, h.origin.drop rfl hwo.sublist.subset⟩
        · exact .ofUnbranched hbare.children hbare.scopedSlots
            (by rw [branchNodes, hconds]; rfl) (by rw [hconds]; rfl) fun _ => h.tree.nested.1
        · simp [links, slotNodes, branchNodes, hbare.children, hbare.scopedSlots, hconds] at hx

theorem linkChain_eq (link : ChainLink) : el.linkChain link =
    { el with elseIf := (el.linkChain link).elseIf, isElse := (el.linkChain link).isElse } := by
  cases link <;> rfl

/-- What holds of the elements of an expansion, or of the element itself if there is none. -/
theorem expanded_each (ho : o.UsesWeb) {P : Element → Prop} (b : Builder) (id : NodeId) (hel : P el)
    (hchain : ∀ el ifExp conditions elseIf isElse, P el →
      P { el with ifExp, conditions, elseIf, isElse })
    (hnew : ∀ ns span loop once pending source,
      (({ tag := el.tag, ns, span, loop, once, pending, source } : Element).process o
        (b.ast.ancestorElements id)).Ensures P) :
    (b.expanded o id el).Ensures fun r => P r.2 ∧ ∃ others,
      r.1 = { b with ast := b.ast.pushElements b.parent? others } ∧ ∀ other ∈ others, P other := by
  have hbr first branch :
      (branchElement o (b.ast.ancestorElements id) el first branch).Ensures P := by
    obtain ⟨_, _, _, _, heq, -⟩ := result_branchElement o _ el first branch
    exact .ofResult heq (hnew ..)
  refine .bind (expansion?_eq o.toSettings el ho.modules) fun r _ => ?_
  cases r with
  | none => exact .pure ⟨hel, [], rfl, by simp⟩
  | some e =>
    show (b.expand o id el e).Ensures _
    unfold expand
    cases e.branches with
    | nil =>
      rw [linkChain_eq]
      exact .pure ⟨hchain _ _ _ _ _ hel, [], rfl, by simp⟩
    | cons branch rest =>
      refine .bind (hbr true branch) fun head hhead => ?_
      refine .bind (otherBranches_each fun b _ => hbr false b) fun others hoth => .pure ?_
      refine ⟨?_, others, rfl, hoth.2⟩
      rw [linkChain_eq]
      exact hchain head _ _ _ _ hhead

/-- The elements of an expansion stand beside each other, and the first one has the place of the
element that was expanded. -/
theorem expand_places (ho : o.UsesWeb)
    (h : Places o.toSettings seen tag attrs span b.ast id b.stack el)
    (hmem : event (.opened tag attrs unary span) ∈ seen) {e : Expansion}
    (he : e.Proper o.toSettings attrs) :
    (b.expand o id el e).Ensures fun r =>
      Places o.toSettings seen tag attrs span r.1.ast id b.stack r.2 ∧ r.2.processed ∧
        r.1.stack = b.stack ∧ r.1.ast.root = b.ast.root := by
  obtain ⟨branch, rest, exp, hbrs, hexp⟩ := he.first
  have hid : id < b.ast.nodes.size := Ast.lt_size_of_isSome h.tree.nested.1
  have hprop := he.branches
  rw [hbrs] at hprop
  unfold expand
  rw [hbrs]
  refine .bind (branchElement_spec ho _ el true (hprop branch (by simp))) fun head hhead => ?_
  refine .bind (otherBranches_spec ho _ el rest fun b hb => hprop b (by simp [hb]))
    fun others ⟨hlen, hoth⟩ => .pure ?_
  rw [h.origin.tag, h.origin.span] at hhead hoth
  have hbare : ∀ other ∈ others, other.Bare := fun other hother => (hoth other hother).bare
  have htree : (b.ast.pushElements b.stack.head? others).Sound o.toSettings seen (id :: b.stack) :=
    h.tree.pushElements hbare fun other hother =>
      ⟨tag, attrs, unary, span, hmem, (hoth other hother).origin⟩
  have hblocks : ((rest.zip (List.range' b.ast.nextId others.length)).map
      fun p => (⟨p.1.condition, p.2⟩ : Condition)).map (·.block) =
      List.range' b.ast.nodes.size others.length := by
    rw [List.map_map]
    exact map_snd_zip (by simp [hlen])
  generalize (rest.zip (List.range' b.ast.nextId others.length)).map
    (fun p => (⟨p.1.condition, p.2⟩ : Condition)) = later at hblocks ⊢
  have hconds : head.conditions ++ ⟨branch.condition, id⟩ :: later = ⟨some exp, id⟩ :: later := by
    rw [hhead.bare.conditions, hexp]
    rfl
  rw [linkChain_eq]
  refine ⟨⟨htree, ?_, fun x hx y hy => ?_, hhead.origin.drop rfl (List.Subset.refl _)⟩,
    hhead.processed, rfl, Ast.root_pushElements ..⟩
  · refine .ofBranches _ _ hid (fun x hfirst hlast => h.tree.beside_pushElements hfirst hlast)
      hhead.bare.children hhead.bare.scopedSlots ?_ ?_ fun _ => htree.nested.1
    · rw [branchNodes, hconds, tail_cons, hblocks]
    · rw [hconds, hexp]
      rfl
  · -- The branches are new, so nothing can link to them.
    have hx' : x ∈ List.range' b.ast.nodes.size others.length := by
      simpa [links, slotNodes, branchNodes, hhead.bare.children,
        hhead.bare.scopedSlots, hconds, hblocks] using hx
    have hlt := (h.tree.lt_of_mem_links (Ast.mem_links_of_pushElements hbare hy)).2
    exact lt_irrefl x (lt_of_lt_of_le hlt (mem_range'_1.mp hx').1)

theorem newElement_spec (s : Settings) (b : Builder) (tag : String) (attrs : List Attr)
    (span : Span) :
    (b.newElement s tag attrs span).Bare ∧ (b.newElement s tag attrs span).From s tag attrs span ∧
      ∀ name, (b.newElement s tag attrs span).hasAttr name →
        ∃ attr ∈ attrs, attr.name = name := by
  have hwr (name : String) (h : (b.newElement s tag attrs span).hasAttr name) :
      ∃ attr ∈ attrs, attr.name = name := by
    rw [hasAttr, newElement, ofTag, Dict.contains_ofList] at h
    simpa using h
  refine ⟨⟨rfl, rfl, rfl, rfl⟩, ⟨rfl, rfl, rfl, fun h => ?_, hwr _, fun _ => ?_,
    fun _ _ b hb => ?_, fun text htext => ?_⟩, hwr⟩
  · cases h
  · exact List.Subset.refl attrs
  · cases hb
  · cases htext

theorem expanded_places (ho : o.UsesWeb)
    (h : Places o.toSettings seen tag attrs span b.ast id b.stack el)
    (hmem : event (.opened tag attrs unary span) ∈ seen) (hbare : el.Bare)
    (hpend : el.pending = attrs)
    (hwr : ∀ name, el.hasAttr name → ∃ attr ∈ attrs, attr.name = name) :
    (b.expanded o id el).Ensures fun r =>
      Places o.toSettings seen tag attrs span r.1.ast id b.stack r.2 ∧
        (r.2.Bare ∨ r.2.processed) ∧ r.1.stack = b.stack ∧ r.1.ast.root = b.ast.root := by
  subst hpend
  refine .bind (expansion?_spec hwr o.modules ho.modules) fun r hr => ?_
  cases r with
  | none => exact .pure ⟨h, .inl hbare, rfl, rfl⟩
  | some e =>
    refine (expand_places ho h hmem (hr e rfl)).mono fun r hr => ?_
    exact ⟨hr.1, .inr hr.2.1, hr.2.2⟩

/-- Puts the element of a start tag in its place. It is not open yet. -/
def placed (o : Options) (b : Builder) (tag : String) (attrs : List Attr) (span : Span) :
    Outcome Builder := do
  let s := o.toSettings
  let id := b.ast.nextId
  let el := b.newElement s tag attrs span
  reportDuplicates [] attrs
  reportForbidden el
  let (b, el) ← expanded o { b with ast := b.ast.push b.parent? (.element el) } id el
  let (b, el) := b.enter s el
  let el ← b.structured s id el
  let b ← b.withRoot s id el
  return { b with ast := b.ast.setElement id el }

theorem openElement_eq :
    b.openElement o tag attrs unary span = b.placed o tag attrs span >>= fun b' =>
      if unary then b'.close o b.ast.nodes.size
      else pure { b' with stack := b.ast.nodes.size :: b'.stack } := by
  unfold openElement placed
  simp only [bind_assoc, pure_bind]
  rfl

section

variable (ho : o.UsesWeb) (h : b.ast.Sound o.toSettings seen b.stack)
  (hrootless : b.ast.root = none → b.ast.nodes.size = 0)
  (hmem : event (.opened tag attrs unary span) ∈ seen)

include ho h hrootless hmem

theorem placed_spec : (b.placed o tag attrs span).Ensures fun b' =>
      b'.ast.Sound o.toSettings seen (b.ast.nodes.size :: b.stack) ∧ b'.ast.root ≠ none ∧
        b'.stack = b.stack := by
  obtain ⟨hbare, hfrom, hwr⟩ := newElement_spec o.toSettings b tag attrs span
  have hpend : (b.newElement o.toSettings tag attrs span).pending = attrs := rfl
  unfold placed
  dsimp only [Ast.nextId]
  generalize b.newElement o.toSettings tag attrs span = new at hbare hfrom hwr hpend ⊢
  have hplaced : Places o.toSettings seen tag attrs span (b.ast.push b.parent? (.element new))
      b.ast.nodes.size b.stack new := .new h hbare hfrom hmem
  have hexpanded := expanded_places (b := { b with ast := b.ast.push b.parent? (.element new) })
    ho hplaced hmem hbare hpend hwr
  refine .bindLift (.bindLift (.bind hexpanded fun r hr => .bindLift (.bindLift (.pure ?_))))
  obtain ⟨hr, hshape, hstack, hroot⟩ := hr
  -- The content is entered, and the structural directives are taken.
  have hstruct := structured_places (r.1.enter o.toSettings r.2).1 (enter_places (b := r.1) hr)
    (enter_shape o.toSettings r.1 hshape)
  generalize ((r.1.enter o.toSettings r.2).1.structured o.toSettings b.ast.nodes.size
    (r.1.enter o.toSettings r.2).2).value = el at hstruct ⊢
  obtain ⟨reported, heq⟩ :=
    withRoot_eq o.toSettings (r.1.enter o.toSettings r.2).1 b.ast.nodes.size el
  rw [heq]
  have hfirst (hnone : r.1.ast.root = none) : b.ast.nodes.size = 0 := hrootless (hroot ▸ hnone)
  refine ⟨(hstruct.reroot hfirst).place hmem, ?_, hstack⟩
  show r.1.ast.root.or (some b.ast.nodes.size) ≠ none
  simp

/-- Taking a start tag keeps the tree sound. The new element is open unless it is unary. -/
theorem openElement_spec : (b.openElement o tag attrs unary span).Ensures fun b' =>
      b'.ast.Sound o.toSettings seen b'.stack ∧ b'.ast.root ≠ none ∧
        b'.stack = if unary then b.stack else b.ast.nodes.size :: b.stack := by
  rw [openElement_eq]
  refine .bind (placed_spec ho h hrootless hmem) fun b₁ ⟨hsound, hroot, hstack⟩ => ?_
  rw [← hstack] at hsound ⊢
  split
  · refine (close_spec ho hsound).mono fun b' hb' => ?_
    rw [hb'.2.1, hb'.2.2.1]
    exact ⟨hb'.1, hroot, rfl⟩
  · exact .pure ⟨hsound, hroot, rfl⟩

end

/-! ## All signals -/

/-- What holds of the builder between two signals. -/
structure Keeps (o : Options) (seen : List Signal) (b : Builder) : Prop where
  tree : b.ast.Sound o.toSettings seen b.stack
  rootless : b.ast.root = none → b.ast.nodes.size = 0

theorem Keeps.rooted (h : b.Keeps o seen) (hstack : b.stack = p :: rest) : b.ast.root ≠ none := by
  intro hnone
  have htree := h.tree
  rw [hstack] at htree
  have hlt : p < b.ast.nodes.size := Ast.lt_size_of_isSome htree.nested.1
  rw [h.rootless hnone] at hlt
  exact not_lt_zero p hlt

theorem Keeps.addChild (h : b.Keeps o seen) (hstack : b.stack = p :: rest)
    (hkind : ∀ el, kind ≠ .element el) : (b.addChild p kind).Keeps o seen := by
  have htree := h.tree
  rw [hstack] at htree
  refine ⟨?_, fun hnone => absurd hnone (h.rooted hstack)⟩
  show ((b.ast.push (some p) kind).modifyElement p _).Sound o.toSettings seen b.stack
  rw [hstack]
  exact htree.addChild hkind

theorem signal_spec (ho : o.UsesWeb) (h : b.Keeps o seen) (source : String) {signal : Signal}
    (hseen : signal ∈ seen) : (b.signal o source signal).Ensures (Keeps o seen) := by
  have hacts := b.signal_acts o source signal
  generalize b.signal o source signal = x at hacts ⊢
  cases hacts with
  | warning w span => exact .bindLift (.pure h)
  | opened tag attrs unary span =>
    refine (openElement_spec ho h.tree h.rootless hseen).mono ?_
    rintro b' ⟨htree, hroot, -⟩
    exact ⟨htree, fun hnone => absurd hnone hroot⟩
  | closed tag span hstack =>
    have htree := h.tree
    rw [hstack] at htree
    refine (close_spec ho htree).mono ?_
    rintro b' ⟨hclosed, hstk', hroot, -⟩
    exact ⟨hstk' ▸ hclosed, fun hnone => absurd (hroot.symm.trans hnone) (h.rooted hstack)⟩
  | outside content span hstack =>
    obtain ⟨_, _, heq⟩ := textOutside_eq source b content
    exact .lift (heq ▸ ⟨h.tree, h.rootless⟩)
  | child hstack hkind => exact .pure (h.addChild hstack hkind.ne_element)
  | unopened | textDropped | commentDropped => exact .pure h

theorem signals_spec (ho : o.UsesWeb) (h : b.Keeps o seen) (source : String)
    (hseen : signals ⊆ seen) :
    (Builder.signals o source signals b).Ensures (Keeps o seen) := by
  induction signals generalizing b with
  | nil => exact .pure h
  | cons first later ih =>
    obtain ⟨hfirst, hlater⟩ := cons_subset.mp hseen
    exact .bind (signal_spec ho h source hfirst) fun b' hb' => ih hb' hlater

theorem keeps_empty (o : Options) : ({} : Builder).Keeps o seen where
  tree := {
    fits := fun _ _ h => by cases h
    parents := fun _ _ h => by cases h
    owner := fun _ _ _ h => by cases h
    nested := trivial
    unlinked := fun _ h => by cases h
    earlier := fun _ h => by cases h
    rootFirst := fun _ h => by cases h
    rootElement := fun _ h => by cases h
    origin := fun _ _ h => by cases h }
  rootless _ := rfl

/-- Reading a template leaves no element open. -/
theorem signals_read (ho : o.UsesWeb) (source : String) :
    (Builder.signals o source (read o.tags o.comments source) {}).Ensures fun b =>
      b.Keeps o (read o.tags o.comments source) ∧ b.stack = [] := by
  exact (signals_spec ho (keeps_empty o) source (List.Subset.refl _)).andYields
    (signals_read_stack o source)

end Builder

theorem result_parse (o : Options) (source : String) {b : Builder}
    (h : (Builder.signals o source (read o.tags o.comments source) {}).result = .ok b) :
    (parse o source).result = .ok b.ast := by
  unfold parse
  rw [Outcome.result_bind, h]
  show (Outcome.result (if _ then _ else _)) = _
  split <;> rfl

theorem ensures_parse (ho : o.UsesWeb) (source : String) :
    (parse o source).Ensures fun tree => tree.WellFormed ∧
      (∀ r ∈ tree.root, (tree.element? r).isSome) ∧
      ∀ id el, tree.element? id = some el → el.StyleBraced := by
  obtain ⟨b, hb, hkeeps, -⟩ := Builder.signals_read ho source
  refine ⟨b.ast, result_parse o source hb, hkeeps.tree.toWellFormed,
    fun r hr => hkeeps.tree.rootElement r hr, fun id el hel => ?_⟩
  obtain ⟨tag, attrs, unary, span, -, hfrom⟩ := hkeeps.tree.origin id el hel
  exact hfrom.style

/-- Every template is read into a well-formed tree, and no element is left open. -/
theorem parse_wellFormed (o : Options) (ho : o.UsesWeb) (source : String) :
    ∃ b, (Builder.signals o source (read o.tags o.comments source) {}).result = .ok b ∧
      (parse o source).result = .ok b.ast ∧ b.stack = [] ∧ b.ast.WellFormed := by
  obtain ⟨b, hb, hkeeps, hstack⟩ := Builder.signals_read ho source
  exact ⟨b, hb, result_parse o source hb, hstack, hkeeps.tree.toWellFormed⟩

/-- Unclosed tags, a chain with text in it and an input that is expanded. -/
theorem parse_wellFormed_malformed : Web.options.UsesWeb ∧
      ∃ b, (Builder.signals Web.options "<ul><li r-if=a>x y<li r-else><input :type=t r-model=m>"
          (read Web.options.tags Web.options.comments
            "<ul><li r-if=a>x y<li r-else><input :type=t r-model=m>") {}).result = .ok b ∧
        (parse Web.options "<ul><li r-if=a>x y<li r-else><input :type=t r-model=m>").result =
          .ok b.ast ∧ b.stack = [] ∧ b.ast.WellFormed :=
  ⟨Web.usesWeb_options, parse_wellFormed Web.options Web.usesWeb_options _⟩

end TemplateCompiler
