import TemplateCompiler.Proofs.Ancestry
import TemplateCompiler.Proofs.Building

/-!
# Properties of all nodes of a tree

A property of nodes holds of every node of the tree of a template if it holds of those that signals
add, and is kept by the few things that the builder does to an element afterwards: to take
attributes off it, to link it, and to process it. `Tends` lists these, and `parse_each` runs through
the builder once for all such properties. More may be known of an element while its start tag is
taken (`N`) and while it is open (`R`). It is linked while it is open, and what is known then must
not depend on links.

The property may depend on what is around the node (`Around`): whether it stands in a loop, and
whether it is left as written. Both are settled when an element is put in its place, since the
parents, loops and attributes of the elements above stay the same (`Ast.KeepsOuter`). The builder
knows the second by a flag, which it sets and takes back by marks of its own. The flag says whether
one of the open elements carries the directive, because of the elements that carry it only the
outermost is marked (`Ast.PreMarked`).
-/

namespace TemplateCompiler

open Markup List Option Element Ast Builder

variable {kind : NodeKind} {o : Options}

/-- What the elements above a node say about it. -/
structure Around where
  /-- One of them has a loop. -/
  looped : Bool
  /-- One of them has the directive to leave it as written. -/
  written : Bool

variable {P : Around → NodeKind → Prop} {N : Around → Element → Prop} {R : Element → Prop}

/-- What an element says about the nodes inside it, and its mark. -/
def Element.outer (el : Element) : Option LoopHead × Dict String × Bool :=
  (el.loop, el.source, el.pre)

namespace Element

theorem pre_takePre {el : Element} (s : Settings) (h : el.pre = false) :
    (el.takePre s).pre = el.hasAttr (s.directive "pre") := by
  obtain ⟨pending, -, htake⟩ := el.take_cases (s.directive "pre")
  have hwr : el.hasAttr (s.directive "pre") = (el.attr? (s.directive "pre")).isSome := rfl
  unfold takePre takeFlag
  dsimp only
  rw [fst_take, htake, ← hwr]
  split
  · next hpre => exact hpre.symm
  · next hpre => rw [Bool.not_eq_true] at hpre; rw [hpre]; exact h

theorem keepAttributes_eq (el : Element) : el.keepAttributes =
    { el with attrs := el.keepAttributes.attrs, plain := el.keepAttributes.plain } := by
  unfold keepAttributes
  split
  · split <;> rfl
  · rfl

end Element

namespace Ast

variable {a a' a'' : Ast} {s : Settings} {id x : NodeId} {el : Element} {parent : Option NodeId}
  {stack : List NodeId} {name : String} {f : Element → Element}

theorem Nested.elements (h : a.Nested stack) : ∀ x ∈ stack, ∃ el, a.element? x = some el := by
  induction stack with
  | nil => exact nofun
  | cons e rest ih => exact forall_mem_cons.mpr ⟨isSome_iff_exists.mp h.1, ih h.2.2⟩

theorem Nested.lt_size (h : a.Nested stack) (x : NodeId) (hx : x ∈ stack) : x < a.nodes.size := by
  obtain ⟨el, hel⟩ := h.elements x hx
  exact lt_size_of_element? hel

theorem ParentsFirst.push (h : a.ParentsFirst) (hpar : ∀ p ∈ parent, p < a.nodes.size)
    : (a.push parent kind).ParentsFirst := by
  intro x p hp
  rw [parent?_push] at hp
  split at hp
  · next heq => exact heq ▸ hpar p hp
  · exact h x p hp

/-! ## What is around a node -/

def around (a : Ast) (s : Settings) (x : NodeId) : Around :=
  ⟨a.anyAbove (·.loop.isSome) x, a.anyAbove (·.hasAttr (s.directive "pre")) x⟩

def aroundAt (a : Ast) (s : Settings) (parent : Option NodeId) : Around :=
  ⟨a.anyAt (·.loop.isSome) parent, a.anyAt (·.hasAttr (s.directive "pre")) parent⟩

theorem ParentsFirst.around_eq (h : a.ParentsFirst) :
    a.around s x = a.aroundAt s (a.parent? x) := by
  rw [around, aroundAt, h.anyAbove_eq, h.anyAbove_eq]

/-- Whether the element with a number was written with an attribute. -/
def carries (a : Ast) (name : String) (x : NodeId) : Bool := (a.element? x).any (·.hasAttr name)

/-- Of the open elements that carry an attribute, exactly the outermost one is marked. -/
def PreMarked (a : Ast) (name : String) : List NodeId → Prop
  | [] => True
  | x :: rest =>
    (∀ el, a.element? x = some el →
      el.pre = (el.hasAttr name && !rest.any (a.carries name))) ∧ a.PreMarked name rest

/-- The tree `a'` has the nodes of `a`, with the same parents, and they say the same about what is
inside them. -/
structure KeepsOuter (a a' : Ast) : Prop extends Extends a a' where
  outer : ∀ x < a.nodes.size, (a'.element? x).map outer = (a.element? x).map outer

namespace KeepsOuter

theorem refl (a : Ast) : a.KeepsOuter a := ⟨.refl a, fun _ _ => rfl⟩

theorem trans (h : a.KeepsOuter a') (h' : a'.KeepsOuter a'') : a.KeepsOuter a'' where
  toExtends := h.toExtends.trans h'.toExtends
  outer x hx := (h'.outer x (Nat.lt_of_lt_of_le hx h.size)).trans (h.outer x hx)

theorem modifyElement (hf : ∀ el, a.element? id = some el → (f el).outer = el.outer) :
    a.KeepsOuter (a.modifyElement id f) := by
  refine ⟨.modifyElement .., fun x _ => ?_⟩
  rw [element?_modifyElement]
  split
  · next heq =>
    subst heq
    cases hel : a.element? id with
    | none => rfl
    | some el => exact congrArg some (hf el hel)
  · rfl

theorem push (a : Ast) (parent : Option NodeId) (kind : NodeKind) :
    a.KeepsOuter (a.push parent kind) :=
  ⟨.push .., fun x hx => by rw [element?_push_of_lt hx]⟩

theorem add {Q : Element → Prop} (h : a.AddsElements parent Q a') : a.KeepsOuter a' :=
  ⟨h.toExtends, fun x hx => by rw [h.old_element hx]⟩

section

variable (h : a.KeepsOuter a')

include h

theorem any {q : Element → Bool} (q' : Option LoopHead × Dict String × Bool → Bool)
    (hq : ∀ el, q el = q' el.outer) (hx : x < a.nodes.size) :
    (a'.element? x).any q = (a.element? x).any q := by
  obtain rfl : q = fun el => q' el.outer := funext hq
  simpa [Option.any_map] using congrArg (Option.any q') (h.outer x hx)

theorem looped (hx : x < a.nodes.size) :
    (a'.element? x).any (·.loop.isSome) = (a.element? x).any (·.loop.isSome) :=
  h.any (·.1.isSome) (fun _ => rfl) hx

theorem carries (hx : x < a.nodes.size) : a'.carries name x = a.carries name x :=
  h.any (·.2.1.contains name) (fun _ => rfl) hx

theorem around (hpars : a.ParentsFirst) (hx : x < a.nodes.size) : a'.around s x = a.around s x := by
  have hlooped := hpars.anyAbove_congr h.toExtends (fun _ hy => h.looped hy) hx
  rw [Ast.around, hlooped]
  exact congrArg (Around.mk _) (hpars.anyAbove_congr h.toExtends (fun _ hy => h.carries hy) hx)

theorem aroundAt (hpars : a.ParentsFirst) (hpar : ∀ p ∈ parent, p < a.nodes.size) :
    a'.aroundAt s parent = a.aroundAt s parent := by
  cases parent with
  | none => rfl
  | some p =>
    have hp := hpar p rfl
    obtain ⟨hlooped, hwr⟩ := Around.mk.inj (h.around (s := s) hpars hp)
    simp only [aroundAt, anyAt, any_some, hlooped, hwr, h.looped hp]
    exact congrArg (fun c => Around.mk _ (c || _)) (h.carries hp)

theorem any_carries (hstk : ∀ x ∈ stack, x < a.nodes.size) :
    stack.any (a'.carries name) = stack.any (a.carries name) := by
  induction stack with
  | nil => rfl
  | cons x rest ih =>
    obtain ⟨hx, hrest⟩ := forall_mem_cons.mp hstk
    rw [any_cons, any_cons, ih hrest, h.carries hx]

theorem preMarked (hstk : ∀ x ∈ stack, x < a.nodes.size) (hmarked : a.PreMarked name stack) :
    a'.PreMarked name stack := by
  induction stack with
  | nil => trivial
  | cons x rest ih =>
    obtain ⟨hx, hrest⟩ := forall_mem_cons.mp hstk
    refine ⟨fun el' hel' => ?_, ih hrest hmarked.2⟩
    have hview := h.outer x hx
    rw [hel'] at hview
    obtain ⟨el, hel, heq⟩ := map_eq_some_iff.mp hview.symm
    simp only [Element.outer, Prod.mk.injEq] at heq
    rw [h.any_carries hrest, ← heq.2.2, hmarked.1 el hel, hasAttr, hasAttr, heq.2.1]

end

end KeepsOuter

/-! ## Properties of nodes -/

def Each (s : Settings) (P : Around → NodeKind → Prop) (a : Ast) : Prop :=
  ∀ x kind, a.kind? x = some kind → P (a.around s x) kind

namespace Each

theorem element (h : a.Each s P) (hel : a.element? x = some el) : P (a.around s x) (.element el) :=
  h x _ (element?_eq_some_iff.mp hel)

theorem modifyElement (h : a.Each s P) (hpars : a.ParentsFirst)
    (hf : ∀ el, a.element? id = some el → (f el).outer = el.outer ∧
      P (a.around s id) (.element (f el))) : (a.modifyElement id f).Each s P := by
  intro x kind hkind
  have hlt := lt_size_of_kind? hkind
  rw [size_modifyElement] at hlt
  rw [(KeepsOuter.modifyElement fun el hel => (hf el hel).1).around hpars hlt]
  rw [kind?_modifyElement] at hkind
  split at hkind
  · next heq =>
    subst heq
    obtain ⟨old, hold, rfl⟩ := map_eq_some_iff.mp hkind
    cases old with
    | element el => exact (hf el (element?_eq_some_iff.mpr hold)).2
    | text | comment => exact h id _ hold
  · exact h x kind hkind

theorem add (h : a.Each s P) (hpars : a.ParentsFirst) (hpars' : a'.ParentsFirst)
    (houter : a.KeepsOuter a') (hpar : ∀ p ∈ parent, p < a.nodes.size)
    (hold : ∀ x < a.nodes.size, a'.kind? x = a.kind? x)
    (hnew : ∀ x kind, a.nodes.size ≤ x → a'.kind? x = some kind →
      a'.parent? x = parent ∧ P (a.aroundAt s parent) kind) : a'.Each s P := by
  intro x kind hkind
  by_cases hx : x < a.nodes.size
  · rw [houter.around hpars hx]
    exact h x kind (hold x hx ▸ hkind)
  · obtain ⟨hat, hP⟩ := hnew x kind (Nat.le_of_not_lt hx) hkind
    rwa [hpars'.around_eq, hat, houter.aroundAt hpars hpar]

end Each

def SlotsScoped (a : Ast) : Prop :=
  ∀ x el, a.element? x = some el → ∀ slot ∈ el.scopedSlots,
    (a.element? slot.2).any (·.slotScope.isSome)

/-! ## Links -/

/-- What is known of open elements stays known, if it does not depend on links. -/
theorem forall₂_relinked {τ : Type} {Q : Element → τ → Prop} {ts : List τ}
    (hQ : ∀ el el' t, el'.unlinked = el.unlinked → Q el t → Q el' t)
    (h : List.Forall₂ (fun id t => ∃ el, a.element? id = some el ∧ Q el t) stack ts)
    (hlinks : ∀ x ∈ stack, a.Relinked a' x) :
    List.Forall₂ (fun id t => ∃ el, a'.element? id = some el ∧ Q el t) stack ts := by
  induction h with
  | nil => exact .nil
  | cons hfirst _ ih =>
    obtain ⟨el, hel, hq⟩ := hfirst
    obtain ⟨el', hel', heq⟩ := hlinks _ mem_cons_self el hel
    exact .cons ⟨el', hel', hQ el el' _ heq hq⟩ (ih fun x hx => hlinks x (mem_cons_of_mem _ hx))

namespace Relinks

theorem keepsOuter (h : a.Relinks parent id el a') : a.KeepsOuter a' := by
  induction h with
  | refl => exact .refl a
  | children | branch | slot => exact .trans ‹_› (.modifyElement fun _ _ => rfl)

theorem parentsFirst (h : a.Relinks parent id el a') (hpars : a.ParentsFirst) :
    a'.ParentsFirst := by
  induction h with
  | refl => exact hpars
  | children _ _ _ ih | branch _ _ _ ih | slot _ _ _ _ _ ih =>
    intro x p hp
    exact ih x p (by rwa [← parent?_modifyElement])

theorem scopedSlots (h : a.Relinks parent id el a') {q' : Element} (hq' : a'.element? x = some q') :
    ∃ q, a.element? x = some q ∧ ∀ slot ∈ q'.scopedSlots,
      slot ∈ q.scopedSlots ∨ parent ≠ none ∧ slot.2 = id ∧ el.slotScope.isSome := by
  induction h generalizing q' with
  | refl => exact ⟨q', hq', fun _ => .inl⟩
  | children _ _ _ ih | branch _ _ _ ih =>
    rcases element?_modifyElement_cases hq' with ⟨-, hq'⟩ | ⟨rfl, old, hold, rfl⟩
    · exact ih hq'
    · obtain ⟨q, hq, hslots⟩ := ih hold
      exact ⟨q, hq, hslots⟩
  | slot name _ _ hp hscope ih =>
    rcases element?_modifyElement_cases hq' with ⟨-, hq'⟩ | ⟨rfl, old, hold, rfl⟩
    · exact ih hq'
    · obtain ⟨q, hq, hslots⟩ := ih hold
      refine ⟨q, hq, fun slot hslot => ?_⟩
      rcases mem_append.mp hslot with hslot | hslot
      · exact hslots slot (mem_filter.mp hslot).1
      · exact .inr ⟨ne_none_iff_exists'.mpr ⟨_, hp⟩, congrArg Prod.snd (mem_singleton.mp hslot),
          hscope⟩

end Relinks

end Ast

/-- What the builder may do with a node when it is given allowed signals keeps `P`. It also keeps
`N` until the start tag of an element is taken, and `R` as long as the element is open. -/
structure Tends (o : Options) (allowed : Signal → Prop) (P : Around → NodeKind → Prop)
    (N : Around → Element → Prop) (R : Element → Prop) : Prop where
  opened {tag : String} {attrs : List Attr} {unary : Bool} {span : Span} {around : Around}
    (b b' : Builder) (id : NodeId) : allowed (.event (.opened tag attrs unary span)) →
      b'.ast.around o.toSettings id = around →
      (b'.expanded o id (b.newElement o.toSettings tag attrs span)).Ensures fun r =>
        N around r.2 ∧ ∃ others, r.1.ast = b'.ast.pushElements b'.parent? others ∧
          ∀ other ∈ others, P around (.element other)
  pre {around : Around} {el : Element} : around.written = false → N around el →
    N around (el.takePre o.toSettings)
  asWritten {around : Around} {el : Element} : around.written ∨ el.pre → N around el →
    P around (.element el.keepAttributes) ∧ R el.keepAttributes
  structured {around : Around} {el el' : Element} (id : NodeId) : around.written = false →
    N around el → el.processed = false →
    (do let el ← el.takeLoop o.toSettings
        let el ← el.takeCondition o.toSettings id
        return el.takeOnce o.toSettings : Noted Element).value = el' →
      P around (.element el') ∧ R el'
  expanded {around : Around} {el : Element} : around.written = false → N around el →
    el.processed → P around (.element el) ∧ R el
  process {around : Around} {el : Element} (above : List Element) :
    above.any (·.loop.isSome) = around.looped → around.written = false → P around (.element el) →
      el.processed = false → (el.process o above).Ensures fun el' => P around (.element el')
  children {around : Around} {el : Element} (children : List NodeId) : P around (.element el) →
    P around (.element { el with children })
  branch {around around' : Around} {el other : Element} (block : NodeId) :
    P around (.element el) → el.ifExp.isSome → P around' (.element other) →
      P around (.element { el with conditions := el.conditions ++ [⟨other.elseIf, block⟩] })
  slot {around around' : Around} {el other : Element} (id : NodeId) : P around (.element el) →
    R el → P around' (.element other) → let name := other.slotTarget.getD "\"default\""
      P around (.element { el with
        scopedSlots := el.scopedSlots.filter (·.1 ≠ name) ++ [(name, id)] })
  unlinked {el el' : Element} : R el → el'.unlinked = el.unlinked → R el'
  text {around : Around} {content : String} {span : Span} (b : Builder) (parent : Element) :
    allowed (.event (.text content span)) → b.asWritten = around.written →
      let text := b.keptText o.toSettings parent content
      text ≠ "" → P around (.text text (if b.asWritten || text = " " then none
        else Interpolation.parse? o.delimiters text) false)
  comment {around : Around} (content : String) : P around (.comment content false)

namespace Builder

variable {o : Options} {allowed : Signal → Prop} {b b' : Builder} {id p : NodeId} {el : Element}
  {seen : List Signal} {stack rest : List NodeId}

/-- All nodes satisfy `P`, and the open elements `R`. The flag of the builder says whether one of
the open elements carries the directive to leave it as written. -/
structure Tended (o : Options) (P : Around → NodeKind → Prop) (R : Element → Prop)
    (stack : List NodeId) (b : Builder) : Prop where
  nodes : b.ast.Each o.toSettings P
  slots : b.ast.SlotsScoped
  opened : ∀ x ∈ stack, ∀ el, b.ast.element? x = some el → R el
  flag : b.asWritten = stack.any (b.ast.carries (o.directive "pre"))
  marked : b.ast.PreMarked (o.directive "pre") stack

/-! ## Closing an element -/

/-- Links keep `P`, if it holds of the element that is linked. -/
theorem each_relinks (h : Tends o allowed P N R) {a a' : Ast} {parent : Option NodeId}
    {around : Around} (hlinks : a.Relinks parent id el a') (hpars : a.ParentsFirst)
    (hopen : ∀ p ∈ parent, ∃ q, a.element? p = some q ∧ R q) (hel : P around (.element el))
    (ha : a.Each o.toSettings P) : a'.Each o.toSettings P := by
  induction hlinks with
  | refl => exact ha
  | children x children hlinks ih =>
    exact ih.modifyElement (hlinks.parentsFirst hpars) fun q hq =>
      ⟨rfl, h.children _ (ih.element hq)⟩
  | branch head hlinks hif ih =>
    exact ih.modifyElement (hlinks.parentsFirst hpars) fun q hq =>
      ⟨rfl, h.branch id (ih.element hq) (hif q hq) hel⟩
  | slot name hname hlinks hp hscope ih =>
    subst hname
    refine ih.modifyElement (hlinks.parentsFirst hpars) fun q' hq' => ⟨rfl, ?_⟩
    obtain ⟨q, hq, hR⟩ := hopen _ hp
    obtain ⟨q₁, hq₁, heq⟩ := hlinks.relinked _ q hq
    cases hq₁.symm.trans hq'
    exact h.slot id (ih.element hq') (h.unlinked hR heq) hel

theorem unlinked_trimmed (b : Builder) (el : Element) : (b.trimmed el).unlinked = el.unlinked := by
  unfold trimmed
  split <;> rfl

/-- An element that is closed says the same about what is inside it. -/
theorem finished_each (h : Tends o allowed P N R) (ho : o.UsesWeb)
    (hflag : b.asWritten = false → (b.ast.around o.toSettings id).written = false)
    (hel : P (b.ast.around o.toSettings id) (.element el)) :
    (b.finished o id (b.trimmed el)).Ensures fun el' =>
      P (b.ast.around o.toSettings id) (.element el') ∧ el'.outer = el.outer ∧
        el'.scopedSlots = el.scopedSlots := by
  have htrim : P (b.ast.around o.toSettings id) (.element (b.trimmed el)) ∧
      (b.trimmed el).outer = el.outer ∧ (b.trimmed el).scopedSlots = el.scopedSlots := by
    unfold trimmed
    split
    · exact ⟨hel, rfl, rfl⟩
    · exact ⟨h.children _ hel, rfl, rfl⟩
  unfold finished
  split
  · exact .pure htrim
  · next hprocess =>
    rw [Bool.or_eq_true, not_or, Bool.not_eq_true, Bool.not_eq_true] at hprocess
    refine ((h.process _ rfl (hflag hprocess.1) htrim.1 hprocess.2).and
      (process_spec ho _ _)).mono fun el' hel' => ⟨hel'.1, ?_, ?_⟩
    · exact (congrArg (fun f : Frame => (f.loop, f.source, f.pre)) hel'.2.frame).trans htrim.2.1
    · exact (congrArg Frame.scopedSlots hel'.2.frame).trans htrim.2.2

theorem close_tended (h : Tends o allowed P N R) (ho : o.UsesWeb)
    (htree : b.ast.Sound o.toSettings seen (id :: b.stack))
    (hb : b.Tended o P R (id :: b.stack)) : (b.close o id).Ensures (Tended o P R b.stack) := by
  obtain ⟨el, hel⟩ := isSome_iff_exists.mp htree.nested.1
  have hpars := htree.toWellFormed.parentsFirst
  have hrest := htree.nested.2.2.lt_size
  have hne (x : NodeId) (hx : x ∈ b.stack) : id ≠ x :=
    Nat.ne_of_gt (htree.nested.lt htree.toWellFormed x hx)
  have hwr : (b.ast.around o.toSettings id).written =
      b.stack.any (b.ast.carries (o.directive "pre")) := by
    rw [hpars.around_eq, htree.nested.2.1]
    exact hpars.anyAt_head _ htree.nested.2.2
  rw [close_eq hel]
  refine .bind (finished_each h ho (fun hflag => ?_) (hb.nodes.element hel))
    fun el' hfinished => .lift ?_
  · rw [hb.flag, any_cons, Bool.or_eq_false_iff] at hflag
    rw [hwr, hflag.2]
  obtain ⟨hel', houter, hslots⟩ := hfinished
  obtain ⟨a₂, _, heq, hjoins, -⟩ := joined_joins o.toSettings b id el'
  have hattach := hjoins.relinks
  rw [heq]
  have hset (old : Element) (hold : b.ast.element? id = some old) : el'.outer = old.outer := by
    cases hel.symm.trans hold
    exact houter
  have hself : (b.ast.setElement id el').element? id = some el' := element?_modifyElement_self hel
  have hother (x : NodeId) (hx : id ≠ x) : b.ast.Relinked (b.ast.setElement id el') x :=
    .ofSame (element?_modifyElement_of_ne hx)
  have hpars₂ : (b.ast.setElement id el').ParentsFirst := fun x p hp =>
    hpars x p (by rwa [setElement, parent?_modifyElement] at hp)
  have houter₂ : b.ast.KeepsOuter a₂ := (KeepsOuter.modifyElement hset).trans hattach.keepsOuter
  refine ⟨?_, fun x q hq slot hslot => ?_, fun x hx q hq => ?_, ?_,
    houter₂.preMarked hrest hb.marked.2⟩
  · refine each_relinks h hattach hpars₂ (fun p hp => ?_) hel' ?_
    · have hp : p ∈ b.stack := mem_of_mem_head? hp
      obtain ⟨q, hq⟩ := htree.nested.2.2.elements p hp
      obtain ⟨q', hq', heq⟩ := hother p (hne p hp) q hq
      exact ⟨q', hq', h.unlinked (hb.opened p (mem_cons_of_mem _ hp) q hq) heq⟩
    · exact hb.nodes.modifyElement hpars fun old hold => ⟨hset old hold, hel'⟩
  · -- An open element is no scoped slot, so all slots but the new one have not changed.
    have hkept {y : NodeId} {old : Element} (hold : b.ast.element? y = some old)
        (hmem : slot ∈ old.scopedSlots) :
        (a₂.element? slot.2).any (·.slotScope.isSome) := by
      have hne : id ≠ slot.2 := by
        rintro heq
        refine htree.unlinked id mem_cons_self y ?_
        rw [links_eq hold, heq]
        exact slot_link (List.mem_map_of_mem hmem)
      obtain ⟨c, hc, hscope⟩ := (Option.any_eq_true _ _).mp (hb.slots y old hold slot hmem)
      obtain ⟨c', hc', heq⟩ := ((hother slot.2 hne).trans (hattach.relinked slot.2)) c hc
      rw [hc', any_some, show c'.slotScope = c.slotScope from congrArg (·.slotScope) heq]
      exact hscope
    obtain ⟨q₂, hq₂, hcases⟩ := hattach.scopedSlots hq
    rcases hcases slot hslot with hslot | ⟨-, hnew, hscope⟩
    · by_cases hx : id = x
      · subst hx
        cases hself.symm.trans hq₂
        exact hkept hel (hslots ▸ hslot)
      · rw [setElement, element?_modifyElement_of_ne hx] at hq₂
        exact hkept hq₂ hslot
    · obtain ⟨c, hc, heq⟩ := hattach.relinked id el' hself
      rw [hnew, hc, any_some, show c.slotScope = el'.slotScope from congrArg (·.slotScope) heq]
      exact hscope
  · obtain ⟨old, hold⟩ := htree.nested.2.2.elements x hx
    obtain ⟨q', hq', heq⟩ := ((hother x (hne x hx)).trans (hattach.relinked x)) old hold
    cases hq'.symm.trans hq
    exact h.unlinked (hb.opened x (mem_cons_of_mem _ hx) old hold) heq
  · have hpre : el'.pre = el.pre := congrArg (·.2.2) houter
    rw [hb.flag, hpre, hb.marked.1 el hel, houter₂.any_carries hrest, any_cons,
      show b.ast.carries _ id = _ from congrArg (Option.any _) hel, any_some]
    cases el.hasAttr (o.directive "pre") <;>
      cases b.stack.any (b.ast.carries (o.directive "pre")) <;> rfl

/-! ## Taking a start tag -/

theorem expanded_unmarked (ho : o.UsesWeb) (hel : el.pre = false) :
    (b.expanded o id el).Ensures fun r => r.2.pre = false ∧ ∃ others,
      r.1 = { b with ast := b.ast.pushElements b.parent? others } ∧ ∀ e ∈ others, e.pre = false :=
  expanded_each (P := (·.pre = false)) ho b id hel (fun _ _ _ _ _ h => h) fun _ _ _ _ _ _ =>
    (process_spec ho _ _).mono fun _ h => congrArg Frame.pre h.frame

/-- An element is marked when it is entered, unless it stands inside another that is. -/
theorem enter_marks (s : Settings) (b : Builder) (hpre : el.pre = false) :
    (b.enter s el).2.source = el.source ∧
      (b.enter s el).2.pre = (el.hasAttr (s.directive "pre") && !b.asWritten) := by
  unfold enter
  split
  · next hwr => exact ⟨rfl, by rw [hpre, hwr, Bool.not_true, Bool.and_false]⟩
  · next hwr =>
    refine ⟨by rw [takePre_eq], ?_⟩
    rw [pre_takePre s hpre, (Bool.not_eq_true _).mp hwr, Bool.not_false, Bool.and_true]

theorem structured_marks (s : Settings) (b : Builder) (id : NodeId) (el : Element) :
    (b.structured s id el).value.source = el.source ∧
      (b.structured s id el).value.pre = el.pre := by
  unfold structured
  split
  · rw [keepAttributes_eq]
    exact ⟨rfl, rfl⟩
  · split
    · exact ⟨rfl, rfl⟩
    · obtain ⟨loop, once, pending, ifExp, conditions, isElse, elseIf, heq, -⟩ :=
        el.structural_cases s id
      rw [heq]
      exact ⟨rfl, rfl⟩

section

variable (h : Tends o allowed P N R) (b : Builder) {around : Around}

include h

theorem enter_each (hflag : b.asWritten = around.written) (hnew : N around el) :
    N around (b.enter o.toSettings el).2 := by
  unfold enter
  split
  · exact hnew
  · next hwr => exact h.pre (hflag ▸ (Bool.not_eq_true _).mp hwr) hnew

theorem structured_each (id : NodeId) (hflag : b.asWritten = (around.written || el.pre))
    (hnew : N around el) :
    P around (.element (b.structured o.toSettings id el).value) ∧
      R (b.structured o.toSettings id el).value := by
  unfold structured
  split
  · next hwr => exact h.asWritten ((Bool.or_eq_true ..).mp (hflag ▸ hwr)) hnew
  · next hwr =>
    rw [hflag, Bool.or_eq_true, not_or, Bool.not_eq_true] at hwr
    split
    · next hproc => exact h.expanded hwr.1 hnew hproc
    · next hproc =>
      exact h.structured id hwr.1 hnew ((Bool.not_eq_true _).mp hproc) rfl

end

section

variable (h : Tends o allowed P N R) (ho : o.UsesWeb) (hkeeps : b.Keeps o seen)
  (hb : b.Tended o P R b.stack) {tag : String} {attrs : List Attr} {unary : Bool} {span : Span}
  (hmem : Signal.event (.opened tag attrs unary span) ∈ seen)
  (hallowed : allowed (.event (.opened tag attrs unary span)))

include h ho hkeeps hb hallowed

/-- What the new elements are like, and that the last of them is marked as it should be. -/
theorem placed_each : (b.placed o tag attrs span).Ensures fun b' =>
    b.ast.AddsElements b.parent?
      (fun el => P (b.ast.aroundAt o.toSettings b.parent?) (.element el)) b'.ast ∧
    ∃ el, b'.ast.element? b.ast.nodes.size = some el ∧ R el ∧
      el.pre = (el.hasAttr (o.directive "pre") && !b.asWritten) ∧
      b'.asWritten = (b.asWritten || el.pre) := by
  have hpars := hkeeps.tree.toWellFormed.parentsFirst
  have hhead : ∀ p ∈ b.parent?, p < b.ast.nodes.size := hkeeps.tree.toOpenAt.head_lt
  have hwr : (b.ast.aroundAt o.toSettings b.parent?).written = b.asWritten := by
    rw [hb.flag]
    exact hpars.anyAt_head _ hkeeps.tree.nested
  have hunm : (b.newElement o.toSettings tag attrs span).pre = false := rfl
  have hopened := fun b' (haround : around b'.ast o.toSettings b.ast.nodes.size =
    b.ast.aroundAt o.toSettings b.parent?) => h.opened b b' b.ast.nodes.size hallowed haround
  unfold placed
  dsimp only [nextId]
  generalize b.newElement o.toSettings tag attrs span = new at hopened hunm ⊢
  -- What is around the new element is around the open element, and that is no new one.
  have haround : (b.ast.push b.parent? (.element new)).around o.toSettings b.ast.nodes.size =
      b.ast.aroundAt o.toSettings b.parent? := by
    rw [(hpars.push hhead).around_eq, parent?_push, if_pos rfl,
      (KeepsOuter.push ..).aroundAt hpars hhead]
  refine .bindLift (.bindLift (.bind ((hopened { b with
    ast := b.ast.push b.parent? (.element new) } haround).and (expanded_unmarked ho hunm))
    fun r hr => .bindLift (.bindLift (.pure ?_))))
  obtain ⟨⟨hnew, others, hast, hoth⟩, hunm, _, hsame, -⟩ := hr
  have hflag : r.1.asWritten = b.asWritten := by rw [hsame]
  have hentered := enter_each h r.1 (hflag.trans hwr.symm) hnew
  obtain ⟨hsrc, hmark⟩ := enter_marks o.toSettings r.1 hunm
  have henter : (r.1.enter o.toSettings r.2).1.asWritten =
      (b.asWritten || (r.1.enter o.toSettings r.2).2.pre) := congrArg (· || _) hflag
  obtain ⟨hel, hopen⟩ := structured_each h (r.1.enter o.toSettings r.2).1 b.ast.nodes.size
    (hwr ▸ henter) hentered
  obtain ⟨hsrc', hmark'⟩ := structured_marks o.toSettings (r.1.enter o.toSettings r.2).1
    b.ast.nodes.size (r.1.enter o.toSettings r.2).2
  generalize ((r.1.enter o.toSettings r.2).1.structured o.toSettings b.ast.nodes.size
    (r.1.enter o.toSettings r.2).2).value = el at hel hopen hsrc' hmark' ⊢
  obtain ⟨reported, heq⟩ :=
    withRoot_eq o.toSettings (r.1.enter o.toSettings r.2).1 b.ast.nodes.size el
  rw [heq]
  have hpushed := congrArg nodes hast
  refine ⟨.place hpushed hel hoth, el, AddsElements.element?_place hpushed el, hopen, ?_,
    hmark' ▸ henter⟩
  rw [hmark', hmark, hflag, hasAttr, hasAttr, hsrc', hsrc]

include hmem

theorem placed_tended :
    (b.placed o tag attrs span).Ensures (Tended o P R (b.ast.nodes.size :: b.stack)) := by
  refine ((placed_each h ho hkeeps hb hallowed).and
    (placed_spec ho hkeeps.tree hkeeps.rootless hmem)).mono ?_
  rintro b' ⟨⟨hadds, el, hel, hopen, hpre, hflag⟩, hsound, -, -⟩
  have hpars := hkeeps.tree.toWellFormed.parentsFirst
  have hhead : ∀ p ∈ b.parent?, p < b.ast.nodes.size := hkeeps.tree.toOpenAt.head_lt
  have hlt := hkeeps.tree.nested.lt_size
  have houter : b.ast.KeepsOuter b'.ast := .add hadds
  have hcarries : b'.ast.carries (o.directive "pre") b.ast.nodes.size =
      el.hasAttr (o.directive "pre") := by
    rw [carries, hel, any_some]
  refine ⟨?_, fun x q hq slot hslot => ?_,
    forall_mem_cons.mpr ⟨fun q hq => ?_, fun x hx q hq => ?_⟩,
    ?_, fun q hq => ?_, houter.preMarked hlt hb.marked⟩
  · refine hb.nodes.add hpars hsound.toWellFormed.parentsFirst houter hhead hadds.old
      fun x kind hx hkind => ?_
    obtain ⟨hpar, e, rfl, he⟩ := hadds.added x kind hx hkind
    exact ⟨hpar, he⟩
  · have hmem : slot.2 ∈ q.slotNodes := List.mem_map_of_mem hslot
    by_cases hx : x < b.ast.nodes.size
    · have hold := hb.slots x q (hadds.old_element hx ▸ hq) slot hslot
      obtain ⟨c, hc, -⟩ := (Option.any_eq_true _ _).mp hold
      rwa [hadds.old_element (lt_size_of_element? hc)]
    · -- A slot of a new element would be a new node below it.
      have hfits := hsound.fits x q hq
      have hafter := hsound.parents _ _ (hfits.slotParent _ hmem)
      obtain ⟨c, hc⟩ := isSome_iff_exists.mp (hfits.slotElements _ hmem)
      have hnew := Nat.le_of_lt (Nat.lt_of_le_of_lt (Nat.le_of_not_lt hx) hafter)
      have hpar := (hadds.added_element hnew hc).1
      rw [hfits.slotParent _ hmem] at hpar
      exact absurd (hhead x hpar.symm) hx
  · cases hel.symm.trans hq
    exact hopen
  · exact hb.opened x hx q (hadds.old_element (hlt x hx) ▸ hq)
  · rw [hflag, hpre, any_cons, hcarries, houter.any_carries hlt, ← hb.flag]
    cases el.hasAttr (o.directive "pre") <;> cases b.asWritten <;> rfl
  · cases hel.symm.trans hq
    rw [hpre, houter.any_carries hlt, ← hb.flag]

theorem openElement_tended :
    (b.openElement o tag attrs unary span).Ensures fun b' => b'.Tended o P R b'.stack := by
  rw [openElement_eq]
  refine .bind ((placed_tended h ho hkeeps hb hmem hallowed).and
    (placed_spec ho hkeeps.tree hkeeps.rootless hmem)) fun b₁ hb₁ => ?_
  obtain ⟨htended, hsound, -, hstk⟩ := hb₁
  rw [← hstk] at htended hsound
  split
  · refine ((close_tended h ho hsound htended).and (close_spec ho hsound)).mono ?_
    rintro b₂ ⟨htended₂, -, hstk₂, -⟩
    rwa [hstk₂]
  · exact .pure { htended with }

end

/-! ## All signals -/

theorem addChild_relinked (p : NodeId) (kind : NodeKind) {x : NodeId}
    (hx : x < b.ast.nodes.size) : b.ast.Relinked (b.addChild p kind).ast x :=
  .trans (.ofSame (element?_push_of_lt hx)) (.modifyElement _ p x fun _ => rfl)

section

variable (h : Tends o allowed P N R) (hkeeps : b.Keeps o seen) (hb : b.Tended o P R b.stack)

include h hkeeps hb

theorem addChild_tended (hstk : b.stack = p :: rest)
    (hkind : ∀ around : Around, b.asWritten = around.written → P around kind)
    (hother : ∀ el, kind ≠ .element el) :
    (b.addChild p kind).Tended o P R (b.addChild p kind).stack := by
  have hpars := hkeeps.tree.toWellFormed.parentsFirst
  have hlt := hkeeps.tree.nested.lt_size
  have hpar : b.stack.head? = some p := congrArg head? hstk
  have hhead : ∀ q ∈ some p, q < b.ast.nodes.size := hpar ▸ hkeeps.tree.toOpenAt.head_lt
  have hwr : b.asWritten = (b.ast.aroundAt o.toSettings (some p)).written := by
    rw [hb.flag, ← hpar]
    exact (hpars.anyAt_head _ hkeeps.tree.nested).symm
  have hpushed : (b.ast.push (some p) kind).Each o.toSettings P := by
    refine hb.nodes.add hpars (hpars.push hhead) (.push ..) hhead
      (fun x hx => by rw [kind?_push, if_neg (Nat.ne_of_lt hx)]) fun x kind' hx hkind' => ?_
    rw [kind?_push] at hkind'
    rw [parent?_push]
    split at hkind'
    · next heq =>
      cases hkind'
      exact ⟨if_pos heq, hkind _ hwr⟩
    · exact absurd (lt_size_of_kind? hkind') (Nat.not_lt.mpr hx)
  have houter : b.ast.KeepsOuter (b.addChild p kind).ast :=
    (KeepsOuter.push ..).trans (.modifyElement fun _ _ => rfl)
  refine ⟨hpushed.modifyElement (hpars.push hhead) fun q hq =>
      ⟨rfl, h.children _ (hpushed.element hq)⟩, fun x q hq slot hslot => ?_, fun x hx q hq => ?_,
    hb.flag.trans (houter.any_carries hlt).symm, houter.preMarked hlt hb.marked⟩
  · have hold {q : Element} (hq : (b.ast.push (some p) kind).element? x = some q)
        (hslot : slot ∈ q.scopedSlots) :
        ((b.addChild p kind).ast.element? slot.2).any (·.slotScope.isSome) := by
      have hq : b.ast.element? x = some q :=
        (element?_push_cases hq).resolve_left fun hnew => hother q hnew.2
      obtain ⟨c, hc, hscope⟩ := (Option.any_eq_true _ _).mp (hb.slots x q hq slot hslot)
      obtain ⟨c', hc', heq⟩ := addChild_relinked p kind (lt_size_of_element? hc) c hc
      rw [hc', any_some, show c'.slotScope = c.slotScope from congrArg (·.slotScope) heq]
      exact hscope
    rcases element?_modifyElement_cases hq with ⟨-, hq⟩ | ⟨rfl, old, hq', rfl⟩
    · exact hold hq hslot
    · exact hold hq' hslot
  · obtain ⟨old, hq'⟩ := hkeeps.tree.nested.elements x hx
    obtain ⟨q', hq', heq⟩ := addChild_relinked p kind (hlt x hx) old hq'
    cases hq'.symm.trans hq
    exact h.unlinked (hb.opened x hx old ‹_›) heq

variable (ho : o.UsesWeb)

include ho

theorem signal_tended (source : String) {signal : Signal} (hmem : signal ∈ seen)
    (hallowed : allowed signal) :
    (b.signal o source signal).Ensures fun b' => b'.Tended o P R b'.stack := by
  have hacts := b.signal_acts o source signal
  generalize b.signal o source signal = x at hacts ⊢
  cases hacts with
  | warning w span => exact .bindLift (.pure hb)
  | opened tag attrs unary span => exact openElement_tended h ho hkeeps hb hmem hallowed
  | @closed id rest tag span hstk =>
    have htree := hkeeps.tree
    rw [hstk] at htree hb
    refine ((close_tended (b := { b with stack := rest }) h ho htree { hb with }).andYields
      (close_same o _ _)).mono ?_
    rintro b' ⟨htended, hstk', -⟩
    rwa [hstk']
  | outside content span hstk =>
    obtain ⟨_, _, heq⟩ := textOutside_eq source b content
    exact .lift (heq ▸ { hb with })
  | child hstk hkind =>
    refine .pure (addChild_tended h hkeeps hb hstk (fun around hflag => ?_) hkind.ne_element)
    cases hkind with
    | text content span hpar hkept htokens hspace =>
      exact htokens ▸ h.text b _ hallowed hflag hkept
    | comment content span => exact h.comment content
  | unopened | textDropped | commentDropped => exact .pure hb

theorem signals_tended (source : String) {signals : List Signal} (hseen : signals ⊆ seen)
    (hallowed : ∀ signal ∈ signals, allowed signal) :
    (Builder.signals o source signals b).Ensures fun b' => b'.Tended o P R b'.stack := by
  induction signals generalizing b with
  | nil => exact .pure hb
  | cons first later ih =>
    obtain ⟨hfirst, hseen⟩ := cons_subset.mp hseen
    obtain ⟨hallowed, hlater⟩ := forall_mem_cons.mp hallowed
    exact .bind ((signal_tended h hkeeps hb ho source hfirst hallowed).and
      (signal_spec ho hkeeps source hfirst)) fun b₁ ⟨hb₁, hkeeps₁⟩ => ih hkeeps₁ hb₁ hseen hlater

end

theorem tended_empty (o : Options) : ({} : Builder).Tended o P R [] where
  nodes _ _ hkind := by cases hkind
  slots _ _ hel := by cases hel
  opened := nofun
  flag := rfl
  marked := trivial

/-- If the builder keeps `P`, then it holds of all nodes of a template with allowed signals. -/
theorem signals_read_tended (h : Tends o allowed P N R) (ho : o.UsesWeb) (source : String)
    (hallowed : ∀ signal ∈ read o.tags o.comments source, allowed signal) :
    (signals o source (read o.tags o.comments source) {}).Ensures fun b =>
      b.Tended o P R b.stack :=
  signals_tended h (keeps_empty o) (tended_empty o) ho source (List.Subset.refl _) hallowed

end Builder

/-- If the builder keeps `P`, then it holds of all nodes of a template with allowed signals. -/
theorem parse_each {allowed : Signal → Prop} (h : Tends o allowed P N R)
    (ho : o.UsesWeb) (source : String)
    (hallowed : ∀ signal ∈ read o.tags o.comments source, allowed signal) :
    (parse o source).Ensures (Each o.toSettings P) := by
  obtain ⟨b, hb, htended⟩ := signals_read_tended h ho source hallowed
  exact ⟨b.ast, result_parse o source hb, htended.nodes⟩

/-- What the builder knows of its flag does not depend on a property. -/
theorem tends_trivial (ho : o.UsesWeb) :
    Tends o (fun _ => True) (fun _ _ => True) (fun _ _ => True) fun _ => True where
  opened _ b' id _ _ := by
    refine (expanded_each (P := fun _ => True) ho b' id trivial (fun _ _ _ _ _ h => h)
      fun _ _ _ _ _ _ => ?_).mono fun _ ⟨_, others, heq, _⟩ =>
        ⟨trivial, others, congrArg ast heq, fun _ _ => trivial⟩
    exact (process_spec ho _ _).mono fun _ _ => trivial
  pre _ _ := trivial
  asWritten _ _ := ⟨trivial, trivial⟩
  structured _ _ _ _ _ := ⟨trivial, trivial⟩
  expanded _ _ _ := ⟨trivial, trivial⟩
  process above _ _ _ _ := (process_spec ho above _).mono fun _ _ => trivial
  children _ _ := trivial
  branch _ _ _ _ := trivial
  slot _ _ _ _ := trivial
  unlinked _ _ := trivial
  text _ _ _ _ _ := trivial
  comment _ := trivial

end TemplateCompiler
