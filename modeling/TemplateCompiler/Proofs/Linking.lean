import TemplateCompiler.Proofs.Building
import TemplateCompiler.Proofs.RootMarks

/-!
# No element is left behind without a report

The builder links an element when it is closed. In a few cases it does not: the element must not be
in a template, it continues a chain that is not there, or it is one root too many. Each of these is
reported. Only one way to lose an element is silent: a scoped slot gives way to a later one of the
same name.

`Ast.Accounted` says where each element is: among some nodes that are still to be linked, at the
root, in the links of another element, or replaced. `Ast.Change` says once what an edit of an
element may do so that this is kept; it covers all edits of the builder. Main result:
`signals_accounted`, by induction over the signals, for every template about which nothing is
reported.
-/

namespace TemplateCompiler

open Markup List Option Element Ast Diagnostics Noted

variable {p c : NodeId} {kind : NodeKind} {signal : Signal} {a : Ast} {stack : List NodeId}
  {attrs : List Attr}

/-! ## Steps that report nothing -/

namespace Outcome

variable {α β : Type}

/-- If the step gives a result and reports no error, then `P` holds of the result. -/
def Quietly (x : Outcome α) (P : α → Prop) : Prop :=
  ∀ a, x.result = .ok a → x.notes.errors = [] → P a

namespace Quietly

variable {x : Outcome α} {P Q : α → Prop} {R : β → Prop} {f : α → Outcome β} {n : Noted α}

theorem pure {a : α} (h : P a) : Quietly (Pure.pure a) P := by
  rintro _ ⟨⟩ _
  exact h

theorem ofEnsures (h : x.Ensures P) : x.Quietly P := by
  obtain ⟨a, ha, hP⟩ := h
  intro b hb _
  cases ha.symm.trans hb
  exact hP

theorem mono (hx : x.Quietly P) (h : ∀ a, P a → Q a) : x.Quietly Q :=
  fun a ha herr => h a (hx a ha herr)

theorem and (hP : x.Quietly P) (hQ : x.Quietly Q) : x.Quietly fun a => P a ∧ Q a :=
  fun a ha herr => ⟨hP a ha herr, hQ a ha herr⟩

theorem bind (hx : x.Quietly P) (hf : ∀ a, P a → (f a).Quietly R) : (x >>= f).Quietly R := by
  intro b hb herr
  cases ha : x.result with
  | error e =>
    rw [result_bind, ha] at hb
    cases hb
  | ok a =>
    rw [notes_bind ha, errors_append, append_eq_nil_iff] at herr
    rw [result_bind, ha] at hb
    exact hf a (hx a ha herr.1) b hb herr.2

theorem lift (h : n.notes.errors = [] → P n.value) : Quietly (liftM n) P := by
  rintro _ ⟨⟩ herr
  rw [notes_lift] at herr
  exact h herr

theorem bindLift (hf : n.notes.errors = [] → (f n.value).Quietly R) : Quietly (liftM n >>= f) R :=
  bind (P := fun a => a = n.value ∧ n.notes.errors = []) (lift fun herr => ⟨rfl, herr⟩)
    fun _ ⟨ha, herr⟩ => ha ▸ hf herr

end Quietly

end Outcome

/-! ## Where the elements are -/

def Element.slotKey (el : Element) : String := el.slotTarget.getD "\"default\""

/-- What matters about a new element for where it and its branches are. -/
def Element.shape (el : Element) :=
  (el.tag, el.span, el.forbidden, el.children, el.scopedSlots, el.branchNodes)

namespace Ast

/-- The parent of `x` has a later scoped slot with the name of `x`. -/
def Outdated (a : Ast) (x : NodeId) : Prop :=
  ∃ el p parent y, a.element? x = some el ∧ el.slotScope.isSome ∧ a.parent? x = some p ∧
    a.element? p = some parent ∧ (el.slotKey, y) ∈ parent.scopedSlots ∧ x < y

/-- The scoped slot `x` has given way to a later one of the same name. -/
structure Replaced (a : Ast) (x : NodeId) : Prop where
  unlinked : ∀ i, x ∉ a.links i
  outdated : a.Outdated x

/-- Where the elements are after the signals `done`, if `loose` are still to be linked: each one is
loose, the root, linked or outdated. Scoped slots go by their names, a template among them has no
other branches, and no element is forbidden. Each start tag has its element. -/
structure Accounted (a : Ast) (done : List Signal) (loose : List NodeId) : Prop where
  placed : ∀ x, (a.element? x).isSome →
    x ∈ loose ∨ a.root = some x ∨ (∃ p, x ∈ a.links p) ∨ a.Outdated x
  slotKeys : ∀ p el, a.element? p = some el → ∀ slot ∈ el.scopedSlots,
    ∃ elx, a.element? slot.2 = some elx ∧ elx.slotScope.isSome ∧ elx.slotKey = slot.1
  slotChains : ∀ x el, a.element? x = some el → el.tag = "template" → x ∈ loose ∨ a.IsSlot x →
    el.branchNodes = []
  allowed : ∀ x el, a.element? x = some el → el.forbidden = false
  started : ∀ tag attrs unary span, Signal.event (.opened tag attrs unary span) ∈ done →
    ∃ x el, a.element? x = some el ∧ el.tag = tag ∧ el.span = span

/-- What may become of the element `el` with number `id`. -/
structure Change (a : Ast) (loose : List NodeId) (id : NodeId) (el el' : Element) : Prop where
  tag : el'.tag = el.tag
  span : el'.span = el.span
  forbidden : el'.forbidden = el.forbidden
  /-- No element is lost from children and branches. -/
  links : ∀ c, c ∈ el.children ∨ c ∈ el.branchNodes → (a.element? c).isSome → c ∈ el'.links
  /-- A scoped slot stays, or a later one gets its name. -/
  slots : ∀ slot ∈ el.scopedSlots,
    slot ∈ el'.scopedSlots ∨ ∃ y, (slot.1, y) ∈ el'.scopedSlots ∧ slot.2 < y
  /-- A new scoped slot was loose, and has its name. -/
  keys : ∀ slot ∈ el'.scopedSlots, slot ∈ el.scopedSlots ∨ (slot.2 ≠ id ∧ slot.2 ∈ loose ∧
    ∃ elx, a.element? slot.2 = some elx ∧ elx.slotScope.isSome ∧ elx.slotKey = slot.1)
  /-- The name and the scope change only while the element is loose. -/
  self : (id ∈ loose ∧ ¬ a.IsSlot id) ∨
    (el'.slotScope = el.slotScope ∧ el'.slotTarget = el.slotTarget)
  chain : el'.tag = "template" → id ∈ loose ∨ a.IsSlot id → el'.branchNodes = []

variable {a a' : Ast} {done : List Signal} {loose : List NodeId} {id x : NodeId} {el : Element}

namespace Accounted

section Modify

variable {f : Element → Element} (h : a.Accounted done loose) (hwf : a.WellFormed)
  (hel : a.element? id = some el) (hchange : a.Change loose id el (f el))

include hel hchange

theorem isSlot_cases (hx : (a.modifyElement id f).IsSlot x) : x ∈ loose ∨ a.IsSlot x := by
  obtain ⟨p, parent, hp, hx⟩ := hx
  rcases element?_modifyElement_cases hp with ⟨-, hp⟩ | ⟨rfl, old, hold, rfl⟩
  · exact .inr ⟨p, parent, hp, hx⟩
  · cases hel.symm.trans hold
    obtain ⟨slot, hslot, rfl⟩ := List.mem_map.mp hx
    rcases hchange.keys slot hslot with hold | ⟨-, hloose, -⟩
    · exact .inr ⟨id, el, hel, List.mem_map_of_mem hold⟩
    · exact .inl hloose

theorem slotKey_kept {elx : Element} (hx : a.element? x = some elx)
    (hkept : x ∉ loose ∨ a.IsSlot x) (hscope : elx.slotScope.isSome) :
    ∃ elx', (a.modifyElement id f).element? x = some elx' ∧ elx'.slotScope.isSome ∧
      elx'.slotKey = elx.slotKey := by
  by_cases hne : id = x
  · subst hne
    cases hel.symm.trans hx
    obtain ⟨hscope', htgt⟩ := hchange.self.resolve_left fun ⟨hloose, hslot⟩ =>
      hkept.elim (fun hnot => hnot hloose) hslot
    refine ⟨f el, element?_modifyElement_self hel, by rwa [hscope'], ?_⟩
    rw [slotKey, slotKey, htgt]
  · exact ⟨elx, (element?_modifyElement_of_ne hne).trans hx, hscope, rfl⟩

theorem slot_kept {parent : Element} (hp : a.element? p = some parent)
    {slot : String × NodeId} (hslot : slot ∈ parent.scopedSlots) :
    ∃ parent', (a.modifyElement id f).element? p = some parent' ∧
      (slot ∈ parent'.scopedSlots ∨ ∃ y, (slot.1, y) ∈ parent'.scopedSlots ∧ slot.2 < y) := by
  by_cases hne : id = p
  · subst hne
    cases hel.symm.trans hp
    exact ⟨f el, element?_modifyElement_self hel, hchange.slots slot hslot⟩
  · exact ⟨parent, (element?_modifyElement_of_ne hne).trans hp, .inl hslot⟩

theorem outdated_kept (hx : x ∉ loose) (hout : a.Outdated x) :
    (a.modifyElement id f).Outdated x := by
  obtain ⟨elx, p, parent, y, helx, hscope, hpar, hp, hy, hlt⟩ := hout
  obtain ⟨elx', helx', hscope', hkey⟩ := slotKey_kept hel hchange helx (.inl hx) hscope
  obtain ⟨parent', hp', hslot⟩ := slot_kept hel hchange hp hy
  rw [← parent?_modifyElement a id f] at hpar
  rw [← hkey] at hslot
  rcases hslot with hy | ⟨y', hy, hlt'⟩
  · exact ⟨elx', p, parent', y, helx', hscope', hpar, hp', hy, hlt⟩
  · exact ⟨elx', p, parent', y', helx', hscope', hpar, hp', hy, Nat.lt_trans hlt hlt'⟩

include h hwf

theorem linked_kept (hx : (a.element? x).isSome) (hp : x ∈ a.links p) :
    (∃ p', x ∈ (a.modifyElement id f).links p') ∨ (a.modifyElement id f).Outdated x := by
  by_cases hne : id = p
  · subst hne
    have hself : (a.modifyElement id f).links id = (f el).links :=
      links_eq (element?_modifyElement_self hel)
    have hmem := hp
    rw [links_eq hel] at hmem
    rcases mem_links.mp hmem with (hchild | hslot) | hbr
    · exact .inl ⟨id, hself ▸ hchange.links x (.inl hchild) hx⟩
    · obtain ⟨slot, hslot', rfl⟩ := List.mem_map.mp hslot
      rcases hchange.slots slot hslot' with hstays | ⟨y, hy, hlt⟩
      · refine .inl ⟨id, hself ▸ slot_link ?_⟩
        exact List.mem_map_of_mem hstays
      · -- the slot is outdated now
        obtain ⟨elx, helx, hscope, hkey⟩ := h.slotKeys id el hel slot hslot'
        obtain ⟨elx', helx', hscope', hkey'⟩ :=
          slotKey_kept hel hchange helx (.inr ⟨id, el, hel, hslot⟩) hscope
        refine .inr ⟨elx', id, f el, y, helx', hscope', ?_, element?_modifyElement_self hel, ?_,
          hlt⟩
        · rw [parent?_modifyElement]
          exact (hwf.fits id el hel).slotParent _ hslot
        · rw [hkey', hkey]
          exact hy
    · exact .inl ⟨id, hself ▸ hchange.links x (.inr hbr) hx⟩
  · refine .inl ⟨p, ?_⟩
    unfold links
    rw [element?_modifyElement_of_ne hne]
    exact hp

theorem modify : (a.modifyElement id f).Accounted done loose where
  placed y hy := by
    rw [isSome_element?_modifyElement] at hy
    by_cases hloose : y ∈ loose
    · exact .inl hloose
    · rcases h.placed y hy with hy' | hroot | ⟨p, hp⟩ | hout
      · exact .inl hy'
      · exact .inr (.inl hroot)
      · exact .inr (.inr (linked_kept h hwf hel hchange hy hp))
      · exact .inr (.inr (.inr (outdated_kept hel hchange hloose hout)))
  slotKeys p parent hp slot hslot := by
    have hold {q : NodeId} {elq : Element} (hq : a.element? q = some elq)
        (hslot : slot ∈ elq.scopedSlots) :
        ∃ elx, (a.modifyElement id f).element? slot.2 = some elx ∧ elx.slotScope.isSome ∧
          elx.slotKey = slot.1 := by
      obtain ⟨elx, helx, hscope, hkey⟩ := h.slotKeys q elq hq slot hslot
      obtain ⟨elx', helx', hscope', hkey'⟩ :=
        slotKey_kept hel hchange helx (.inr ⟨q, elq, hq, List.mem_map_of_mem hslot⟩) hscope
      exact ⟨elx', helx', hscope', hkey'.trans hkey⟩
    rcases element?_modifyElement_cases hp with ⟨-, hp⟩ | ⟨rfl, old, hel', rfl⟩
    · exact hold hp hslot
    · cases hel.symm.trans hel'
      rcases hchange.keys slot hslot with hslot | ⟨hne, -, elx, helx, hscope, hkey⟩
      · exact hold hel hslot
      · exact ⟨elx, (element?_modifyElement_of_ne (Ne.symm hne)).trans helx, hscope, hkey⟩
  slotChains y ely hy htag hloose := by
    have hloose' : y ∈ loose ∨ a.IsSlot y := hloose.elim .inl fun hslot =>
      isSlot_cases hel hchange hslot
    rcases element?_modifyElement_cases hy with ⟨-, hy⟩ | ⟨rfl, old, hel', rfl⟩
    · exact h.slotChains y ely hy htag hloose'
    · cases hel.symm.trans hel'
      exact hchange.chain htag hloose'
  allowed y ely hy := by
    rcases element?_modifyElement_cases hy with ⟨-, hy⟩ | ⟨rfl, old, hel', rfl⟩
    · exact h.allowed y ely hy
    · cases hel.symm.trans hel'
      rw [hchange.forbidden]
      exact h.allowed id el hel
  started tag attrs unary span hmem := by
    obtain ⟨y, ely, hy, htag, hspan⟩ := h.started tag attrs unary span hmem
    by_cases hne : id = y
    · subst hne
      cases hel.symm.trans hy
      exact ⟨id, f el, element?_modifyElement_self hel, hchange.tag.trans htag,
        hchange.span.trans hspan⟩
    · exact ⟨y, ely, (element?_modifyElement_of_ne hne).trans hy, htag, hspan⟩

end Modify

theorem settle (linked : List NodeId) (h : a.Accounted done (linked ++ loose))
    (hlinked : ∀ x ∈ linked, a.root = some x ∨ ∃ p, x ∈ a.links p) : a.Accounted done loose where
  placed x hx := by
    rcases h.placed x hx with hmem | hplaced
    · rcases mem_append.mp hmem with hmem | hmem
      · exact .inr ((hlinked x hmem).imp_right .inl)
      · exact .inl hmem
    · exact .inr hplaced
  slotKeys := h.slotKeys
  slotChains x el hel htag hloose := h.slotChains x el hel htag (hloose.imp_left fun hmem =>
    mem_append_right _ hmem)
  allowed := h.allowed
  started := h.started

theorem reroot (h : a.Accounted done loose) (id : NodeId) :
    Accounted { a with root := a.root.or (some id) } done loose := by
  refine ⟨fun x hx => (h.placed x hx).imp_right (Or.imp_left fun hroot => ?_),
    h.slotKeys, h.slotChains, h.allowed, h.started⟩
  rw [hroot, some_or]

theorem push {parent : Option NodeId} (h : a.Accounted done loose)
    (hkind : ∀ el, kind = .element el → a.nodes.size ∈ loose ∧ el.Bare ∧ el.forbidden = false) :
    (a.push parent kind).Accounted done loose := by
  have hold {y : NodeId} {ely : Element} (hy : (a.push parent kind).element? y = some ely) :
      (y = a.nodes.size ∧ y ∈ loose ∧ ely.Bare ∧ ely.forbidden = false) ∨
        a.element? y = some ely := by
    refine (element?_push_cases hy).imp_left ?_
    rintro ⟨rfl, heq⟩
    exact ⟨rfl, hkind ely heq⟩
  have hnew {y : NodeId} {ely : Element} (hy : a.element? y = some ely) :
      (a.push parent kind).element? y = some ely := by
    rwa [element?_push_of_lt (lt_size_of_element? hy)]
  refine ⟨fun y hy => ?_, fun p elp hp slot hslot => ?_, fun y ely hy htag hloose => ?_,
    fun y ely hy => ?_, fun tag attrs unary span hmem => ?_⟩
  · obtain ⟨ely, hely⟩ := isSome_iff_exists.mp hy
    rcases hold hely with ⟨-, hloose, -⟩ | hely
    · exact .inl hloose
    · rcases h.placed y (isSome_of_eq_some hely) with hloose | hroot | ⟨p, hp⟩ | hout
      · exact .inl hloose
      · exact .inr (.inl hroot)
      · obtain ⟨elp, help, hlink⟩ := exists_element_of_mem_links hp
        exact .inr (.inr (.inl ⟨p, by rwa [links_eq (hnew help)]⟩))
      · obtain ⟨elx, p, elp, z, helx, hscope, hpar, hp, hz⟩ := hout
        refine .inr (.inr (.inr ⟨elx, p, elp, z, hnew helx, hscope, ?_, hnew hp, hz⟩))
        rw [parent?_push_of_lt (lt_size_of_element? helx)]
        exact hpar
  · rcases hold hp with ⟨-, -, hbare, -⟩ | hp
    · rw [hbare.scopedSlots] at hslot
      cases hslot
    · obtain ⟨elx, helx, hscope⟩ := h.slotKeys p elp hp slot hslot
      exact ⟨elx, hnew helx, hscope⟩
  · rcases hold hy with ⟨-, -, hbare, -⟩ | hy
    · rw [branchNodes, hbare.conditions]
      rfl
    · refine h.slotChains y ely hy htag (hloose.imp_right ?_)
      rintro ⟨p, elp, hp, hslot⟩
      rcases hold hp with ⟨-, -, hbare, -⟩ | hp
      · rw [slotNodes, hbare.scopedSlots] at hslot
        cases hslot
      · exact ⟨p, elp, hp, hslot⟩
  · rcases hold hy with ⟨-, -, -, hallowed⟩ | hy
    · exact hallowed
    · exact h.allowed y ely hy
  · obtain ⟨y, ely, hy, hstart⟩ := h.started tag attrs unary span hmem
    exact ⟨y, ely, hnew hy, hstart⟩

/-- Numbers that are not in use yet may count as loose. -/
theorem loosen (new : List NodeId) (h : a.Accounted done loose)
    (hnew : ∀ x ∈ new, a.nodes.size ≤ x) : a.Accounted done (new ++ loose) where
  placed x hx := (h.placed x hx).imp_left fun hmem => mem_append_right _ hmem
  slotKeys := h.slotKeys
  slotChains x el hel htag hloose := by
    refine h.slotChains x el hel htag (hloose.imp_left fun hmem => ?_)
    rcases mem_append.mp hmem with hmem | hmem
    · exact absurd (lt_size_of_element? hel) (Nat.not_lt.mpr (hnew x hmem))
    · exact hmem
  allowed := h.allowed
  started := h.started

theorem pushElements {parent : Option NodeId} {els : List Element} (h : a.Accounted done loose)
    (hels : ∀ el ∈ els, el.Bare ∧ el.forbidden = false)
    (hloose : ∀ x, a.nodes.size ≤ x → x < a.nodes.size + els.length → x ∈ loose) :
    (a.pushElements parent els).Accounted done loose := by
  induction els generalizing a with
  | nil => exact h
  | cons el rest ih =>
    rw [length_cons] at hloose
    refine ih (h.push fun el' heq => ?_) (fun el' hel' => hels el' (mem_cons_of_mem _ hel'))
      fun x hfirst hlast => ?_
    · cases heq
      exact ⟨hloose _ (Nat.le_refl _) (by omega), hels el mem_cons_self⟩
    · rw [size_push] at hfirst hlast
      exact hloose x (by omega) (by omega)

theorem note (h : a.Accounted done loose)
    (hstart : ∀ tag attrs unary span, signal = .event (.opened tag attrs unary span) →
      ∃ x el, a.element? x = some el ∧ el.tag = tag ∧ el.span = span) :
    a.Accounted (done ++ [signal]) loose where
  placed := h.placed
  slotKeys := h.slotKeys
  slotChains := h.slotChains
  allowed := h.allowed
  started tag attrs unary span hmem := by
    rcases mem_append.mp hmem with hmem | hmem
    · exact h.started tag attrs unary span hmem
    · exact hstart tag attrs unary span (mem_singleton.mp hmem).symm

end Accounted

/-! ## The changes that are made -/

namespace Change

theorem children (h : a.Accounted done loose) (hel : a.element? id = some el)
    {children : List NodeId} (hkept : ∀ c ∈ el.children, (a.element? c).isSome → c ∈ children) :
    a.Change loose id el { el with children } where
  tag := rfl
  span := rfl
  forbidden := rfl
  links c hc hsome := by
    rcases hc with hc | hc
    · exact child_link (hkept c hc hsome)
    · exact branch_link hc
  slots _ hslot := .inl hslot
  keys _ hslot := .inl hslot
  self := .inr ⟨rfl, rfl⟩
  chain htag hloose := h.slotChains id el hel htag hloose

/-- A chain may get another branch, if it is not the one of a scoped slot or a loose element. -/
theorem branch (hloose : id ∉ loose) (hslot : ¬ a.IsSlot id) (c : Condition) :
    a.Change loose id el { el with conditions := el.conditions ++ [c] } where
  tag := rfl
  span := rfl
  forbidden := rfl
  links c hc _ := by
    rcases hc with hc | hc
    · exact child_link hc
    · refine branch_link ?_
      unfold branchNodes at hc ⊢
      cases hlist : el.conditions with
      | nil =>
        rw [hlist] at hc
        cases hc
      | cons first rest =>
        rw [hlist] at hc
        simp only [cons_append, tail_cons, map_append]
        exact mem_append_left _ hc
  slots _ hslot := .inl hslot
  keys _ hslot := .inl hslot
  self := .inr ⟨rfl, rfl⟩
  chain _ h := by
    rcases h with h | h
    · exact absurd h hloose
    · exact absurd h hslot

theorem slot (h : a.Accounted done loose) (hel : a.element? id = some el) {elx : Element}
    (hx : a.element? x = some elx) (hscope : elx.slotScope.isSome) (hloose : x ∈ loose)
    (hne : x ≠ id) (hlast : ∀ slot ∈ el.scopedSlots, slot.2 < x) :
    a.Change loose id el { el with
      scopedSlots := el.scopedSlots.filter (·.1 ≠ elx.slotKey) ++ [(elx.slotKey, x)] } where
  tag := rfl
  span := rfl
  forbidden := rfl
  links c hc _ := by
    rcases hc with hc | hc
    · exact child_link hc
    · exact branch_link hc
  slots slot hslot := by
    by_cases hkey : slot.1 = elx.slotKey
    · exact .inr ⟨x, mem_append_right _ (by simp [hkey]), hlast slot hslot⟩
    · exact .inl (mem_append_left _ (mem_filter.mpr ⟨hslot, by simpa using hkey⟩))
  keys slot hslot := by
    rcases mem_append.mp hslot with hslot | hslot
    · exact .inl (mem_filter.mp hslot).1
    · rw [mem_singleton.mp hslot]
      exact .inr ⟨hne, hloose, elx, hx, hscope, rfl⟩
  self := .inr ⟨rfl, rfl⟩
  chain htag hloose := h.slotChains id el hel htag hloose

end Change

end Ast

/-! ## Closing an element -/

/-- An open element is no scoped slot yet. -/
theorem Ast.Sound.not_isSlot {s : Settings} {seen : List Signal} {id : NodeId}
    (h : a.Sound s seen (id :: stack)) : ¬ a.IsSlot id := by
  rintro ⟨p, parent, hp, hmem⟩
  refine h.unlinked id mem_cons_self p ?_
  rw [links_eq hp]
  exact slot_link hmem

namespace Builder

variable {o : Options} {s : Settings} {seen done : List Signal} {b : Builder} {id p : NodeId}
  {rest : List NodeId} {el el' : Element} {a' : Ast}

theorem mem_dropSpaces {children : List NodeId} (hc : c ∈ children)
    (hel : (a.element? c).isSome) : c ∈ dropSpaces a children := by
  obtain ⟨el, hel⟩ := isSome_iff_exists.mp hel
  have hspace : a.isSpace c = false := by
    rw [isSpace, element?_eq_some_iff.mp hel]
  unfold dropSpaces
  rw [mem_reverse]
  have hsplit :
      c ∈ children.reverse.takeWhile a.isSpace ++ children.reverse.dropWhile a.isSpace := by
    rw [takeWhile_append_dropWhile]
    exact mem_reverse.mpr hc
  rcases mem_append.mp hsplit with hmem | hmem
  · have := mem_takeWhile_imp hmem
    rw [hspace] at this
    cases this
  · exact hmem

/-- Only texts and comments are dropped before a branch. -/
theorem mem_dropToElement {siblings : List NodeId} (hc : c ∈ siblings)
    (hel : (a.element? c).isSome) : c ∈ (dropToElement s a siblings).value := by
  obtain ⟨el, hel⟩ := isSome_iff_exists.mp hel
  induction siblings with
  | nil => cases hc
  | cons first rest ih =>
    have hrest (hkind : ∀ el', a.kind? first ≠ some (.element el')) :
        c ∈ (dropToElement s a rest).value := by
      rcases mem_cons.mp hc with rfl | hc
      · exact absurd (element?_eq_some_iff.mp hel) (hkind el)
      · exact ih hc
    unfold dropToElement
    split
    · exact hc
    · next heq =>
      have hdrop : c ∈ (dropToElement s a rest).value := hrest fun el' hel' => by
        rw [heq] at hel'
        cases hel'
      split <;> exact hdrop
    · next hne _ => exact hrest hne

/-- What an element keeps when it is closed. -/
structure Finishes (a : Ast) (el el' : Element) : Prop where
  tag : el'.tag = el.tag
  span : el'.span = el.span
  forbidden : el'.forbidden = el.forbidden
  scopedSlots : el'.scopedSlots = el.scopedSlots
  conditions : el'.conditions = el.conditions
  children : ∀ c ∈ el.children, (a.element? c).isSome → c ∈ el'.children

theorem trimmed_finishes (b : Builder) (el : Element) : Finishes b.ast el (b.trimmed el) := by
  unfold trimmed
  split
  · exact ⟨rfl, rfl, rfl, rfl, rfl, fun _ hc _ => hc⟩
  · exact ⟨rfl, rfl, rfl, rfl, rfl, fun _ hc hsome => mem_dropSpaces hc hsome⟩

theorem finished_finishes (ho : o.UsesWeb) (b : Builder) (id : NodeId) (el : Element) :
    (b.finished o id (b.trimmed el)).Ensures (Finishes b.ast el) := by
  have htrim := b.trimmed_finishes el
  unfold finished
  split
  · exact .pure htrim
  · refine (process_spec ho _ _).mono fun el' hel' => ?_
    have hframe := hel'.frame
    exact ⟨(congrArg Frame.tag hframe).trans htrim.tag,
      (congrArg Frame.span hframe).trans htrim.span,
      (congrArg Frame.forbidden hframe).trans htrim.forbidden,
      (congrArg Frame.scopedSlots hframe).trans htrim.scopedSlots,
      (congrArg Frame.conditions hframe).trans htrim.conditions,
      fun c hc hsome => (show el'.children = _ from congrArg Frame.children hframe) ▸
        htrim.children c hc hsome⟩

theorem Finishes.change {loose : List NodeId} (h : a.Accounted done loose)
    (hel : a.element? id = some el) (hloose : id ∈ loose) (hslot : ¬ a.IsSlot id)
    (hfin : Finishes a el el') : a.Change loose id el el' where
  tag := hfin.tag
  span := hfin.span
  forbidden := hfin.forbidden
  links c hc hsome := by
    rcases hc with hc | hc
    · exact child_link (hfin.children c hc hsome)
    · refine branch_link ?_
      rwa [branchNodes, hfin.conditions]
  slots _ hslot := .inl (hfin.scopedSlots ▸ hslot)
  keys _ hslot := .inl (hfin.scopedSlots ▸ hslot)
  self := .inl ⟨hloose, hslot⟩
  chain htag _ := by
    rw [branchNodes, hfin.conditions]
    exact h.slotChains id el hel (hfin.tag ▸ htag) (.inl hloose)

/-! ### Its place in the tree -/

theorem mem_links_addBranch_self {head : NodeId} {headEl : Element}
    (hhead : a.element? head = some headEl) (hfits : a.Fits head headEl)
    (hif : headEl.ifExp.isSome) (exp : Option String) :
    id ∈ (addBranch a head ⟨exp, id⟩).links head := by
  obtain ⟨first, hfirst⟩ := isSome_iff_exists.mp hif
  have hchain := hfits.chain
  rw [hfirst] at hchain
  obtain ⟨others, hoth⟩ := head?_eq_some_iff.mp hchain
  unfold addBranch
  rw [links_eq (element?_modifyElement_self hhead)]
  refine branch_link ?_
  simp [branchNodes, hoth]

/-- Without a report, a closed element is the root, or its parent or the start of its chain links
to it. -/
theorem joins_accounted {stray : Prop} (hsound : a.Sound s seen (id :: rest))
    (h : a.Accounted done (id :: rest)) (hel : a.element? id = some el)
    (hjoins : a.Joins s id el stray rest.head? a') (hquiet : ¬ stray) : a'.Accounted done rest := by
  have hself {a' : Ast} (h : a'.Accounted done (id :: rest))
      (hid : a'.root = some id ∨ ∃ p, id ∈ a'.links p) : a'.Accounted done rest :=
    h.settle [id] fun x hx => by rwa [mem_singleton.mp hx]
  cases rest with
  | nil =>
    cases hjoins with
    | root hroot => exact hself h (.inl hroot)
    | extra hstray => exact absurd hstray hquiet
    | @rootBranch head headEl hroot hne hhead hif =>
      obtain rfl : head = 0 := hsound.rootFirst head hroot
      have hslot : ¬ a.IsSlot 0 := by
        rintro ⟨p, parent, hp, hmem⟩
        refine Nat.not_lt_zero p (hsound.lt_of_mem_links ?_).1
        rw [links_eq hp]
        exact slot_link hmem
      refine hself (h.modify hsound.toWellFormed hhead (.branch ?_ hslot _)) (.inr ⟨0, ?_⟩)
      · exact fun hmem => hne (mem_singleton.mp hmem)
      · exact mem_links_addBranch_self hhead (hsound.fits 0 headEl hhead) hif _
  | cons p rest =>
    obtain ⟨parent, hpar⟩ := isSome_iff_exists.mp hsound.nested.2.2.1
    have hlt : p < id := hsound.parents id p hsound.nested.2.1
    cases hjoins with
    | forbidden hforb =>
      rw [h.allowed id el hel] at hforb
      cases hforb
    | lone hstray => exact absurd hstray hquiet
    | @branch _ head headEl hlast hhead hif =>
      have hkept :
          ∀ c ∈ parent.children, (a.element? c).isSome → c ∈ (a.lastElements s p).reverse := by
        intro c hc hsome
        rw [lastElements, hpar]
        exact mem_reverse.mpr (mem_dropToElement (mem_reverse.mpr hc) hsome)
      have hdrop : (a.upToElement s p).Accounted done (id :: p :: rest) :=
        h.modify hsound.toWellFormed hpar (.children h hpar hkept)
      have hdropped := upToElement_sound hsound
      have hpar' : (a.upToElement s p).element? p = _ := element?_modifyElement_self hpar
      have hchild : head ∈ (a.lastElements s p).reverse := mem_reverse.mpr (mem_of_mem_head? hlast)
      have hlinked := links_eq hpar' ▸ child_link hchild
      -- the start of the chain is a child of the parent, so it is neither open nor a slot
      have hloose : head ∉ id :: p :: rest := fun hmem => hdropped.unlinked head hmem p hlinked
      have hslot := not_isSlot hdropped.toWellFormed hpar' (.inl hchild)
      refine hself (hdrop.modify hdropped.toWellFormed hhead (.branch hloose hslot _))
        (.inr ⟨head, ?_⟩)
      exact mem_links_addBranch_self hhead (hdropped.fits head headEl hhead) hif _
    | slot name hname hscope =>
      subst hname
      refine hself (h.modify hsound.toWellFormed hpar (.slot h hpar hel hscope mem_cons_self
        (Nat.ne_of_gt hlt) fun slot hslot => ?_)) (.inr ⟨p, ?_⟩)
      · refine hsound.earlier id mem_cons_self p hlt _ ?_
        rw [links_eq hpar]
        exact slot_link (List.mem_map_of_mem hslot)
      · rw [links_eq (element?_modifyElement_self hpar)]
        exact slot_link (by simp [slotNodes])
    | child =>
      refine hself (h.modify hsound.toWellFormed hpar
        (.children h hpar fun c hc _ => mem_append_left _ hc)) (.inr ⟨p, ?_⟩)
      rw [links_eq (element?_modifyElement_self hpar)]
      exact child_link (by simp)

theorem close_accounted (ho : o.UsesWeb) (hsound : b.ast.Sound o.toSettings seen (id :: b.stack))
    (h : b.ast.Accounted done (id :: b.stack)) (hfirst : b.rootReported = false) :
    (b.close o id).Quietly fun b' => b'.ast.Accounted done b.stack ∧ b'.rootReported = false := by
  obtain ⟨el, hel⟩ := isSome_iff_exists.mp hsound.nested.1
  rw [close_eq hel]
  have hclosed := Outcome.Quietly.ofEnsures (finished_spec ho b id (hsound.origin id el hel))
  have hfinished := Outcome.Quietly.ofEnsures (finished_finishes ho b id el)
  refine .bind (hclosed.and hfinished) fun el' ⟨hcloses, hfin⟩ => .lift fun herr => ?_
  obtain ⟨_, _, heq, hjoins, hquiet⟩ := joined_joins o.toSettings b id el'
  have hset : (b.ast.setElement id el').Accounted done (id :: b.stack) :=
    h.modify hsound.toWellFormed hel (hfin.change h hel mem_cons_self hsound.not_isSlot)
  rw [heq]
  exact ⟨joins_accounted (hsound.replace hel hcloses.toDrops hcloses.written) hset
    (element?_modifyElement_self hel) hjoins fun hstray => hstray ⟨herr, hfirst⟩,
    hquiet ⟨herr, hfirst⟩⟩

/-! ## Taking a start tag -/

theorem shape_enter : (b.enter s el).2.shape = el.shape := by
  unfold enter
  split
  · rfl
  · rw [takePre_eq]
    rfl

theorem shape_structured (s : Settings) (b : Builder) (id : NodeId)
    (h : el.Bare ∨ el.processed) : (b.structured s id el).value.shape = el.shape := by
  unfold structured
  split
  · unfold keepAttributes
    split
    · split <;> rfl
    · rfl
  split
  · rfl
  · next hproc =>
    have hbare : el.Bare := h.resolve_right hproc
    obtain ⟨_, _, _, _, conditions, _, _, heq, -, hconds⟩ := el.structural_cases s id
    rw [heq]
    rcases hconds with ⟨rfl, rfl⟩ | ⟨exp, rfl, rfl⟩
    · rfl
    · simp [shape, branchNodes, hbare.conditions]

theorem branchElement_allowed (ho : o.UsesWeb) (above : List Element)
    (first : Bool) (branch : Branch) :
    (branchElement o above el first branch).Ensures (·.forbidden = false) := by
  obtain ⟨_, _, _, _, heq, -⟩ := result_branchElement o above el first branch
  exact .ofResult heq ((process_spec ho above _).mono fun clone hclone =>
    congrArg Frame.forbidden hclone.frame)

theorem expansion?_input {modules : List Module} (hmods : ∀ m ∈ modules, m ∈ Web.modules) :
    (expansion? s el modules).Ensures fun r => r.isSome → el.tag = "input" := by
  refine (expansion?_eq s el hmods).mono fun r hr hsome => ?_
  obtain ⟨e, rfl⟩ := isSome_iff_exists.mp hsome
  have he := ((hr e).mp rfl).2
  unfold Web.expandInputType? at he
  split at he
  · cases he
  · next hinput =>
    simp only [not_or, Decidable.not_not] at hinput
    exact hinput.1

/-- The elements `others` have been added beside a new element, which is `el` now and has them as
its other branches. -/
structure Expands (b b' : Builder) (el : Element) (others : List Element) : Prop where
  ast : b'.ast = b.ast.pushElements b.parent? others
  rootReported : b'.rootReported = b.rootReported
  added : ∀ other ∈ others, other.Bare ∧ other.forbidden = false
  forbidden : el.forbidden = false
  scopedSlots : el.scopedSlots = []
  branches : el.branchNodes = List.range' b.ast.nodes.size others.length
  template : el.tag = "template" → others = []

theorem expand_expands (ho : o.UsesWeb) {e : Expansion}
    (he : e.Proper o.toSettings attrs) (hinput : el.tag = "input") :
    (b.expand o id el e).Ensures fun r => ∃ others, Expands b r.1 r.2 others := by
  obtain ⟨branch, rest, exp, hbrs, hexp⟩ := he.first
  have hprop := he.branches
  rw [hbrs] at hprop
  unfold expand
  rw [hbrs]
  refine .bind ((branchElement_spec ho _ el true (hprop branch (by simp))).and
    (branchElement_allowed ho _ true branch)) fun head ⟨hhead, hallowed⟩ => ?_
  refine .bind ((otherBranches_spec ho _ el rest fun b hb => hprop b (by simp [hb])).and
    (otherBranches_each fun b _ => branchElement_allowed ho _ false b))
    fun others ⟨⟨hlen, hoth⟩, ⟨_, hoth'⟩⟩ => .pure ?_
  rw [linkChain_eq]
  refine ⟨others, rfl, rfl,
    fun other hother => ⟨(hoth other hother).bare, hoth' other hother⟩, hallowed,
    hhead.bare.scopedSlots, ?_, fun htag => ?_⟩
  · rw [branchNodes, hhead.bare.conditions, nil_append, tail_cons, List.map_map]
    exact map_snd_zip (by simp [hlen])
  · rw [show head.tag = "input" from hhead.origin.tag.trans hinput] at htag
    exact absurd htag (by decide)

theorem expanded_expands (ho : o.UsesWeb) (b : Builder) (hbare : el.Bare)
    (hallowed : el.forbidden = false)
    (hwr : ∀ name, el.hasAttr name → ∃ attr ∈ el.pending, attr.name = name) :
    (b.expanded o id el).Ensures fun r => ∃ others, Expands b r.1 r.2 others := by
  refine .bind ((expansion?_spec hwr o.modules ho.modules).and
    (expansion?_input ho.modules)) fun r ⟨hr, hinput⟩ => ?_
  cases r with
  | none =>
    refine .pure ⟨[], rfl, rfl, by simp, hallowed, hbare.scopedSlots, ?_, fun _ => rfl⟩
    rw [branchNodes, hbare.conditions]
    rfl
  | some e => exact expand_expands ho (hr e rfl) (hinput rfl)

theorem rootReported_withRoot (hfirst : b.rootReported = false)
    (herr : (b.withRoot s id el).notes.errors = []) :
    (b.withRoot s id el).value.rootReported = false := by
  unfold withRoot at herr ⊢
  split at herr
  · next hnone =>
    have hquiet :=
      checkRoot_quiet (b := { b with ast := { b.ast with root := some id } }) hfirst herr
    rw [if_pos hnone, hquiet]
    exact hfirst
  · next hsome =>
    rw [if_neg hsome]
    exact hfirst

theorem Expands.place {others : List Element} {tag : String}
    {unary : Bool} {span : Span} {new : Element}
    (h : a.Accounted done (List.range' (id + 1) others.length ++ id :: stack)) (hwf : a.WellFormed)
    (hnew : a.element? id = some new) (hbare : new.Bare) (hslot : ¬ a.IsSlot id)
    (htag : el.tag = tag) (hspan : el.span = span) (hallowed : el.forbidden = false)
    (hsame : new.tag = tag ∧ new.span = span ∧ new.forbidden = false)
    (hslots : el.scopedSlots = []) (hbrs : el.branchNodes = List.range' (id + 1) others.length)
    (htmpl : el.tag = "template" → others = []) :
    (a.setElement id el).Accounted (done ++ [.event (.opened tag attrs unary span)])
      (id :: stack) := by
  have hset : (a.setElement id el).Accounted done
      (List.range' (id + 1) others.length ++ id :: stack) := by
    refine h.modify hwf hnew ⟨htag.trans hsame.1.symm, hspan.trans hsame.2.1.symm,
      hallowed.trans hsame.2.2.symm, fun c hc => ?_, fun slot hs => ?_, fun slot hs => ?_,
      .inl ⟨by simp, hslot⟩, fun ht _ => ?_⟩
    · simp [hbare.children, branchNodes, hbare.conditions] at hc
    · rw [hbare.scopedSlots] at hs
      cases hs
    · rw [hslots] at hs
      cases hs
    · rw [hbrs, htmpl ht]
      rfl
  have hself : (a.setElement id el).element? id = some el := element?_modifyElement_self hnew
  refine (hset.settle _ fun x hx => .inr ⟨id, ?_⟩).note fun tag' attrs' unary' span' heq => ?_
  · rw [links_eq hself]
    exact branch_link (hbrs ▸ hx)
  · cases heq
    exact ⟨id, el, hself, htag, hspan⟩

section

variable (ho : o.UsesWeb) (hkeeps : b.Keeps o seen) (h : b.ast.Accounted done b.stack)
  (hfirst : b.rootReported = false) {tag : String} {attrs : List Attr} {unary : Bool} {span : Span}
  (hmem : Signal.event (.opened tag attrs unary span) ∈ seen)

include ho hkeeps h hfirst hmem

theorem placed_accounted : (b.placed o tag attrs span).Quietly fun b' =>
      b'.ast.Accounted (done ++ [.event (.opened tag attrs unary span)])
        (b.ast.nodes.size :: b.stack) ∧ b'.rootReported = false := by
  obtain ⟨hbare, hfrom, hwr⟩ := newElement_spec o.toSettings b tag attrs span
  have hpend : (b.newElement o.toSettings tag attrs span).pending = attrs := rfl
  unfold placed
  dsimp only [nextId]
  generalize b.newElement o.toSettings tag attrs span = new at hbare hfrom hwr hpend ⊢
  refine .bindLift fun _ => .bindLift fun hreport => ?_
  have hallowed : new.forbidden = false := by
    unfold reportForbidden at hreport
    cases hforbidden : new.forbidden with
    | false => rfl
    | true =>
      rw [hforbidden] at hreport
      cases hreport
  have hplaced : Places o.toSettings seen tag attrs span (b.ast.push b.parent? (.element new))
      b.ast.nodes.size b.stack new := .new hkeeps.tree hbare hfrom hmem
  have hpushed : (b.ast.push b.parent? (.element new)).Accounted done
      (b.ast.nodes.size :: b.stack) := by
    refine (h.loosen [b.ast.nodes.size] (by simp)).push fun el heq => ?_
    cases heq
    exact ⟨mem_cons_self, hbare, hallowed⟩
  have hexpanded := (expanded_places (b := { b with ast := b.ast.push b.parent? (.element new) })
    ho hplaced hmem hbare hpend hwr).and (expanded_expands ho
      { b with ast := b.ast.push b.parent? (.element new) } hbare hallowed (hpend ▸ hwr))
  refine .bind (.ofEnsures hexpanded) fun r hr =>
    .bindLift fun _ => .bindLift fun hrootErr => .pure ?_
  obtain ⟨⟨hr, hshape, -, hroot⟩, others, hexpands⟩ := hr
  have hstruct := structured_places (r.1.enter o.toSettings r.2).1 (enter_places hr)
    (enter_shape o.toSettings r.1 hshape)
  have hshape' := (shape_structured o.toSettings (r.1.enter o.toSettings r.2).1 b.ast.nodes.size
    (enter_shape o.toSettings r.1 hshape)).trans shape_enter
  generalize ((r.1.enter o.toSettings r.2).1.structured o.toSettings b.ast.nodes.size
    (r.1.enter o.toSettings r.2).2).value = el at hstruct hshape' hrootErr ⊢
  obtain ⟨reported, heq⟩ :=
    withRoot_eq o.toSettings (r.1.enter o.toSettings r.2).1 b.ast.nodes.size el
  have hfirst' := rootReported_withRoot (b := (r.1.enter o.toSettings r.2).1)
    (hexpands.rootReported.trans hfirst) hrootErr
  rw [heq] at hfirst' ⊢
  have hplaces := hstruct.reroot fun hnone => hkeeps.rootless (hroot ▸ hnone)
  have hnew : r.1.ast.element? b.ast.nodes.size = some new := by
    rw [hexpands.ast, element?_eq_some_iff, kind?_pushElements, if_pos (by simp)]
    exact element?_eq_some_iff.mp (element?_push_self ..)
  have hadded : r.1.ast.Accounted done
      (List.range' (b.ast.nodes.size + 1) others.length ++ b.ast.nodes.size :: b.stack) := by
    have hloose := hpushed.loosen (List.range' (b.ast.nodes.size + 1) others.length) fun x hx => by
      rw [size_push]
      exact (mem_range'_1.mp hx).1
    rw [hexpands.ast]
    refine hloose.pushElements hexpands.added fun x hge hlt => mem_append_left _ ?_
    rw [size_push] at hge hlt
    exact mem_range'_1.mpr ⟨hge, hlt⟩
  simp only [shape, Prod.mk.injEq] at hshape'
  obtain ⟨htag, -, hforbidden, -, hslots, hbrs⟩ := hshape'
  refine ⟨Expands.place (hadded.reroot _) hplaces.tree.toWellFormed hnew hbare
    hplaces.tree.not_isSlot hplaces.origin.tag hplaces.origin.span
    (hforbidden.trans hexpands.forbidden) ⟨hfrom.tag, hfrom.span, hallowed⟩
    (hslots.trans hexpands.scopedSlots) ?_ fun h => hexpands.template (htag ▸ h), hfirst'⟩
  rw [hbrs, hexpands.branches, size_push]

theorem openElement_accounted : (b.openElement o tag attrs unary span).Quietly fun b' =>
      b'.ast.Accounted (done ++ [.event (.opened tag attrs unary span)]) b'.stack ∧
        b'.rootReported = false := by
  rw [openElement_eq]
  refine .bind ((placed_accounted ho hkeeps h hfirst hmem).and
    (.ofEnsures (placed_spec ho hkeeps.tree hkeeps.rootless hmem))) ?_
  rintro b₁ ⟨⟨h₁, hfirst₁⟩, hsound, -, hstk⟩
  rw [← hstk] at h₁ hsound
  split
  · refine ((close_accounted ho hsound h₁ hfirst₁).and
      (.ofEnsures (close_spec ho hsound))).mono fun b' hb' => ?_
    rw [hb'.2.2.1]
    exact hb'.1
  · exact .pure ⟨h₁, hfirst₁⟩

end

/-! ## All signals -/

theorem addChild_accounted (hkeeps : b.Keeps o seen) (h : b.ast.Accounted done b.stack)
    (hstk : b.stack = p :: rest) (hkind : ∀ el, kind ≠ .element el) :
    (b.addChild p kind).ast.Accounted done b.stack := by
  have htree := hkeeps.tree
  rw [hstk] at htree
  obtain ⟨parent, hpar⟩ := isSome_iff_exists.mp htree.nested.1
  have hlt : p < b.ast.nodes.size := lt_size_of_element? hpar
  have hpushed : (b.ast.push (some p) kind).Accounted done b.stack :=
    h.push fun el heq => absurd heq (hkind el)
  have hwf : (b.ast.push (some p) kind).WellFormed := by
    refine (hkeeps.tree.toOpenAt.push (fun q hq => ?_) fun el heq =>
      absurd heq (hkind el)).toWellFormed
    cases hq
    exact hlt
  have hpar' : (b.ast.push (some p) kind).element? p = some parent := by
    rwa [element?_push_of_lt hlt]
  exact hpushed.modify hwf hpar' (.children hpushed hpar' fun c hc _ => mem_append_left _ hc)

/-- Text outside of every element is blank or reported, or some has been reported before. -/
theorem textOutside_quiet (hfirst : b.rootReported = false) {source content : String}
    (herr : (b.textOutside source content).notes.errors = []) :
    (b.textOutside source content).value = b := by
  unfold textOutside at herr ⊢
  split at herr
  · exact absurd herr (reportRoot_errors hfirst _ _)
  · next hsome =>
    rw [if_neg hsome]
    split at herr
    · next hblank => rw [if_pos hblank, value_pure]
    · cases herr

section

variable (ho : o.UsesWeb) (hkeeps : b.Keeps o seen) (h : b.ast.Accounted done b.stack)
  (hfirst : b.rootReported = false) (source : String)

include ho hkeeps h hfirst

theorem signal_accounted (hseen : signal ∈ seen) : (b.signal o source signal).Quietly fun b' =>
      b'.ast.Accounted (done ++ [signal]) b'.stack ∧ b'.rootReported = false := by
  -- a signal that is no start tag adds nothing to what has been seen
  have hnote {a : Ast} {loose : List NodeId} (ha : a.Accounted done loose)
      (hopened : ∀ tag attrs unary span, signal ≠ .event (.opened tag attrs unary span)) :
      a.Accounted (done ++ [signal]) loose :=
    ha.note fun tag attrs unary span heq => absurd heq (hopened tag attrs unary span)
  have hacts := b.signal_acts o source signal
  generalize b.signal o source signal = x at hacts ⊢
  cases hacts with
  | warning w span => exact .bindLift fun herr => by cases herr
  | opened tag attrs unary span => exact openElement_accounted ho hkeeps h hfirst hseen
  | @closed id rest tag span hstk =>
    have htree := hkeeps.tree
    rw [hstk] at htree h
    refine ((close_accounted (b := { b with stack := rest }) ho htree h hfirst).and
      (.ofEnsures (close_spec ho htree))).mono fun b' hb' => ?_
    rw [hb'.2.2.1]
    exact ⟨hnote hb'.1.1 nofun, hb'.1.2⟩
  | unopened | textDropped | commentDropped => exact .pure ⟨hnote h nofun, hfirst⟩
  | outside content span =>
    refine .lift fun herr => ?_
    rw [textOutside_quiet hfirst herr]
    exact ⟨hnote h nofun, hfirst⟩
  | child hstk hkind =>
    refine .pure ⟨hnote (addChild_accounted hkeeps h hstk hkind.ne_element) ?_, hfirst⟩
    cases hkind <;> nofun

theorem signals_accounted {signals : List Signal} (hseen : signals ⊆ seen) :
    (Builder.signals o source signals b).Quietly fun b' =>
      b'.ast.Accounted (done ++ signals) b'.stack ∧ b'.rootReported = false := by
  induction signals generalizing b done with
  | nil =>
    refine .pure ⟨?_, hfirst⟩
    rwa [append_nil]
  | cons first later ih =>
    obtain ⟨hmem, hlater⟩ := cons_subset.mp hseen
    refine .bind ((signal_accounted ho hkeeps h hfirst source hmem).and
      (.ofEnsures (signal_spec ho hkeeps source hmem))) fun b' ⟨⟨h', hfirst'⟩, hkeeps'⟩ => ?_
    have hrest := ih hkeeps' h' hfirst' hlater
    rwa [List.append_assoc] at hrest

end

theorem accounted_empty : ({} : Builder).ast.Accounted [] ({} : Builder).stack where
  placed _ h := by cases h
  slotKeys _ _ h := by cases h
  slotChains _ _ h := by cases h
  allowed _ _ h := by cases h
  started _ _ _ _ h := by cases h

theorem signals_read_accounted (ho : o.UsesWeb) (source : String) :
    (Builder.signals o source (read o.tags o.comments source) {}).Quietly fun b =>
      b.ast.Accounted (read o.tags o.comments source) [] ∧ b.rootReported = false := by
  refine ((signals_accounted ho (keeps_empty o) accounted_empty rfl source (List.Subset.refl _)).and
    (.ofEnsures (signals_read ho source))).mono fun b hb => ?_
  obtain ⟨⟨h, hfirst⟩, -, hstk⟩ := hb
  rw [hstk] at h
  exact ⟨h, hfirst⟩

end Builder

end TemplateCompiler
