import TemplateCompiler.Proofs.Generator
import TemplateCompiler.Proofs.Lexing

/-!
# Disciplines for source text

An element stores pieces of source text as they were written: conditions, loop heads, values of
bindings and handlers and so on. The functions `fragments` list them. A *discipline* is a property
of source text that fixed texts and literals have, and that is kept when texts are put together. If
the pieces that an element stores keep to a discipline, then so does everything that the compiler
writes around them into the data object of the element: the code of its listeners, its directives
and bindings, and what the modules for classes and styles add.

Texts to be closed is one discipline, and not to have line separators is another. The first is about
brackets, so a text leads from open brackets to open brackets.
-/

namespace TemplateCompiler

open Text List DataObject

variable {key modifier guard first : String}

/-! ## What an element stores -/

def LoopHead.fragments (head : LoopHead) : List String :=
  head.source :: head.binder :: head.iterator1.toList ++ head.iterator2.toList

def Binding.fragments (b : Binding) : List String := b.value :: if b.dynamic then [b.name] else []

/-- The values of handlers, and the name of their event if that is an expression. -/
def Listener.fragments (l : Listener) : List String :=
  (if l.key.dynamic then [l.key.name] else []) ++ l.handlers.map (·.value)

def Argument.fragments : Argument → List String
  | .fixed _ => []
  | .computed exp => [exp]

def Directive.fragments (d : Directive) : List String :=
  d.value.toList ++ d.argument.toList.flatMap Argument.fragments

def TextToken.fragments : TextToken → List String
  | .literal _ => []
  | .expression exp => [exp]

/-! ## Disciplines -/

/-- A property of source text. Tags, modifiers and plain styles are written as they are, and what is
asked of them depends on the discipline. -/
structure Discipline where
  /-- With the brackets `before` open the text may follow, and then `after` are open. -/
  Leads (before : List Bracket) (text : String) (after : List Bracket) : Prop
  /-- What may be the tag of an element. -/
  tag : String → Prop
  /-- What may be a modifier of a directive. -/
  modifier : String → Prop
  /-- What may be the plain style of an element. -/
  style : String → Prop
  fixed {before after : List Bracket} {text : String} : Reads before text after → Unbroken text →
    Leads before text after
  append {before mid after : List Bracket} {text text' : String} : Leads before text mid →
    Leads mid text' after → Leads before (text ++ text') after
  inside {text : String} : Leads [] text [] → ∀ opened, Leads opened text opened
  literal (text : String) : Leads [] (Text.literal text) []
  escaped {text : String} : Leads [] text [] → Leads [] (escapeSeparators text) []
  dropComma {text : String} : Leads [] text [] → Leads [] (dropComma text) []
  quotedTag {name : String} : tag name → Leads [] ("'" ++ name ++ "'") []
  modifiers {names : List String} : (∀ name ∈ names, modifier name) →
    Leads [] (directiveModifiers names) []
  plainStyle {plain : String} : style plain → Leads [] plain []
  mergedStyle {plain bound : String} : style plain → Leads [] bound [] →
    Leads [] (Web.mergedStyle plain bound) []

def Discipline.lax : Discipline where
  Leads _ _ _ := True
  tag _ := True
  modifier _ := True
  style _ := True
  fixed _ _ := trivial
  append _ _ := trivial
  inside _ _ := trivial
  literal _ := trivial
  escaped _ := trivial
  dropComma _ := trivial
  quotedTag _ := trivial
  modifiers _ := trivial
  plainStyle _ := trivial
  mergedStyle _ _ := trivial

namespace Discipline

variable {d : Discipline}

def Good (d : Discipline) (text : String) : Prop := d.Leads [] text []

namespace Good

variable {s t : String} {texts : List String}

theorem leads (h : d.Good s) (opened : List Bracket) : d.Leads opened s opened := d.inside h opened

theorem fixed (h : Closed s) (h' : Unbroken s) : d.Good s := d.fixed h h'

theorem empty : d.Good "" := .fixed rfl rfl

theorem append (hs : d.Good s) (ht : d.Good t) : d.Good (s ++ t) := d.append hs ht

theorem literal (s : String) : d.Good (Text.literal s) := d.literal s

theorem repr (n : Nat) : d.Good n.repr := .fixed (.repr n) (.repr n)

theorem intercalate (hs : d.Good s) (h : ∀ t ∈ texts, d.Good t) :
    d.Good (String.intercalate s texts) := intercalate_of empty (fun _ _ => append) hs h

theorem join (h : ∀ t ∈ texts, d.Good t) : d.Good (String.join texts) :=
  join_of empty (fun _ _ => append) h

theorem between {last : String} {opened : List Bracket} (h : d.Good s)
    (hfirst : Reads [] first opened) (hfirst' : Unbroken first) (hlast : Reads opened last [])
    (hlast' : Unbroken last) : d.Good (first ++ s ++ last) :=
  d.append (d.append (d.fixed hfirst hfirst') (h.leads opened)) (d.fixed hlast hlast')

theorem braced (h : d.Good s) : d.Good (TemplateCompiler.braced s) := h.between rfl rfl rfl rfl

theorem getD {text : Option String} (hs : d.Good s) (h : ∀ t ∈ text, d.Good t) :
    d.Good (text.getD s) := by
  cases text with
  | none => exact hs
  | some t => exact h t rfl

end Good

end Discipline

/-- The value, argument and modifiers of a directive keep to a discipline. -/
structure Directive.Obeys (d : Discipline) (directive : Directive) : Prop where
  fragments : ∀ text ∈ directive.fragments, d.Good text
  modifiers : ∀ name ∈ directive.modifiers, d.modifier name

theorem Directive.obeys_lax (directive : Directive) : directive.Obeys .lax :=
  ⟨fun _ _ => trivial, fun _ _ => trivial⟩

/-- The pieces of source text that an element stores keep to a discipline. -/
structure Element.Obeys (d : Discipline) (el : Element) : Prop where
  tag : d.tag el.tag
  ifExp : ∀ text ∈ el.ifExp, d.Good text
  conditions : ∀ c ∈ el.conditions, ∀ text ∈ c.exp, d.Good text
  loop : ∀ head ∈ el.loop, ∀ text ∈ head.fragments, d.Good text
  key : ∀ text ∈ el.key, d.Good text
  ref : ∀ text ∈ el.ref, d.Good text
  attrs : ∀ b ∈ el.attrs, ∀ text ∈ b.fragments, d.Good text
  props : ∀ b ∈ el.props, ∀ text ∈ b.fragments, d.Good text
  listeners : ∀ l ∈ el.listeners, ∀ text ∈ l.fragments, d.Good text
  directives : ∀ directive ∈ el.directives, directive.Obeys d
  slotName : ∀ text ∈ el.slotName, d.Good text
  slotTarget : ∀ text ∈ el.slotTarget, d.Good text
  slotScope : ∀ text ∈ el.slotScope, d.Good text
  slotKeys : ∀ slot ∈ el.scopedSlots, d.Good slot.1
  component : ∀ text ∈ el.component, d.Good text
  boundObject : ∀ object ∈ el.boundObject, d.Good object.value
  boundListeners : ∀ text ∈ el.boundListeners, d.Good text
  staticClass : ∀ text ∈ el.staticClass, d.Good text
  classBinding : ∀ text ∈ el.classBinding, d.Good text
  staticStyle : ∀ text ∈ el.staticStyle, d.style text
  styleBinding : ∀ text ∈ el.styleBinding, d.Good text

variable {d : Discipline}

open Discipline

/-! ## Listeners -/

namespace ListenerCode

theorem good_guardOn {condition : String} (h : d.Good condition) : d.Good (guardOn condition) :=
  h.between rfl rfl rfl rfl

theorem good_of_mem_systemKeys (h : key ∈ systemKeys) : d.Good key := by
  have hall : ∀ key ∈ systemKeys, Closed key ∧ Unbroken key := by decide
  exact .fixed (hall key h).1 (hall key h).2

theorem good_systemKey (h : key ∈ systemKeys)
    (hfirst : Closed first) (hfirst' : Unbroken first) : d.Good (first ++ key ++ "Key") :=
  .append (.append (.fixed hfirst hfirst') (good_of_mem_systemKeys h)) (.fixed rfl rfl)

theorem good_systemGuard (h : systemGuard? modifier = some guard) : d.Good guard := by
  have hbutton (button : String) (h : Closed button) (h' : Unbroken button) :
      d.Good (buttonGuard button) :=
    good_guardOn (.append (.fixed rfl rfl) (.fixed h h'))
  unfold systemGuard? at h
  split at h
  · next hkey =>
    cases h
    exact good_guardOn (good_systemKey (contains_iff_mem.mp hkey) rfl rfl)
  split at h
  · cases h
    exact hbutton _ rfl rfl
  split at h
  · cases h
    exact hbutton _ rfl rfl
  split at h
  · cases h
    exact hbutton _ rfl rfl
  · cases h

theorem good_propagationGuard (h : propagationGuard? modifier = some guard) : d.Good guard := by
  unfold propagationGuard? at h
  split at h
  · cases h
    exact .fixed rfl rfl
  split at h
  · cases h
    exact .fixed rfl rfl
  split at h
  · cases h
    exact good_guardOn (.fixed rfl rfl)
  · cases h

theorem good_lookup {table : List (String × String)} {otherwise : String} (key : String)
    (h : ∀ p ∈ table, Closed p.2 ∧ Unbroken p.2) (ho : Closed otherwise ∧ Unbroken otherwise) :
    d.Good ((table.lookup key).getD otherwise) := by
  cases hv : table.lookup key with
  | none => exact .fixed ho.1 ho.2
  | some value =>
    obtain ⟨before, after, rfl, -⟩ := lookup_eq_some_iff.mp hv
    have hval := h (key, value) (by simp)
    exact .fixed hval.1 hval.2

theorem good_keyTest : d.Good (keyTest key) := by
  unfold keyTest
  split
  · next code _ => exact .append (.fixed rfl rfl) (.repr code)
  · have hcode : d.Good ((keyCodes.lookup key).getD "undefined") :=
      good_lookup key (by decide) ⟨rfl, rfl⟩
    have hname : d.Good ((keyNames.lookup key).getD "undefined") :=
      good_lookup key (by decide) ⟨rfl, rfl⟩
    exact d.append (d.append (d.append (d.append (d.append (d.append (d.fixed rfl rfl)
      ((Good.literal key).leads _)) (d.fixed rfl rfl)) (hcode.leads _)) (d.fixed rfl rfl))
      (hname.leads _)) (d.fixed rfl rfl)

theorem good_keyGuard (keys : List String) : d.Good (keyGuard keys) := by
  unfold keyGuard
  split
  · exact .empty
  · refine good_guardOn (.append (.fixed rfl rfl) (.intercalate (.fixed rfl rfl) ?_))
    intro test htest
    obtain ⟨key, -, rfl⟩ := List.mem_map.mp htest
    exact good_keyTest

section

variable (modifiers : List String)

theorem good_exactGuard : d.Good (exactGuard modifiers) := by
  unfold exactGuard
  dsimp only
  split
  · exact .empty
  · refine good_guardOn (.intercalate (.fixed rfl rfl) ?_)
    intro test htest
    obtain ⟨key, hkey, rfl⟩ := List.mem_map.mp htest
    exact good_systemKey (mem_filter.mp hkey).1 rfl rfl

theorem good_systemPart : d.Good (systemPart modifiers modifier) := by
  unfold systemPart
  split
  · exact .empty
  split
  · exact good_exactGuard modifiers
  · exact .getD .empty fun _ h => good_systemGuard h

theorem good_guards : d.Good (guards modifiers) := by
  refine .append (.append (good_keyGuard _) (.join ?_)) (.join ?_)
  · intro part hpart
    obtain ⟨modifier, -, rfl⟩ := List.mem_map.mp hpart
    exact good_systemPart modifiers
  · intro part hpart
    obtain ⟨modifier, -, rfl⟩ := List.mem_map.mp hpart
    exact .getD .empty fun _ h => good_propagationGuard h

end

theorem good_eventFunction {body : String} (h : d.Good body) : d.Good (eventFunction body) :=
  .append (.fixed rfl rfl) h.braced

theorem good_handlerCode {handler : Handler} (h : d.Good handler.value) :
    d.Good (handlerCode handler) := by
  unfold handlerCode
  dsimp only
  split
  · split
    · exact h
    · exact good_eventFunction h
  · refine good_eventFunction (.append (good_guards _) ?_)
    split
    · exact .append (.append (.fixed rfl rfl) h) (.fixed rfl rfl)
    split
    · exact h.between rfl rfl rfl rfl
    · exact h

theorem good_keyCode {key : ListenerKey} (h : key.dynamic → d.Good key.name) :
    d.Good (keyCode key) := by
  unfold keyCode
  split
  · next hdyn =>
    have hphase : d.Good (if keyPhase key = "" then "" else "," ++ literal (keyPhase key)) := by
      split
      · exact .empty
      · exact .append (.fixed rfl rfl) (.literal _)
    exact d.append (d.append (d.append (d.fixed rfl rfl) ((h hdyn).leads _)) (hphase.leads _))
      (d.fixed rfl rfl)
  · exact .literal _

theorem good_handlersCode {handlers : List Handler} (h : ∀ x ∈ handlers, d.Good x.value) :
    d.Good (handlersCode handlers) := by
  unfold handlersCode
  split
  · exact .fixed rfl rfl
  · exact good_handlerCode (h _ mem_cons_self)
  · refine Good.between (.intercalate (.fixed rfl rfl) fun code hcode => ?_) rfl rfl rfl rfl
    obtain ⟨handler, hmem, rfl⟩ := List.mem_map.mp hcode
    exact good_handlerCode (h handler hmem)

theorem good_entries {listeners : List Listener}
    (h : ∀ l ∈ listeners, ∀ text ∈ l.fragments, d.Good text) : d.Good (entries listeners) := by
  refine .join fun code hcode => ?_
  obtain ⟨listener, hmem, rfl⟩ := List.mem_map.mp hcode
  have hfragments := h listener hmem
  have hkey : d.Good (keyCode listener.key) :=
    good_keyCode fun hdyn => hfragments _ (by simp [Listener.fragments, hdyn])
  have hhandlers : d.Good (handlersCode listener.handlers) :=
    good_handlersCode fun handler hhandler => hfragments _ (by
      exact mem_append_right _ (List.mem_map_of_mem hhandler))
  exact .append (.append (.append hkey (.fixed rfl rfl)) hhandlers) (.fixed rfl rfl)

end ListenerCode

/-! ## Data objects -/

namespace DataObject

theorem good_bindingEntries {bindings : List Binding}
    (h : ∀ b ∈ bindings, ∀ text ∈ b.fragments, d.Good text) : d.Good (bindingEntries bindings) := by
  refine .intercalate (.fixed rfl rfl) fun entry hentry => ?_
  obtain ⟨b, hb, rfl⟩ := List.mem_map.mp hentry
  have hkey : d.Good (bindingKey b) := by
    unfold bindingKey
    split
    · next hdyn =>
      have hname : d.Good b.name := h b hb _ (by simp [Binding.fragments, hdyn])
      exact hname.between rfl rfl rfl rfl
    · exact .literal _
  have hval : d.Good b.value := h b hb _ mem_cons_self
  exact .append (.append hkey (.fixed rfl rfl)) (d.escaped hval)

theorem good_directiveCode {directive : Directive} (h : directive.Obeys d) :
    d.Good (directiveCode directive) := by
  have hval : d.Good (directiveValue directive.value) := by
    cases hv : directive.value with
    | none => exact .empty
    | some text =>
      have htext : d.Good text := h.fragments text (by simp [Directive.fragments, hv])
      exact .append (htext.between rfl rfl rfl rfl) (.literal text)
  have harg : d.Good (directiveArgument directive.argument) := by
    unfold directiveArgument
    split
    · exact .append (.fixed rfl rfl) (.literal _)
    · next code hcode =>
      exact .append (.fixed rfl rfl)
        (h.fragments code (by simp [Directive.fragments, hcode, Argument.fragments]))
    · exact .empty
  exact .braced (.append (.append (.append (.append (.append (.append (.fixed rfl rfl) (.literal _))
    (.fixed rfl rfl)) (.literal _)) hval) harg) (d.modifiers h.modifiers))

end DataObject

namespace Element.Obeys

variable {el : Element}

theorem directivesEntry (h : el.Obeys d) : d.Good (directivesEntry el) := by
  unfold DataObject.directivesEntry
  dsimp only
  split
  · exact .empty
  · refine Good.between (.intercalate (.fixed rfl rfl) fun code hcode => ?_) rfl rfl rfl rfl
    obtain ⟨directive, hmem, rfl⟩ := List.mem_map.mp hcode
    exact good_directiveCode (h.directives directive (mem_filter.mp hmem).1)

theorem refEntry (h : el.Obeys d) : d.Good (refEntry el) := by
  unfold DataObject.refEntry
  split
  · next ref href =>
    refine .append (.append (.append (.fixed rfl rfl) (h.ref ref href)) (.fixed rfl rfl)) ?_
    split <;> exact .fixed rfl rfl
  · exact .empty

theorem leadingEntries (h : el.Obeys d) : d.Good (leadingEntries el) := by
  have hkey : d.Good (el.key.elim "" fun key => "key:" ++ key ++ ",") := by
    cases hk : el.key with
    | none => exact .empty
    | some key => exact .append (.append (.fixed rfl rfl) (h.key key hk)) (.fixed rfl rfl)
  refine .append (.append (.append (.append (.append h.directivesEntry hkey) h.refEntry) ?_) ?_) ?_
  · split <;> exact .fixed rfl rfl
  · split
    · exact .empty
    · exact .append (.append (.fixed rfl rfl) (good_bindingEntries h.attrs).braced) (.fixed rfl rfl)
  · split
    · exact .empty
    · exact .append (good_bindingEntries h.props) (.fixed rfl rfl)

theorem trailingEntries (h : el.Obeys d) : d.Good (trailingEntries el) := by
  refine .append ?_ ?_
  · split
    · exact .empty
    · exact ListenerCode.good_entries h.listeners
  · split
    · next target htgt =>
      split
      · exact .append (.append (.fixed rfl rfl) (h.slotTarget target htgt)) (.fixed rfl rfl)
      · exact .empty
    · exact .empty

/-! ## Classes and styles -/

theorem classData (h : el.Obeys d) : d.Good (Web.classData el) := by
  unfold Web.classData
  have hkey : d.Good (if el.tag.toList.contains '-' then "class" else "className") := by
    split <;> exact .fixed rfl rfl
  dsimp only
  split
  · next plain bound hp hb =>
    exact d.append (d.append (d.append (d.append (d.append hkey (d.fixed rfl rfl))
      ((h.classBinding bound hb).leads _)) (d.fixed rfl rfl)) ((h.staticClass plain hp).leads _))
      (d.fixed rfl rfl)
  · next bound _ hb =>
    exact d.append (d.append (d.append hkey (d.fixed rfl rfl))
      ((h.classBinding bound hb).leads _)) (d.fixed rfl rfl)
  · next plain hp _ =>
    exact .append (.append (.append hkey (.fixed rfl rfl)) (h.staticClass plain hp))
      (.fixed rfl rfl)
  · exact .empty

theorem styleData (h : el.Obeys d) : d.Good (Web.styleData el) := by
  unfold Web.styleData
  split
  · next plain bound hp hb =>
    exact d.mergedStyle (h.staticStyle plain hp) (h.styleBinding bound hb)
  · next bound _ hb => exact (h.styleBinding bound hb).between rfl rfl rfl rfl
  · next plain hp _ => exact Good.between (d.plainStyle (h.staticStyle plain hp)) rfl rfl rfl rfl
  · exact .empty

theorem ownEntries (h : el.Obeys d) {modules : List Module}
    (hmods : ∀ m ∈ modules, m ∈ Web.modules) :
    ∃ own, DataObject.ownEntries modules el = .ok own ∧ d.Good own := by
  obtain ⟨entries, hgood, hents⟩ := Gen.moduleEntries_web hmods el .empty
    (fun _ _ => Good.append) h.classData h.styleData
  refine ⟨DataObject.leadingEntries el ++ entries ++ DataObject.trailingEntries el, ?_,
    (h.leadingEntries.append hgood).append h.trailingEntries⟩
  unfold DataObject.ownEntries
  rw [hents el rfl rfl]
  rfl

end Element.Obeys

end TemplateCompiler
