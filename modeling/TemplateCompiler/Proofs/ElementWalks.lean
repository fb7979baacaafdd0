import Mathlib.Data.List.Forall2
import TemplateCompiler.Proofs.Separators
import TemplateCompiler.Template.Attributes

/-!
# Elements that are processed side by side

Processing an element runs through a dozen steps, and extensions run in between. All that any of
them does is to take attributes by a few names, and to make one of the changes listed in
`Element.Edit`. Here two elements go through these steps together. If a relation between them is
kept by taking the same attributes and by the same edits, then it is kept by processing, and equally
many problems are reported on both sides (`Walk.process`).

The edits store pieces of code, and what is known of these is up to the relation: if the code in the
attributes of the first element is `good`, then so is the code that is put together from it.
-/

namespace TemplateCompiler

open Text List ModelPath

variable {dir : Directive} {name : String} {handler : DirectiveHandler} {s : Settings}
  {number trim : Bool} {span : Span}

namespace Element

/-! ## Attributes and edits -/

/-- The attributes whose value processing takes, bound or plain. -/
def valueNames : List String :=
  ["key", "ref", "name", "slot", "is", "class", "style", "value", "true-value", "false-value"]

def flagNames : List String := ["scope", "slot-scope", "inline-template"]

/-- Whether the value of an attribute is code: of directives and bindings, and of the names that an
element receives its scope under. -/
def isCode (s : Settings) (tag name : String) : Bool :=
  isDirectiveName s name.toList || (tag ≠ "slot" && name = "slot-scope") ||
    (tag = "template" && name = "scope")

/-- One change to an element, other than taking an attribute. -/
inductive Edit (above : List Element) (good : String → Prop) (el : Element) :
    (Element → Element) → Prop
  | key {code : String} (h : good code) : Edit above good el fun el => { el with key := some code }
  | ref {code : String} (h : good code) : Edit above good el fun el =>
      { el with ref := some code, refInLoop := el.loop.isSome || above.any (·.loop.isSome) }
  | slotName {slotName : Option String} (h : ∀ code ∈ slotName, good code) :
    Edit above good el fun el => { el with slotName }
  | slotScope {slotScope : Option String} (h : ∀ code ∈ slotScope, good code) :
    Edit above good el fun el => { el with slotScope }
  | target {code : String} (h : good code) :
    Edit above good el fun el => { el with slotTarget := some code }
  | targetAttr {code : String} (h : good code) :
    Edit above good el fun el => { el.addAttr "slot" code with slotTarget := some code }
  | component {code : String} (h : good code) :
    Edit above good el fun el => { el with component := some code }
  | inline : Edit above good el fun el => { el with inlineTemplate := true }
  | staticClass (text : String) :
    Edit above good el fun el => { el with staticClass := some (literal text) }
  | classBinding {code : String} (h : good code) :
    Edit above good el fun el => { el with classBinding := some code }
  | staticStyle {text : String} (h : el.attr? "style" = some text) : Edit above good el fun el =>
      { el with staticStyle := some (Web.styleObject (Web.parseStyle text)) }
  | styleBinding {code : String} (h : good code) :
    Edit above good el fun el => { el with styleBinding := some code }
  | bound : Edit above good el fun el => { el with hasBindings := true }
  /-- An attribute that is no directive. -/
  | plainAttr {attr : Attr} (h : attr ∈ el.pending) :
    Edit above good el (·.addAttr attr.name (literal attr.value))
  | attr {name value : String} {dynamic : Bool} (hbound : el.hasBindings) (h : good value)
      (hname : dynamic → good name) : Edit above good el (·.addAttr name value dynamic)
  | prop {name value : String} {dynamic : Bool} (h : good value)
      (hname : dynamic → good name) : Edit above good el (·.addProp name value dynamic)
  | handler {name value : String} {modifiers : Option (List String)} {important dynamic : Bool}
      (h : good value) (hname : dynamic → good name) :
    Edit above good el (·.addHandler name value modifiers important dynamic)
  | directive {d : Directive} (h : ∀ text ∈ d.fragments ++ d.modifiers, good text) :
    Edit above good el (·.addDirective d)
  | directives {directives : List Directive}
      (h : ∀ d ∈ directives, ∀ text ∈ d.fragments ++ d.modifiers, good text) :
    Edit above good el fun el => { el with directives }
  | boundListeners {boundListeners : Option String} (h : ∀ code ∈ boundListeners, good code) :
    Edit above good el fun el => { el with boundListeners }
  | boundObject {boundObject : Option BoundObject} (h : ∀ object ∈ boundObject, good object.value) :
    Edit above good el fun el => { el with boundObject }
  | processed : Edit above good el fun el => { el with processed := true }

/-- What processing looks at in an element, apart from its attributes. -/
structure SameView (el el' : Element) : Prop where
  tag : el'.tag = el.tag
  key : el'.key = el.key
  component : el'.component = el.component
  slotScope : el'.slotScope = el.slotScope
  loop : el'.loop = el.loop

def Takes (good : String → Prop) (R : Element → Element → Prop)
    (taken taken' : Option String × Element) : Prop :=
  ∃ value el el', taken = (value, el) ∧ taken' = (value, el') ∧ (∀ text ∈ value, good text) ∧
    R el el'

/-- A relation between elements that every edit keeps. Directives may be written in two ways, as far
as `same` allows. -/
structure EditWalk (s : Settings) (above above' : List Element) (good : String → Prop)
    (same : Directive → Directive → Prop) (R : Element → Element → Prop) : Prop where
  code : StableCode good
  loops : above'.map (·.loop) = above.map (·.loop)
  view {el el' : Element} : R el el' → SameView el el'
  type {el el' : Element} : R el el' → el'.attr? "type" = el.attr? "type"
  edit {el el' : Element} {f : Element → Element} :
    R el el' → Edit above good el f → R (f el) (f el')
  add {el el' : Element} {d d' : Directive} : R el el' → same d d' →
    R (el.addDirective d) (el'.addDirective d')

/-- A relation between elements that taking an attribute keeps as well. -/
structure Walk (s : Settings) (above above' : List Element) (good : String → Prop)
    (same : Directive → Directive → Prop) (R : Element → Element → Prop) : Prop
    extends EditWalk s above above' good same R where
  looped {el el' : Element} : R el el' →
    el'.hasAttr (s.directive "for") = el.hasAttr (s.directive "for")
  bound {el el' : Element} : R el el' → ∀ name,
    (el'.hasAttr (":" ++ name) || el'.hasAttr (s.directive ("bind:" ++ name))) =
      (el.hasAttr (":" ++ name) || el.hasAttr (s.directive ("bind:" ++ name)))
  take {el el' : Element} (name : String) : R el el' → name ∈ flagNames ++ valueNames →
    Takes (fun text => isCode s el.tag name → good text) R (el.take name) (el'.take name)
  takeBound {el el' : Element} (name : String) : R el el' → name ∈ valueNames →
    Takes good R (el.takeBound name s.directivePrefix) (el'.takeBound name s.directivePrefix)
  placed {d d' : Directive} : same d d' → ∃ span, d' = { d with span }
  written {d d' : Directive} : same d d' → ∀ text ∈ d.fragments ++ d.modifiers, good text
  runtime {d d' : Directive} (needsRuntime : Bool) : same d d' →
    same { d with needsRuntime } { d' with needsRuntime }
  stored {el el' : Element} : R el el' → Forall₂ same el.directives el'.directives
  restore {el el' : Element} {ds ds' : List Directive} : R el el' → Forall₂ same ds ds' →
    R { el with directives := ds } { el' with directives := ds' }

variable {s : Settings} {above above' : List Element} {good : String → Prop}
  {same : Directive → Directive → Prop} {R : Element → Element → Prop} {el el' : Element}
  {name value : String}

/-! ## Taking attributes -/

theorem fst_take (el : Element) (name : String) : (el.take name).1 = el.attr? name := by
  unfold take
  split <;> simp_all

theorem mem_pending_take {attr : Attr} (h : attr ∈ el.pending) (hname : attr.name ≠ name) :
    attr ∈ (el.take name).2.pending := by
  unfold take
  split
  · exact (mem_eraseP_of_neg (by simpa using hname)).mpr h
  · exact h

/-- Attributes of some names have been taken out of a list. -/
structure Without (names : List String) (before after : List Attr) : Prop where
  sublist : after.Sublist before
  kept : ∀ attr ∈ before, attr.name ∉ names → attr ∈ after

theorem Without.trans {names names' : List String} {before between after : List Attr}
    (h : Without names before between) (h' : Without names' between after) :
    Without (names ++ names') before after := by
  refine ⟨h'.sublist.trans h.sublist, fun attr hattr hname => ?_⟩
  rw [mem_append, not_or] at hname
  exact h'.kept attr (h.kept attr hattr hname.1) hname.2

theorem take_cases (el : Element) (name : String) :
    ∃ pending, Without [name] el.pending pending ∧ (el.take name).2 = { el with pending } := by
  have hkept (attr : Attr) (h : attr ∈ el.pending) (hne : attr.name ∉ [name]) :
      attr ∈ (el.take name).2.pending := mem_pending_take h (by simpa using hne)
  unfold take at hkept ⊢
  split
  · next heq =>
    rw [heq] at hkept
    exact ⟨_, ⟨eraseP_sublist, hkept⟩, rfl⟩
  · exact ⟨_, ⟨List.Sublist.refl _, fun _ h _ => h⟩, rfl⟩

namespace Walk

section

variable (h : Walk s above above' good same R) (hel : R el el')

include h hel

/-- The value of an attribute is stored as code if it is bound, and as a literal if it is plain. -/
theorem takeValue (name : String) (hname : name ∈ valueNames) :
    Takes good R (el.takeValue name s.directivePrefix) (el'.takeValue name s.directivePrefix) := by
  obtain ⟨code, el₁, el₁', htaken, htaken', hgood, h₁⟩ := h.takeBound name hel hname
  unfold Element.takeValue
  rw [htaken, htaken']
  cases code with
  | some code => exact ⟨_, _, _, rfl, rfl, hgood, h₁⟩
  | none =>
    obtain ⟨text, el₂, el₂', htaken, htaken', -, h₂⟩ := h.take name h₁ (mem_append_right _ hname)
    dsimp only
    rw [htaken, htaken']
    refine ⟨_, _, _, rfl, rfl, fun code hcode => ?_, h₂⟩
    obtain ⟨value, -, rfl⟩ := Option.map_eq_some_iff.mp hcode
    exact h.code.fixed (.literal value)

/-! ## Key, reference, slot and component -/

theorem takeKey : (el.takeKey s).Agree R (el'.takeKey s) := by
  obtain ⟨key, el₁, el₁', htaken, htaken', hgood, h₁⟩ := h.takeValue hel "key" (by decide)
  unfold Element.takeKey
  rw [htaken, htaken']
  cases key with
  | none => exact .pure h₁
  | some key =>
    have hset := h.edit h₁ (.key (hgood key rfl))
    refine rel_ite (by rw [(h.view h₁).tag]) ?_ (.pure hset)
    exact .bind (.error _ _ _ _) fun _ _ _ => .pure hset

theorem takeRef : R (el.takeRef s above) (el'.takeRef s above') := by
  obtain ⟨ref, el₁, el₁', htaken, htaken', hgood, h₁⟩ := h.takeValue hel "ref" (by decide)
  unfold Element.takeRef
  rw [htaken, htaken']
  cases ref with
  | none => exact h₁
  | some ref =>
    have hany : above'.any (·.loop.isSome) = above.any (·.loop.isSome) := by
      have := congrArg (List.any · Option.isSome) h.loops
      simpa only [List.any_map, Function.comp_def] using this
    rw [hany]
    exact h.edit h₁ (.ref (hgood ref rfl))

theorem takeOutlet : (el.takeOutlet s).Agree R (el'.takeOutlet s) := by
  obtain ⟨name, el₁, el₁', htaken, htaken', hgood, h₁⟩ := h.takeValue hel "name" (by decide)
  have hset := h.edit h₁ (.slotName hgood)
  unfold Element.takeOutlet
  rw [htaken, htaken']
  refine rel_ite (by rw [(h.view h₁).key]) ?_ (.pure hset)
  exact .bind (.error _ _ _ _) fun _ _ _ => .pure hset

theorem takeScope (hslot : el.tag ≠ "slot") : (el.takeScope s).Agree R (el'.takeScope s) := by
  have hscope {el el' : Element} (hel : R el el') (hslot : el.tag ≠ "slot") :
      ∃ scope el₁ el₁', el.take "slot-scope" = (scope, el₁) ∧
        el'.take "slot-scope" = (scope, el₁') ∧
        R el₁ el₁' ∧ R { el₁ with slotScope := scope } { el₁' with slotScope := scope } := by
    have hcode : isCode s el.tag "slot-scope" := by simp [isCode, hslot]
    obtain ⟨scope, el₁, el₁', htaken, htaken', hgood, h₁⟩ := h.take "slot-scope" hel (by decide)
    exact ⟨scope, el₁, el₁', htaken, htaken', h₁,
      h.edit h₁ (.slotScope fun text htext => hgood text htext hcode)⟩
  unfold Element.takeScope
  rw [(h.view hel).tag]
  split
  · next htag =>
    have hcode : isCode s el.tag "scope" := by simp [isCode, htag]
    obtain ⟨scope, el₁, el₁', htaken, htaken', hgood, h₁⟩ := h.take "scope" hel (by decide)
    rw [htaken, htaken']
    cases scope with
    | some scope =>
      have hset := h.edit h₁ (.slotScope fun text htext => hgood text htext hcode)
      exact .bind (.tip _ _ _ _) fun _ _ _ => .pure hset
    | none =>
      obtain ⟨pending, -, htake⟩ := el.take_cases "scope"
      rw [htaken] at htake
      have hslot : el₁.tag ≠ "slot" := by
        rw [show el₁ = { el with pending } from htake]
        exact hslot
      obtain ⟨scope, el₂, el₂', htaken, htaken', -, hset⟩ := hscope h₁ hslot
      dsimp only
      rw [htaken, htaken']
      exact .pure hset
  · obtain ⟨scope, el₁, el₁', htaken, htaken', h₁, hset⟩ := hscope hel hslot
    rw [htaken, htaken']
    refine rel_ite (by rw [h.looped h₁]) ?_ (.pure hset)
    exact .bind (.tip _ _ _ _) fun _ _ _ => .pure hset

theorem takeTarget : R (el.takeTarget s) (el'.takeTarget s) := by
  obtain ⟨target, el₁, el₁', htaken, htaken', hgood, h₁⟩ := h.takeValue hel "slot" (by decide)
  unfold Element.takeTarget
  rw [htaken, htaken']
  cases target with
  | none => exact h₁
  | some target =>
    have htgt : good (if target = "\"\"" then "\"default\"" else target) := by
      split
      · exact h.code.fixed rfl
      · exact hgood target rfl
    dsimp only
    rw [(h.view h₁).tag, (h.view h₁).slotScope]
    split
    · exact h.edit h₁ (.targetAttr htgt)
    · exact h.edit h₁ (.target htgt)

theorem takeSlot : (el.takeSlot s).Agree R (el'.takeSlot s) := by
  unfold Element.takeSlot
  rw [(h.view hel).tag]
  split
  · exact h.takeOutlet hel
  · next htag => exact .bind (h.takeScope hel htag) fun _ _ h₁ => .pure (h.takeTarget h₁)

theorem takeComponent : R (el.takeComponent s) (el'.takeComponent s) := by
  obtain ⟨component, el₁, el₁', htaken, htaken', hgood, h₁⟩ := h.takeValue hel "is" (by decide)
  unfold Element.takeComponent takeFlag
  rw [htaken, htaken']
  cases component with
  | none =>
    obtain ⟨flag, el₂, el₂', hflag, hflag', -, h₂⟩ := h.take "inline-template" h₁ (by decide)
    dsimp only
    rw [hflag, hflag']
    exact rel_ite Iff.rfl (h.edit h₂ .inline) h₂
  | some code =>
    obtain ⟨flag, el₂, el₂', hflag, hflag', -, h₂⟩ :=
      h.take "inline-template" (h.edit h₁ (.component (hgood code rfl))) (by decide)
    dsimp only at hflag hflag' ⊢
    rw [hflag, hflag']
    exact rel_ite Iff.rfl (h.edit h₂ .inline) h₂

end

end Walk

/-! ## Bindings, listeners and directives -/

theorem computedArgument?_subset {name code : List Char}
    (h : computedArgument? name = some code) : code ⊆ name := by
  unfold computedArgument? at h
  split at h
  · cases h
    exact fun c hc => mem_of_mem_tail (dropLast_subset _ hc)
  · cases h

theorem listenerModifiers_agree (attr attr' : Attr) (modifiers : Option (List String)) :
    (listenerModifiers attr modifiers).Agree Eq (listenerModifiers attr' modifiers) := by
  have hdrop (ignored : String) (modifiers : List String) :
      (dropModifier attr ignored modifiers).Agree Eq (dropModifier attr' ignored modifiers) :=
    rel_ite Iff.rfl (.bind (.tip _ _ _ _) fun _ _ _ => .pure rfl) (.pure rfl)
  cases modifiers with
  | none => exact .pure rfl
  | some modifiers =>
    refine .bind (hdrop "native" modifiers) fun kept kept' hkept => ?_
    subst hkept
    refine .bind (hdrop "passive" kept) fun kept kept' hkept => ?_
    subst hkept
    exact .pure rfl

namespace EditWalk

variable {attr attr' : Attr} {chars : List Char}

section

variable (h : EditWalk s above above' good same R) (hel : R el el')

include h hel

theorem addFixedProp (name : String) (hvalue : good value) :
    R (el.addProp name value) (el'.addProp name value) := by
  have hedit : Edit above good el (·.addProp name value) := .prop hvalue nofun
  exact h.edit hel hedit

theorem addFixedHandler (name : String) (modifiers : Option (List String)) (hvalue : good value)
    (important : Bool) : R (el.addHandler name value modifiers important)
      (el'.addHandler name value modifiers important) := by
  have hedit : Edit above good el (·.addHandler name value modifiers important) :=
    .handler hvalue nofun
  exact h.edit hel hedit

theorem addSync (hvalue : good value) {dynamic : Bool} (hname : dynamic → good name) :
    R (el.addSync name value dynamic) (el'.addSync name value dynamic) := by
  have hsync : good (assignment value "$event") :=
    h.code.assignment hvalue (h.code.fixed rfl)
  unfold Element.addSync
  split
  · next hdyn =>
    refine h.edit hel (.handler hsync fun _ => ?_)
    exact h.code.append (h.code.append (h.code.fixed rfl) (hname hdyn)) (h.code.fixed rfl)
  · exact h.addFixedHandler hel _ none hsync false

theorem addBinding (hbound : el.hasBindings) (hsame : attr'.value = attr.value)
    (hvalue : good attr.value) (hchars : ∀ part, part ⊆ chars → good (String.ofList part))
    (modifiers : List String) :
    (el.addBinding s attr chars modifiers).Agree R (el'.addBinding s attr' chars modifiers) := by
  have hparsed := h.code.parse hvalue
  have hsync {name : String} {dynamic : Bool} (hname : dynamic → good name) :=
    rel_ite (c := modifiers.contains "sync") Iff.rfl (h.addSync hel hparsed hname) hel
  have hstays (name : String) (dynamic : Bool) : (if modifiers.contains "sync" then
      el.addSync name (FilterChain.parse attr.value) dynamic else el).hasBindings := by
    unfold Element.addSync
    split
    · split <;> exact hbound
    · exact hbound
  unfold Element.addBinding
  rw [hsame]
  refine rel_ite Iff.rfl (.bind (.error _ _ _ _) fun _ _ _ => .pure hel) (.pure ?_)
  cases harg : computedArgument? chars with
  | none =>
    have hfixed : false → good (boundName modifiers (String.ofList chars)) := nofun
    have hset := hsync hfixed
    refine rel_ite ?_ (h.edit hset (.prop hparsed hfixed))
      (h.edit hset (.attr (hstays _ _) hparsed hfixed))
    dsimp only [Option.isSome_none]
    rw [(h.view hset).component, (h.view hset).tag, h.type hset]
  | some code =>
    have hcode : true → good (String.ofList code) := fun _ =>
      hchars code (computedArgument?_subset harg)
    have hset := hsync hcode
    refine rel_ite ?_ (h.edit hset (.prop hparsed hcode))
      (h.edit hset (.attr (hstays _ _) hparsed hcode))
    dsimp only [Option.isSome_some]
    rw [(h.view hset).component, (h.view hset).tag, h.type hset]

theorem addListener (hsame : attr'.value = attr.value) (hvalue : good attr.value)
    (hchars : ∀ part, part ⊆ chars → good (String.ofList part)) (modifiers : Option (List String)) :
    (el.addListener attr chars modifiers).Agree R (el'.addListener attr' chars modifiers) := by
  refine .bind (listenerModifiers_agree attr attr' modifiers) fun kept kept' hkept => ?_
  subst hkept
  rw [hsame]
  cases harg : computedArgument? chars with
  | none => exact .pure (h.addFixedHandler hel _ kept hvalue false)
  | some code =>
    have hcode : good (String.ofList code) := hchars code (computedArgument?_subset harg)
    exact .pure (h.edit hel (.handler hvalue fun _ => hcode))

theorem addWrittenDirective (hvalue : attr'.value = attr.value) {d d' : Directive} (hd : same d d')
    (hname : d'.name = d.name) : (el.addWrittenDirective s above attr d).Agree R
      (el'.addWrittenDirective s above' attr' d') := by
  have hadd : Noted.Agree R (pure (el.addDirective d)) (pure (el'.addDirective d')) :=
    .pure (h.add hel hd)
  have hloop : isLoopName above' el' attr'.value = isLoopName above el attr.value := by
    have hmap : (el' :: above').map (·.loop) = (el :: above).map (·.loop) := by
      rw [map_cons, map_cons, h.loops, (h.view hel).loop]
    have := congrArg (List.any · (Option.any (·.binder = attr.value))) hmap
    rw [isLoopName, isLoopName, hvalue]
    simpa only [List.any_map, Function.comp_def] using this
  refine rel_ite (by rw [hname])
    (rel_ite (by rw [hvalue]) ?_ (rel_ite (by rw [hloop]) ?_ hadd)) hadd
  · exact .bind (.error _ _ _ _) fun _ _ _ => .pure hel
  · exact .bind (.error _ _ _ _) fun _ _ _ => hadd

omit hel in
theorem addPlain (span : Span) (hadd : R (el.addAttr attr.name (literal attr.value))
      (el'.addAttr attr.name (literal attr.value))) :
    (el.addPlain s attr).Agree R (el'.addPlain s { attr with span }) := by
  have htrue : good "true" := h.code.fixed rfl
  have hmuted := h.addFixedProp hadd "muted" htrue
  refine rel_ite Iff.rfl (.bind (.tip _ _ _ _) fun _ _ _ => .pure (rel_ite ?_ hmuted hadd))
    (.pure (rel_ite ?_ hmuted hadd))
  all_goals rw [(h.view hadd).component, (h.view hadd).tag, h.type hadd]

end

end EditWalk

end Element

/-- A configuration that has no extensions but those of the web. -/
structure Options.UsesWeb (o : Options) : Prop where
  modules : ∀ m ∈ o.modules, m ∈ Web.modules
  directives : ∀ name handler, o.directives.get? name = some handler →
    ∃ known, Web.directives.get? known = some handler

/-! ## The extensions of the web -/

namespace Web

open Element

variable {s : Settings} {above above' : List Element} {good : String → Prop}
  {same : Directive → Directive → Prop} {R : Element → Element → Prop} {el el' : Element}
  {value : String}

theorem usesWeb_options : options.UsesWeb where
  modules _ h := h
  directives name _ h := ⟨name, h⟩

/-! ### Modules -/

theorem value_takePlain : (takePlain s name el).value = el.take name := by
  unfold takePlain
  dsimp only
  split
  · split <;> rfl
  · rfl

section

variable (h : Walk s above above' good same R) (hel : R el el')

include h hel

/-- A plain attribute is taken and what is made of its value is kept, then the bound one. -/
theorem takeBoth_walks (hname : name ∈ valueNames)
    {keep : Option String → Element → Element} {store : Element → Element}
    (hkeep : ∀ {el₁ el₁' : Element}, R el₁ el₁' → el₁.attr? name = el.attr? name →
      R (keep (el.attr? name) el₁) (keep (el.attr? name) el₁'))
    (hstore : ∀ {el el' : Element}, R el el' → R (store el) (store el')) :
    (do let plain ← takePlain s name el
        return store (keep plain.1 plain.2) : Noted Element).Agree R
      (do let plain ← takePlain s name el'
          return store (keep plain.1 plain.2)) := by
  obtain ⟨text, el₁, el₁', htaken, htaken', -, h₁⟩ := h.take name hel (mem_append_right _ hname)
  have hfst := el.fst_take name
  obtain ⟨pending, -, hrest⟩ := el.take_cases name
  rw [htaken] at hfst hrest
  obtain rfl : text = el.attr? name := hfst
  have hkept : R (keep (el.attr? name) el₁) (keep (el.attr? name) el₁') :=
    hkeep h₁ (by rw [show el₁ = { el with pending } from hrest]; rfl)
  have hplain : (takePlain s name el).Agree (fun p p' => p = (el.attr? name, el₁) ∧
      p' = (el.attr? name, el₁')) (takePlain s name el') := by
    unfold takePlain
    rw [htaken, htaken']
    cases el.attr? name with
    | none => exact .pure ⟨rfl, rfl⟩
    | some text =>
      refine rel_ite Iff.rfl ?_ (.pure ⟨rfl, rfl⟩)
      exact .bind (.tip _ _ _ _) fun _ _ _ => .pure ⟨rfl, rfl⟩
  refine .bind hplain ?_
  rintro _ _ ⟨rfl, rfl⟩
  exact .pure (hstore hkept)

theorem takeClass_walks : (takeClass s el).Agree R (takeClass s el') := by
  refine takeBoth_walks h hel (by decide) (fun h₁ _ => ?_) fun h₁ => ?_
  · unfold keepClass
    split
    · exact rel_ite Iff.rfl h₁ (h.edit h₁ (.staticClass _))
    · exact h₁
  · obtain ⟨code, el₂, el₂', htaken, htaken', hgood, h₂⟩ := h.takeBound "class" h₁ (by decide)
    unfold takeBoundClass
    rw [htaken, htaken']
    cases code with
    | none => exact h₂
    | some code => exact h.edit h₂ (.classBinding (hgood code rfl))

theorem takeStyle_walks : (takeStyle s el).Agree R (takeStyle s el') := by
  refine takeBoth_walks h hel (by decide) (fun h₁ hattr => ?_) fun h₁ => ?_
  · rw [← hattr]
    cases hplain : Element.attr? _ "style" with
    | none => exact h₁
    | some text => exact rel_ite Iff.rfl h₁ (h.edit h₁ (.staticStyle hplain))
  · obtain ⟨code, el₂, el₂', htaken, htaken', hgood, h₂⟩ := h.takeBound "style" h₁ (by decide)
    unfold takeBoundStyle
    rw [htaken, htaken']
    cases code with
    | none => exact h₂
    | some code => exact h.edit h₂ (.styleBinding (hgood code rfl))

theorem transform_walks {m : Module} (hm : m ∈ modules) :
    (m.transform s el).Agree R (m.transform s el') := by
  simp only [modules, mem_cons, not_mem_nil, or_false] at hm
  rcases hm with rfl | rfl | rfl
  · exact .lift (takeClass_walks h hel)
  · exact .lift (takeStyle_walks h hel)
  · exact .pure hel

end

/-! ### Directive handlers -/

theorem good_asNumber (hgood : StableCode good) (number : Bool) {code : String}
    (hcode : good code) : good (asNumber number code) := by
  unfold asNumber
  split
  · exact hgood.append (hgood.append (hgood.fixed rfl) hcode) (hgood.fixed rfl)
  · exact hcode

theorem good_getD (hgood : StableCode good) {code : Option String} (default : String)
    (hdefault : Unbroken default) (h : ∀ text ∈ code, good text) : good (code.getD default) := by
  cases code with
  | none => exact hgood.fixed hdefault
  | some text => exact h text rfl

section

variable (h : Walk s above above' good same R) (hel : R el el')

include h hel

theorem bindComponent_walks (hvalue : good value) :
    R (bindComponent el value trim number) (bindComponent el' value trim number) := by
  have hreceived : Unbroken
      (if trim then "(typeof $$v === 'string'? $$v.trim(): $$v)" else "$$v") := by
    split <;> decide
  have hassigned := h.code.assignment hvalue (good_asNumber h.code number (h.code.fixed hreceived))
  have hread : good ("(" ++ value ++ ")") := h.code.wrap (by decide) hvalue (by decide)
  refine h.addFixedHandler (h.addFixedProp hel "value" hread) "change" none ?_ true
  exact h.code.append (h.code.fixed (by decide)) (h.code.braced hassigned)

theorem bindSelect_walks (hvalue : good value) :
    R (bindSelect el value number) (bindSelect el' value number) := by
  have hassigned : good (assignment value
      "$event.target.multiple ? $$selectedVal : $$selectedVal[0]") :=
    h.code.assignment hvalue (h.code.fixed (by decide))
  have hval : good (asNumber number "val") := good_asNumber h.code number (h.code.fixed rfl)
  refine h.addFixedHandler hel "change" none ?_ true
  refine h.code.append (h.code.wrap (by decide) ?_ (by decide)) hassigned
  exact h.code.wrap (by decide) (h.code.braced (h.code.append (h.code.fixed (by decide)) hval))
    (by decide)

theorem bindRadio_walks (hvalue : good value) :
    R (bindRadio s el value number) (bindRadio s el' value number) := by
  obtain ⟨own, el₁, el₁', htaken, htaken', hown, h₁⟩ := h.takeValue hel "value" (by decide)
  have hcode := good_asNumber h.code number (good_getD h.code "null" (by decide) hown)
  unfold bindRadio
  rw [htaken, htaken']
  refine h.addFixedHandler (h.addFixedProp h₁ "checked" ?_) "change" none
    (h.code.assignment hvalue hcode) true
  exact h.code.append (h.code.append (h.code.wrap (by decide) hvalue (by decide)) hcode)
    (h.code.fixed (by decide))

theorem bindCheckbox_walks (hvalue : good value) :
    R (bindCheckbox s el value number) (bindCheckbox s el' value number) := by
  obtain ⟨own, el₁, el₁', htaken₁, htaken₁', hown, h₁⟩ := h.takeValue hel "value" (by decide)
  obtain ⟨whenTrue, el₂, el₂', htaken₂, htaken₂', htrue, h₂⟩ :=
    h.takeValue h₁ "true-value" (by decide)
  obtain ⟨whenFalse, el₃, el₃', htaken₃, htaken₃', hfalse, h₃⟩ :=
    h.takeValue h₂ "false-value" (by decide)
  unfold bindCheckbox
  rw [htaken₁, htaken₁']
  dsimp only
  rw [htaken₂, htaken₂']
  rw [htaken₃, htaken₃']
  have hown := good_getD h.code "null" (by decide) hown
  have htrue := good_getD h.code "true" (by decide) htrue
  have hcase := good_getD h.code "false" (by decide) hfalse
  generalize whenTrue.getD "true" = whenTrue at htrue ⊢
  have hflag : good (if whenTrue = "true" then ":(" ++ value ++ ")"
      else ":_q(" ++ value ++ "," ++ whenTrue ++ ")") := by
    split
    · exact h.code.wrap (by decide) hvalue (by decide)
    · exact h.code.append (h.code.append (h.code.wrap (by decide) hvalue (by decide)) htrue)
        (h.code.fixed (by decide))
  have hassigned (code : String) (hcode : Unbroken code) :=
    h.code.assignment hvalue (h.code.fixed hcode)
  have hadd := hassigned "$$a.concat([$$v])" (by decide)
  have hremove := hassigned "$$a.slice(0,$$i).concat($$a.slice($$i+1))" (by decide)
  have hset := hassigned "$$c" (by decide)
  have hnumber := good_asNumber h.code number hown
  have hthen {code text after : String} (hcode : good code) (htext : good text)
      (hafter : Unbroken after) : good (code ++ text ++ after) :=
    h.code.append (h.code.append hcode htext) (h.code.fixed hafter)
  have htoggle : good ("if($$el.checked)" ++
      braced ("$$i<0&&(" ++ assignment value "$$a.concat([$$v])" ++ ")") ++ "else" ++
      braced ("$$i>-1&&(" ++
        assignment value "$$a.slice(0,$$i).concat($$a.slice($$i+1))" ++ ")")) :=
    h.code.append (h.code.wrap (by decide)
      (h.code.braced (h.code.wrap (by decide) hadd (by decide))) (by decide))
      (h.code.braced (h.code.wrap (by decide) hremove (by decide)))
  refine h.addFixedHandler (h.addFixedProp h₃ "checked" ?_) "change" none ?_ true
  · exact h.code.append (hthen (hthen (h.code.wrap (by decide) hvalue (by decide)) hvalue
      (by decide)) hown (by decide)) hflag
  · refine h.code.append (hthen (hthen (hthen (h.code.wrap (by decide) hvalue (by decide))
      htrue (by decide)) hcase (by decide)) (h.code.braced ?_) (by decide)) (h.code.braced hset)
    exact h.code.append (h.code.wrap (by decide) hnumber (by decide)) htoggle

/-- Both text controls have a binding of their value, or neither has. -/
theorem isSome_ownValueBinding? :
    (ownValueBinding? s el').isSome = (ownValueBinding? s el).isSome := by
  have hbound (el : Element) : (ownValueBinding? s el).isSome =
      (el.hasAttr ":value" || el.hasAttr (s.directive "bind:value")) := by
    simp only [ownValueBinding?, Option.isSome_or, Option.isSome_map]
    rfl
  rw [hbound, hbound]
  exact h.bound hel "value"

theorem bindText_walks (hvalue : good value) :
    (bindText s el dir value).Agree R (bindText s el' { dir with span } value) := by
  have htyped (trim : Bool) : Unbroken
      (if trim then "$event.target.value.trim()" else "$event.target.value") := by
    split <;> decide
  have hassigned (trim number : Bool) :=
    h.code.assignment hvalue (good_asNumber h.code number (h.code.fixed (htyped trim)))
  have hcode (composing : Bool) {assigned : String} (hassigned : good assigned) : good
      (if composing then "if($event.target.composing)return;" ++ assigned else assigned) := by
    split
    · exact h.code.append (h.code.fixed (by decide)) hassigned
    · exact hassigned
  have hread : good ("(" ++ value ++ ")") := h.code.wrap (by decide) hvalue (by decide)
  have hupdate : good "$forceUpdate()" := h.code.fixed (by decide)
  have htype : (el'.hasAttr ":type" || el'.hasAttr (s.directive "bind:type")) =
      (el.hasAttr ":type" || el.hasAttr (s.directive "bind:type")) := h.bound hel "type"
  have hown := isSome_ownValueBinding? h hel
  have hwr := hcode (!dir.hasModifier "lazy" && el.attr? "type" ≠ some "range")
    (hassigned (dir.hasModifier "trim") (dir.hasModifier "number"))
  have hchange := h.addFixedHandler (h.addFixedProp hel "value" hread) "change" none hwr true
  have hboth := rel_ite (c := (dir.hasModifier "trim" || dir.hasModifier "number")) Iff.rfl
    (h.addFixedHandler hchange "blur" none hupdate false) hchange
  unfold bindText
  rw [htype, h.type hel]
  cases hbinding : ownValueBinding? s el with
  | none =>
    rw [hbinding, Option.isSome_none, Option.isSome_eq_false_iff, Option.isNone_iff_eq_none] at hown
    rw [hown]
    exact .pure hboth
  | some binding =>
    rw [hbinding] at hown
    obtain ⟨binding', hbinding'⟩ := Option.isSome_iff_exists.mp hown
    rw [hbinding']
    exact rel_ite Iff.rfl (.pure hboth) (.bind (.error _ _ _ _) fun _ _ _ => .pure hboth)

theorem bindControl_walks (hdir : ∀ text ∈ dir.value, good text) :
    (bindControl s el dir).Agree (fun p p' => p'.2 = p.2 ∧ R p.1 p'.1)
      (bindControl s el' { dir with span }) := by
  have hvalue : good (dir.value.getD "") := good_getD h.code "" .empty hdir
  unfold bindControl
  rw [(h.view hel).component, (h.view hel).tag, h.type hel]
  refine rel_ite Iff.rfl (.pure ⟨rfl, bindComponent_walks h hel hvalue⟩) ?_
  refine rel_ite Iff.rfl (.pure ⟨rfl, bindSelect_walks h hel hvalue⟩) ?_
  refine rel_ite Iff.rfl (.pure ⟨rfl, bindCheckbox_walks h hel hvalue⟩) ?_
  refine rel_ite Iff.rfl (.pure ⟨rfl, bindRadio_walks h hel hvalue⟩) ?_
  refine rel_ite Iff.rfl (.bind (bindText_walks h hel hvalue) fun _ _ h₁ => .pure ⟨rfl, h₁⟩) ?_
  refine rel_ite Iff.rfl (.pure ⟨rfl, bindComponent_walks h hel hvalue⟩) ?_
  exact .bind (.error _ _ _ _) fun _ _ _ => .pure ⟨rfl, hel⟩

theorem bindModel_walks (hdir : ∀ text ∈ dir.value, good text) :
    (bindModel s el dir).Agree (fun p p' => p'.2 = p.2 ∧ R p.1 p'.1)
      (bindModel s el' { dir with span }) := by
  have hfile : (reportFile s el dir).Agree Eq (reportFile s el' { dir with span }) := by
    refine rel_ite ?_ (.error _ _ _ _) (.pure rfl)
    rw [(h.view hel).tag, h.type hel]
  exact .bind hfile fun _ _ _ => bindControl_walks h hel hdir

end

theorem handler_cases (h : directives.get? name = some handler) :
    handler = listenersDirective ∨ handler = bindDirective ∨ handler = cloakDirective ∨
      handler = modelDirective ∨ handler = htmlDirective := by
  simp only [directives, baseDirectives, Dict.ofList, foldl_cons, foldl_nil, Dict.get?_insert] at h
  split at h
  · simp_all
  split at h
  · simp_all
  split at h
  · simp_all
  split at h
  · simp_all
  split at h
  · simp_all
  · cases h

theorem handler_walks (h : Walk s above above' good same R)
    (hhandler : directives.get? name = some handler) (hel : R el el')
    (span : Span) (hdir : ∀ text ∈ dir.value, good text) :
    (handler s el dir).Agree (fun p p' => p'.2 = p.2 ∧ R p.1 p'.1)
      (handler s el' { dir with span }) := by
  rcases handler_cases hhandler with rfl | rfl | rfl | rfl | rfl
  · have hset := h.edit hel (.boundListeners hdir)
    refine rel_ite Iff.rfl (.pure ⟨rfl, hset⟩) ?_
    exact .bindLift (.error _ _ _ _) fun _ _ _ => .pure ⟨rfl, hset⟩
  · refine .pure ⟨rfl, h.edit hel (.boundObject fun object hobj => ?_)⟩
    obtain ⟨value, hvalue, rfl⟩ := Option.map_eq_some_iff.mp hobj
    exact hdir value hvalue
  · exact .pure ⟨rfl, hel⟩
  · exact .lift (bindModel_walks h hel hdir)
  · unfold htmlDirective
    cases hvalue : dir.value with
    | none => exact .pure ⟨rfl, hel⟩
    | some value =>
      have hcode : good ("_s(" ++ value ++ ")") :=
        h.code.wrap (by decide) (hdir value hvalue) (by decide)
      exact .pure ⟨rfl, h.addFixedProp hel "innerHTML" hcode⟩

end Web

/-! ## Processing as a whole -/

namespace Element

variable {o : Options} {above above' : List Element} {good : String → Prop}
  {same : Directive → Directive → Prop} {R : Element → Element → Prop} {el el' : Element}

/-- The reference, slot and component of an element are taken. -/
def described (s : Settings) (above : List Element) (el : Element) : Noted Element := do
  let el ← (el.takeRef s above).takeSlot s
  return el.takeComponent s

/-- An element whose key has been taken, with the note whether it needs a data object so far. -/
def withPlain (el : Element) : Element :=
  { el with plain := el.key.isNone && el.scopedSlots.isEmpty && el.pending.isEmpty }

/-- The part of processing before the modules: the key, reference, slot and component are taken. -/
def taken (s : Settings) (above : List Element) (el : Element) : Noted Element := do
  let el ← el.takeKey s
  el.withPlain.described s above

def extended (o : Options) (above : List Element) (el : Element) : Outcome Element := do
  let el ← transformAll o.toSettings o.modules el
  let el ← addAttributes o.toSettings above el.pending el
  let el ← el.handleDirectives o
  return { el with processed := true }

theorem process_eq : el.process o above =
      (liftM (el.taken o.toSettings above) : Outcome Element) >>= extended o above := by
  unfold process taken described extended withPlain
  simp only [liftM_bind, liftM_pure, bind_assoc, pure_bind]

namespace Walk

theorem described (h : Walk s above above' good same R) (hel : R el el') :
    (el.described s above).Agree R (el'.described s above') :=
  .bind (h.takeSlot (h.takeRef hel)) fun _ _ h₁ => .pure (h.takeComponent h₁)

theorem transformAll (h : Walk s above above' good same R) {modules : List Module}
    (hmods : ∀ m ∈ modules, m ∈ Web.modules) (hel : R el el') :
    (transformAll s modules el).Agree R (transformAll s modules el') := by
  induction modules generalizing el el' with
  | nil => exact .pure hel
  | cons m rest ih =>
    refine .bind (Web.transform_walks h hel (hmods m mem_cons_self)) fun el₁ el₁' h₁ => ?_
    exact ih (fun m' hm' => hmods m' (mem_cons_of_mem _ hm')) h₁

section

variable (h : Walk o.toSettings above above' good same R) (ho : o.UsesWeb) (hel : R el el')

include h ho hel

theorem runHandlers {ds ds' : List Directive} (hds : Forall₂ same ds ds') :
    (runHandlers o ds el).Agree (fun p p' => R p.1 p'.1 ∧ Forall₂ same p.2 p'.2)
      (runHandlers o ds' el') := by
  induction hds generalizing el el' with
  | nil => exact .pure ⟨hel, .nil⟩
  | @cons d d' rest rest' hd _ ih =>
    have hvalue : ∀ text ∈ d.value, good text := fun text htext =>
      h.written hd text (by simp [Directive.fragments, Option.mem_def.mp htext])
    obtain ⟨span, rfl⟩ := h.placed hd
    have hfirst : (el.runHandler o d).Agree (fun p p' => R p.1 p'.1 ∧ same p.2 p'.2)
        (el'.runHandler o { d with span }) := by
      unfold runHandler
      cases hget : o.directives.get? d.name with
      | none => exact .bindLift (.tip _ _ _ _) fun _ _ _ => .pure ⟨hel, h.runtime true hd⟩
      | some handler =>
        obtain ⟨known, hknown⟩ := ho.directives _ handler hget
        refine .bind (Web.handler_walks h hknown hel span hvalue) fun p p' hp => .pure ⟨hp.2, ?_⟩
        rw [show p'.2 = p.2 from hp.1]
        exact h.runtime p.2 hd
    refine .bind hfirst fun p p' hp => .bind (ih hp.1) fun q q' hq => .pure ⟨hq.1, ?_⟩
    exact .cons hp.2 hq.2

theorem handleDirectives : (el.handleDirectives o).Agree R (el'.handleDirectives o) := by
  refine .bind (h.runHandlers ho (h.restore hel .nil) (h.stored hel)) fun p p' hp => .pure ?_
  exact h.restore hp.1 (rel_append hp.2 (h.stored hp.1))

variable (hadd : ∀ {el el' : Element}, R el el' →
  (addAttributes o.toSettings above el.pending el).Agree R
    (addAttributes o.toSettings above' el'.pending el'))

include hadd

theorem extended : (el.extended o above).Agree R (el'.extended o above') := by
  refine .bind (h.transformAll ho.modules hel) fun _ _ h₁ => .bindLift (hadd h₁) fun _ _ h₂ => ?_
  exact .bind (h.handleDirectives ho h₂) fun _ _ h₃ => .pure (h.edit h₃ .processed)

/-- Processing two elements gives results, which are related, with as many reports. -/
theorem process (hplain : ∀ {el el' : Element}, R el el' → R el.withPlain el'.withPlain) :
    (el.process o above).Agree R (el'.process o above') := by
  rw [process_eq, process_eq]
  refine .bindLift ?_ fun _ _ h₁ => h.extended ho h₁ hadd
  exact .bind (h.takeKey hel) fun _ _ h₁ => h.described (hplain h₁)

end

end Walk

end Element

end TemplateCompiler
