import TemplateCompiler.Proofs.Marking
import TemplateCompiler.Proofs.Outcome
import TemplateCompiler.Render.Generate
import TemplateCompiler.Web.Platform

/-!
# Running the generator

A step of the generator takes its state and gives a result with the next state, or stops.
`Gen.result` is that function, without the reports. This file says what it is for each primitive
step and for each wrapper, so that what follows about generated code can be read off equations:
which records a wrapper looks at, and what it writes.
-/

namespace TemplateCompiler

open List DataObject

variable {o : Options} {body item chain code otherwise : Gen Code}

abbrev Options.WebModules (o : Options) : Prop := ∀ m ∈ o.modules, m ∈ Web.modules

namespace Gen

variable {α β : Type}

def result (x : Gen α) (s : GenState) : Except HookFailure (α × GenState) := (x.run s).result

@[simp] theorem result_pure (a : α) (s : GenState) : (pure a : Gen α).result s = .ok (a, s) := rfl

theorem result_bind (x : Gen α) (f : α → Gen β) (s : GenState) :
    (x >>= f).result s = x.result s >>= fun r => (f r.1).result r.2 := by
  unfold result
  rw [StateT.run_bind, Outcome.result_bind]

theorem result_bind_ok {x : Gen α} {f : α → Gen β} {s s' : GenState} {a : α}
    (h : x.result s = .ok (a, s')) : (x >>= f).result s = (f a).result s' := by
  rw [result_bind, h]
  rfl

@[simp] theorem result_lift (n : Noted α) (s : GenState) :
    (liftM n : Gen α).result s = .ok (n.value, s) := rfl

@[simp] theorem result_except (e : Except HookFailure α) (s : GenState) :
    (liftM e : Gen α).result s = e.map (·, s) := by
  cases e <;> rfl

/-! ## Records and bodies -/

@[simp] theorem result_mark (id : NodeId) (w : Wrapper) (s : GenState) :
    (mark id w).result s = .ok ((), { s with done := (id, w) :: s.done }) := rfl

@[simp] theorem result_pushBody (body : Code) (s : GenState) : (pushBody body).result s =
      .ok (s.hoisted.length, { s with hoisted := s.hoisted ++ [body] }) := rfl

@[simp] theorem result_nextOnce (s : GenState) :
    nextOnce.result s = .ok (s.onceCount, { s with onceCount := s.onceCount + 1 }) := rfl

/-- A step on its own starts from nothing, and only its bodies come out of it. -/
theorem result_isolated (step : Gen Code) (s : GenState) :
    (isolated step).result s = (step.result {}).map fun r => ((r.1, r.2.hoisted), s) := by
  unfold isolated result
  rw [StateT.run_bind, Outcome.result_bind]
  have hrun : ((liftM (step.run {}) : Gen (Code × GenState)).run s).result =
      (step.run {}).result.map (·, s) := by
    rw [StateT.run_monadLift]
    rw [Outcome.result_bind]
    cases (step.run {}).result <;> rfl
  rw [hrun]
  cases (step.run {}).result <;> rfl

/-! ## Wrappers -/

variable (tags : TagTable) (a : Ast) (id : NodeId) (el : Element) (s : GenState)

/-- The loop is put around an item the first time only, after a note about it. -/
theorem run_looped (note : LoopHead → Gen Unit) : (looped id el note item).run s =
      match el.loop with
      | some head =>
        if s.done.contains (id, .loop) then item.run s
        else (do note head; return .loop id head.source head.params (← item) : Gen Code).run
          { s with done := (id, .loop) :: s.done }
      | none => item.run s := by
  unfold looped
  cases el.loop with
  | none => rfl
  | some head =>
    show (if !s.done.contains (id, .loop) then _ else _ : Gen Code).run s = _
    cases s.done.contains (id, .loop) <;> rfl

theorem run_conditional : (conditional id el chain otherwise).run s =
      if el.ifExp.isSome && !s.done.contains (id, .condition) then
        chain.run { s with done := (id, .condition) :: s.done }
      else otherwise.run s := by
  show (if el.ifExp.isSome && !s.done.contains (id, .condition) then _ else _ : Gen Code).run s = _
  split <;> rfl

theorem run_hoist : (hoist id el body).run s = (do
        let code ← body
        let index ← pushBody code
        return .hoisted id index el.marks.inLoop : Gen Code).run
          { s with done := (id, .once) :: (id, .hoist) :: s.done } := rfl

theorem run_hoistRoot : (hoistRoot id el body).run s =
      if el.marks.root && !s.done.contains (id, .hoist) then (hoist id el body).run s
      else body.run s := by
  show (if el.marks.root && !s.done.contains (id, .hoist) then _ else _ : Gen Code).run s = _
  split <;> rfl

/-- A static root is hoisted the first time, an element to be rendered once is given the wrappers
for that the first time, and all else is repeated and shown as its directives say. -/
theorem run_wrapped : (wrapped tags a id el chain code).run s =
      if el.marks.root && !s.done.contains (id, .hoist) then
        (hoist id el (repeated tags id el (conditional id el chain code))).run s
      else if el.once && !s.done.contains (id, .once) then
        (onceWrapped tags a id el chain code).run s
      else (repeated tags id el (conditional id el chain code)).run s := by
  show (if el.marks.root && !s.done.contains (id, .hoist) then _ else _ : Gen Code).run s = _
  split
  · rfl
  · show (if el.once && !s.done.contains (id, .once) then _ else _ : Gen Code).run s = _
    split <;> rfl

/-! ## Extensions of the web -/

theorem moduleEntries_web {modules : List Module} (h : ∀ m ∈ modules, m ∈ Web.modules)
    (el : Element)
    {P : String → Prop} (hempty : P "") (happend : ∀ first others, P first → P others →
      P (first ++ others)) (hclass : P (Web.classData el)) (hstyle : P (Web.styleData el)) :
    ∃ entries, P entries ∧ ∀ el', Web.classData el' = Web.classData el →
      Web.styleData el' = Web.styleData el → moduleEntries el' modules = .ok entries := by
  induction modules with
  | nil => exact ⟨"", hempty, fun _ _ _ => rfl⟩
  | cons m rest ih =>
    obtain ⟨others, hoth, hrest⟩ := ih fun m' hm' => h m' (mem_cons_of_mem _ hm')
    obtain ⟨first, hfirst, hdata⟩ : ∃ first, P first ∧ ∀ el', Web.classData el' = Web.classData el →
        Web.styleData el' = Web.styleData el → m.data el' = .ok first := by
      have hm := h m mem_cons_self
      simp only [Web.modules, mem_cons, not_mem_nil, or_false] at hm
      obtain rfl | rfl | rfl := hm
      · exact ⟨_, hclass, fun _ hel _ => congrArg Except.ok hel⟩
      · exact ⟨_, hstyle, fun _ _ hel => congrArg Except.ok hel⟩
      · exact ⟨_, hempty, fun _ _ _ => rfl⟩
    refine ⟨first ++ others, happend _ _ hfirst hoth, fun el' hel hel' => ?_⟩
    unfold moduleEntries
    rw [hdata el' hel hel', hrest el' hel hel']
    rfl

theorem ownEntries_web (ho : o.WebModules) (el : Element) :
    ∃ own, ∀ marks, ownEntries o.modules (el.withMarks marks) = .ok own := by
  obtain ⟨entries, -, hents⟩ := moduleEntries_web ho el (P := fun _ => True) trivial
    (fun _ _ _ _ => trivial) trivial trivial
  refine ⟨leadingEntries el ++ entries ++ trailingEntries el, fun marks => ?_⟩
  unfold ownEntries
  rw [hents (el.withMarks marks) rfl rfl]
  rfl

theorem result_ownEntries (ho : o.WebModules) (el : Element) :
    ∃ own, ownEntries o.modules el = .ok own ∧ ∀ s,
      (liftM (ownEntries o.modules el) : Gen String).result s = .ok (own, s) := by
  obtain ⟨own, hown⟩ := ownEntries_web ho el
  refine ⟨own, hown el.marks, fun s => ?_⟩
  rw [result_except]
  exact congrArg (Except.map (·, s)) (hown el.marks)

theorem changed_web (el : Element) (code : Code) (modules : List Module)
    (h : ∀ m ∈ modules, m ∈ Web.modules) : changed el code modules = .ok code := by
  induction modules with
  | nil => rfl
  | cons m rest ih =>
    have hm := h m mem_cons_self
    simp only [Web.modules, mem_cons, not_mem_nil, or_false] at hm
    have hrest := ih fun m' hm' => h m' (mem_cons_of_mem _ hm')
    obtain rfl | rfl | rfl := hm
    · exact hrest
    · exact hrest
    · exact hrest

/-- Whether an element is made by a call, and not only its content shown in its place. -/
def isCalled (el : Element) : Bool :=
  !(el.tag = "template" && el.slotTarget.isNone) && el.tag ≠ "slot"

/-- Whether the call gets a data object. -/
def hasData (el : Element) : Bool := isCalled el && !(el.plain && el.component.isNone)

/-- The entries of a data object that are made of other code, and the tag of a component. -/
def dataEntries (el : Element) (slots inline : Gen (List Code)) : Gen (List Code) := do
  let slotEntries ← onlyIf (!el.scopedSlots.isEmpty) (do return [slotEntry (← slots)])
  let inlineEntries ← onlyIf el.inlineTemplate inline
  return slotEntries ++ tagEntries el ++ inlineEntries

/-- The code of an element made of such entries and of its children. Without a data object there are
no entries, and then they may stand in any place. -/
def madeCode (tags : TagTable) (a : Ast) (el : Element) (own : String)
    (entries children : List Code) : Code :=
  if isCalled el then
    ("_c(" : Code) ++ Code.join "," (.text (el.component.getD ("'" ++ el.tag ++ "'")) ::
      (if hasData el then [merged el (object own entries)] else entries) ++
        childrenArguments tags a el children) ++ (")" : Code)
  else if el.tag = "slot" then slotCode el (childrenValue? (entries ++ children))
  else (childrenValue? (entries ++ children)).getD "_e()"

theorem bareCode_eq (ho : o.WebModules) {el : Element} {own : String}
    (hown : ownEntries o.modules el = .ok own) (a : Ast) (id : NodeId)
    (children slots inline : Gen (List Code)) :
    bareCode o a id el children slots inline = (do
      let entries ← onlyIf (hasData el) (dataEntries el slots inline)
      let codes ← onlyIf (!(isCalled el && el.inlineTemplate)) children
      return .element id (madeCode o.tags a el own entries codes)) := by
  unfold bareCode madeCode
  by_cases htmpl : (el.tag = "template" && el.slotTarget.isNone)
  · have hcall : isCalled el = false := by simp [isCalled, htmpl]
    have htag : el.tag ≠ "slot" := by
      intro h
      simp [h] at htmpl
    simp [hasData, hcall, onlyIf, htmpl, htag]
  · by_cases htag : el.tag = "slot"
    · have hcall : isCalled el = false := by simp [isCalled, htag]
      simp [hasData, hcall, onlyIf, htag]
    · have hcall : isCalled el = true := by simp [isCalled, htmpl, htag]
      have hdata : dataCode o el slots inline = (do
          return merged el (object own (← dataEntries el slots inline))) := by
        unfold dataCode dataEntries
        rw [hown]
        simp only [bind_assoc, pure_bind]
        rfl
      have hlift (code : Code) :
          (liftM (Except.ok code : Except HookFailure Code) : Gen Code) = pure code := rfl
      rw [if_neg htmpl, if_neg htag, callCode, hdata]
      simp only [changed_web _ _ _ ho, hlift]
      cases hplain : (el.plain && el.component.isNone) <;> cases el.inlineTemplate <;>
        simp [hasData, hcall, hplain, onlyIf, childrenArguments]

/-! ## Changed trees -/

section

variable {f : NodeKind → NodeKind} {g : Element → Element} (h : KeepsShape f g) (a : Ast)
  (el : Element)

include h

theorem startsWithElement_mapKinds :
    startsWithElement (a.mapKinds f) (g el) = startsWithElement a el := by
  unfold startsWithElement
  rw [h.children]
  cases el.children.head? with
  | none => rfl
  | some first => simp [Ast.element?_mapKinds h]

/-- How children are passed depends on the shape of the tree, and on which elements are
components. -/
theorem childrenArguments_mapKinds (hcomp : ∀ el, (g el).component = el.component)
    (tags : TagTable) (children : List Code) :
    childrenArguments tags (a.mapKinds f) (g el) children =
      childrenArguments tags a el children := by
  have hlook : (a.mapKinds f).element? = fun id => (a.element? id).map g :=
    funext (Ast.element?_mapKinds h a)
  have hlone : hasLoneLoop (a.mapKinds f) (g el) = hasLoneLoop a el := by
    unfold hasLoneLoop
    simp only [hlook, h.children, Option.any_map, h.loop, h.tag]
  have hcandidates : (a.mapKinds f).candidates el.children = (a.candidates el.children).map g := by
    unfold Ast.candidates
    rw [hlook, map_flatMap, ← map_filterMap, flatMap_map]
    simp only [map_cons, map_filterMap, h.conditions]
  unfold childrenArguments Ast.normalization
  simp only [hlone, h.children, hcandidates, List.any_map, Function.comp_def, Element.isManifold,
    Element.mayBeComponent, h.loop, h.tag, hcomp]
  rfl

end

end Gen

theorem result_generate {a : Ast} {root : NodeId} (h : a.root = some root) : (generate o a).result =
      ((Gen.nodeCode o a .child (a.outline root)).result {}).map
        fun r => { main := r.1, hoisted := r.2.hoisted } := by
  unfold generate Gen.result
  rw [h]
  rw [Outcome.result_bind]
  cases ((Gen.nodeCode o a .child (a.outline root)).run {}).result <;> rfl

/-! ## What is read off the parts of a call

Many things are read off generated code as lists: the elements in it, the bodies that it uses, the
places that something has in it. Source text has none of them, and pieces one after the other have
what each piece has. Such a reading does not see how children, slots and data objects are put
together; it finds in a call what it finds in the codes that the call was made of.
-/

/-- A reading of code that finds nothing in source text, and in two pieces what it finds in each. -/
structure Code.Additive {γ : Type} (m : Code → List γ) : Prop where
  text : ∀ source, m (.text source) = []
  append : ∀ first second : Code, m (first ++ second) = m first ++ m second

namespace Code.Additive

variable {γ : Type} {m : Code → List γ}

section

variable (h : Additive m)

include h

theorem join (separator : String) (codes : List Code) :
    m (Code.join separator codes) = codes.flatMap m := by
  induction codes with
  | nil => exact h.text ""
  | cons code rest ih =>
    cases rest with
    | nil => exact (append_nil _).symm
    | cons next rest =>
      unfold Code.join
      rw [h.append, h.append, h.text, append_nil, ih]
      rfl

theorem enclosed (first separator last : String) (codes : List Code) :
    m ((first : Code) ++ Code.join separator codes ++ (last : Code)) = codes.flatMap m := by
  rw [h.append, h.append, h.text, h.text, nil_append, append_nil, h.join]

theorem object (own : String) (codes : List Code) :
    m (DataObject.object own codes) = codes.flatMap m := by
  cases codes with
  | nil => exact h.text _
  | cons first rest => exact h.enclosed _ _ _ _

theorem merged (el : Element) (data : Code) : m (DataObject.merged el data) = m data := by
  have hbetween (first last : String) (code : Code) :
      m ((first : Code) ++ code ++ (last : Code)) = m code := by
    rw [h.append, h.append, h.text, h.text, nil_append, append_nil]
  unfold DataObject.merged
  cases el.boundObject <;> cases el.boundListeners
  · rfl
  · exact hbetween _ _ _
  · exact hbetween _ _ _
  · exact (hbetween _ _ _).trans (hbetween _ _ _)

theorem tagEntries (el : Element) : (Gen.tagEntries el).flatMap m = [] := by
  unfold Gen.tagEntries
  split
  · rw [flatMap_cons, h.text]
    rfl
  · rfl

theorem dataEntries (el : Element) (slots inline : List Code) :
    (slots ++ Gen.tagEntries el ++ inline).flatMap m = slots.flatMap m ++ inline.flatMap m := by
  rw [flatMap_append, flatMap_append, h.tagEntries, append_nil]

theorem childrenValue (codes : List Code) (text : String) :
    m ((Gen.childrenValue? codes).getD (.text text)) = codes.flatMap m := by
  match codes with
  | [] => exact h.text text
  | [only] => exact (append_nil _).symm
  | first :: second :: rest => exact h.enclosed _ _ _ _

theorem slotCode (el : Element) (codes : List Code) :
    m (Gen.slotCode el (Gen.childrenValue? codes)) = codes.flatMap m := by
  have hnull := h.childrenValue codes "null"
  have hattrs : m (((if el.attrs.isEmpty then none else some (.text (Gen.slotAttributes el))) :
      Option Code).getD (.text "null")) = [] := by
    split <;> exact h.text _
  unfold Gen.slotCode
  rw [h.enclosed, flatMap_cons, h.text]
  cases el.boundObject with
  | some b =>
    show m ((Gen.childrenValue? codes).getD (.text "null")) ++ (_ ++ (m (.text b.value) ++ [])) = _
    rw [hnull, hattrs, h.text]
    simp
  | none =>
    by_cases hempty : el.attrs.isEmpty
    · rw [if_pos hempty]
      cases hval : Gen.childrenValue? codes with
      | none =>
        rw [hval] at hnull
        rw [← hnull]
        exact (h.text _).symm
      | some value =>
        rw [hval] at hnull
        exact (append_nil _).trans hnull
    · rw [if_neg hempty]
      show m ((Gen.childrenValue? codes).getD (.text "null")) ++
        (m (.text (Gen.slotAttributes el)) ++ []) = _
      rw [hnull, h.text]
      simp

theorem childrenArguments (tags : TagTable) (a : Ast) (el : Element)
    (codes : List Code) : (Gen.childrenArguments tags a el codes).flatMap m = codes.flatMap m := by
  unfold Gen.childrenArguments
  split
  · next hempty => rw [List.isEmpty_iff.mp hempty]
  split
  · rfl
  · rw [flatMap_cons, h.append, h.join, h.text]
    simp

theorem madeCode (tags : TagTable) (a : Ast) (el : Element) (own : String)
    (entries codes : List Code) :
    m (Gen.madeCode tags a el own entries codes) = entries.flatMap m ++ codes.flatMap m := by
  unfold Gen.madeCode
  split
  · have hdata : (if Gen.hasData el then [DataObject.merged el (DataObject.object own entries)]
        else entries).flatMap m = entries.flatMap m := by
      split
      · rw [flatMap_singleton, h.merged, h.object]
      · rfl
    rw [h.enclosed, cons_append, flatMap_cons, h.text, nil_append, flatMap_append, hdata,
      h.childrenArguments]
  · rw [← flatMap_append]
    split
    · exact h.slotCode el _
    · exact h.childrenValue _ _

theorem slotEntry (codes : List Code) :
    m (Gen.slotEntry codes) = codes.flatMap m := h.enclosed _ _ _ _

end

end Code.Additive

end TemplateCompiler
