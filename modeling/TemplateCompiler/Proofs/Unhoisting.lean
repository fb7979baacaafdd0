import TemplateCompiler.Proofs.Generator
import TemplateCompiler.Template.Builder

/-!
# Hoisting keeps the program

A tree may be generated as it is, or after its static parts have been marked, and then those parts
are moved into bodies of their own. `Code.expand` puts such bodies back where they are used. The
main result, `generate_optimize_expand`, says that this gives the code of the unmarked tree again.

The two runs of the generator are followed side by side. `Related` says what they have in common at
each point: the same loops and conditions are open, and the code of the one becomes the code of the
other once the bodies made so far, whatever comes after them, are put back. Each function of the
generator keeps this, and only `hoist` takes a step that the other run does not take.
-/

namespace TemplateCompiler

open List Option

variable {s₁ s₀ : GenState} {item₁ item₀ element₁ element₀ : Gen Code} {el : Element}
  {bodies children codes inner : List Code}

/-! ## Putting bodies back -/

namespace Code

mutual

/-- The code with the given bodies in place of their uses. An inline template has its own bodies,
which are expanded and put back in the same way. -/
def expand (bodies : List Code) : Code → Code
  | .text source => .text source
  | .append first second => .append (first.expand bodies) (second.expand bodies)
  | .element id code => .element id (code.expand bodies)
  | .hoisted id index inLoop => (bodies[index]?).getD (.hoisted id index inLoop)
  | .loop id source params body => .loop id source params (body.expand bodies)
  | .condition chain block exp shown otherwise =>
    .condition chain block exp (shown.expand bodies) (otherwise.expand bodies)
  | .once body number key => .once (body.expand bodies) number key
  | .scopedSlot id key scope body => .scopedSlot id key scope (body.expand bodies)
  | .inlineTemplate body inner => .inlineTemplate (body.expand (expandBodies [] inner)) []

/-- Bodies with those before them put back, after the bodies `done` that are expanded already. -/
def expandBodies (done : List Code) : List Code → List Code
  | [] => done
  | body :: rest => expandBodies (done ++ [body.expand done]) rest

end

theorem expandBodies_append (done first second : List Code) :
    expandBodies done (first ++ second) = expandBodies (expandBodies done first) second := by
  induction first generalizing done with
  | nil => rfl
  | cons body rest ih => exact ih _

theorem prefix_expandBodies (done bodies : List Code) : done <+: expandBodies done bodies := by
  induction bodies generalizing done with
  | nil => exact prefix_rfl
  | cons body rest ih => exact (prefix_append _ _).trans (ih _)

theorem length_expandBodies (done bodies : List Code) :
    (expandBodies done bodies).length = done.length + bodies.length := by
  induction bodies generalizing done with
  | nil => rfl
  | cons body rest ih =>
    unfold expandBodies
    rw [ih, length_append, length_cons, length_cons, length_nil]
    omega

/-- Each body is expanded with those before it, whatever comes after. -/
theorem getElem?_expandBodies {bodies later : List Code} {body : Code}
    (h : bodies ++ [body] <+: later) :
    (expandBodies [] later)[bodies.length]? = some (body.expand (expandBodies [] bodies)) := by
  obtain ⟨rest, rfl⟩ := h
  rw [expandBodies_append, expandBodies_append]
  have hlen := length_expandBodies [] bodies
  rw [length_nil, Nat.zero_add] at hlen
  obtain ⟨more, hmore⟩ := prefix_expandBodies (expandBodies (expandBodies [] bodies) [body]) rest
  rw [← hmore, ← hlen]
  show ((_ ++ [_]) ++ more)[_]? = _
  rw [List.append_assoc, getElem?_append_right (Nat.le_refl _), Nat.sub_self]
  rfl

@[simp] theorem expand_append (first second : Code) :
    (first ++ second).expand bodies = first.expand bodies ++ second.expand bodies := rfl

@[simp] theorem expand_text (source : String) :
    (Code.text source).expand bodies = .text source := rfl

@[simp] theorem expand_join (separator : String) :
    (join separator codes).expand bodies = join separator (codes.map (·.expand bodies)) := by
  induction codes with
  | nil => rfl
  | cons code rest ih =>
    cases rest with
    | nil => rfl
    | cons next rest => exact congrArg _ ih

end Code

open Code (expand expandBodies)

/-! ### In the code of an element -/

section

variable (bodies : List Code)

theorem DataObject.expand_object (own : String) :
    (object own inner).expand bodies = object own (inner.map (·.expand bodies)) := by
  cases inner with
  | nil => rfl
  | cons first rest =>
    simp only [object, Code.expand_append, Code.expand_join, Code.expand_text]
    rfl

theorem DataObject.expand_merged (data : Code) :
    (merged el data).expand bodies = merged el (data.expand bodies) := by
  unfold merged
  cases el.boundObject <;> cases el.boundListeners <;> rfl

theorem Gen.childrenValue?_expand : (childrenValue? children).map (·.expand bodies) =
      childrenValue? (children.map (·.expand bodies)) := by
  match children with
  | [] => rfl
  | [_] => rfl
  | first :: second :: rest =>
    simp only [childrenValue?, map_cons, map_some, Code.expand_append,
      Code.expand_join, Code.expand_text]

theorem Gen.expand_childrenValue (children : List Code) (text : String) :
    ((childrenValue? children).getD (.text text)).expand bodies =
      (childrenValue? (children.map (·.expand bodies))).getD (.text text) := by
  rw [← childrenValue?_expand]
  cases childrenValue? children <;> rfl

theorem Gen.expand_slotCode (fallback : Option Code) :
    (slotCode el fallback).expand bodies = slotCode el (fallback.map (·.expand bodies)) := by
  unfold slotCode
  cases el.boundObject <;> cases fallback <;> by_cases h : el.attrs.isEmpty <;> simp [h]

end

/-! ## Two runs side by side -/

namespace Gen

variable {α β γ δ : Type}

/-- The value `x` becomes `y` once the bodies are put back, whatever bodies come after them. `put`
says how bodies are put into a value of its kind. -/
def Yields (put : List Code → α → β) (bodies : List Code) (x : α) (y : β) : Prop :=
  ∀ later, bodies <+: later → put (expandBodies [] later) x = y

theorem Yields.mono {put : List Code → α → β} {bodies bodies' : List Code} {x : α} {y : β}
    (h : Yields put bodies x y) (hle : bodies <+: bodies') : Yields put bodies' x y :=
  fun later hlater => h later (hle.trans hlater)

def putAll (bodies : List Code) (codes : List Code) : List Code := codes.map (·.expand bodies)

/-- The states of a run that hoists and of one that does not. -/
structure Agree (s₁ s₀ : GenState) : Prop where
  nothing : s₀.hoisted = []
  loops : ∀ id, s₁.done.contains (id, .loop) = s₀.done.contains (id, .loop)
  conditions : ∀ id, s₁.done.contains (id, .condition) = s₀.done.contains (id, .condition)

theorem Agree.mark (h : Agree s₁ s₀) (id : NodeId) (w : Wrapper) :
    Agree { s₁ with done := (id, w) :: s₁.done } { s₀ with done := (id, w) :: s₀.done } where
  nothing := h.nothing
  loops i := by
    rw [contains_cons, contains_cons, h.loops]
  conditions i := by
    rw [contains_cons, contains_cons, h.conditions]

theorem Agree.markHoisted (h : Agree s₁ s₀) (id : NodeId) :
    Agree { s₁ with done := (id, .once) :: (id, .hoist) :: s₁.done } s₀ where
  nothing := h.nothing
  loops i := by rw [← h.loops]; simp
  conditions i := by rw [← h.conditions]; simp

/-- Both steps have a result, from states that agree and with `bodies` among the bodies made so far:
the states agree again, no body is lost, and the first result becomes the second when the bodies are
put back. -/
def Related (put : List Code → α → β) (bodies : List Code) (x₁ : Gen α) (x₀ : Gen β) : Prop :=
  ∀ s₁ s₀, bodies <+: s₁.hoisted → Agree s₁ s₀ → ∃ a₁ s₁' a₀ s₀',
    x₁.result s₁ = .ok (a₁, s₁') ∧ x₀.result s₀ = .ok (a₀, s₀') ∧
      s₁.hoisted <+: s₁'.hoisted ∧ Agree s₁' s₀' ∧ Yields put s₁'.hoisted a₁ a₀

namespace Related

variable {put : List Code → α → β} {put' : List Code → γ → δ} {bodies bodies' : List Code}

theorem mono {x₁ : Gen α} {x₀ : Gen β} (h : Related put bodies x₁ x₀) (hle : bodies <+: bodies') :
    Related put bodies' x₁ x₀ :=
  fun s₁ s₀ hs => h s₁ s₀ (hle.trans hs)

theorem pure {a₁ : α} {a₀ : β} (h : Yields put bodies a₁ a₀) :
    Related put bodies (Pure.pure a₁) (Pure.pure a₀) :=
  fun s₁ s₀ hs hagree => ⟨a₁, s₁, a₀, s₀, rfl, rfl, prefix_rfl, hagree, h.mono hs⟩

theorem bind {x₁ : Gen α} {x₀ : Gen β} {f₁ : α → Gen γ} {f₀ : β → Gen δ}
    (hx : Related put bodies x₁ x₀)
    (hf : ∀ bodies' a₁ a₀, bodies <+: bodies' → Yields put bodies' a₁ a₀ →
      Related put' bodies' (f₁ a₁) (f₀ a₀)) :
    Related put' bodies (x₁ >>= f₁) (x₀ >>= f₀) := by
  intro s₁ s₀ hs hagree
  obtain ⟨a₁, t₁, a₀, t₀, hx₁, hx₀, hgrows, hagree', ha⟩ := hx s₁ s₀ hs hagree
  obtain ⟨b₁, u₁, b₀, u₀, hf₁, hf₀, hgrows', hagree'', hb⟩ :=
    hf t₁.hoisted a₁ a₀ (hs.trans hgrows) ha t₁ t₀ prefix_rfl hagree'
  refine ⟨b₁, u₁, b₀, u₀, ?_, ?_, hgrows.trans hgrows', hagree'', hb⟩
  · rw [result_bind_ok hx₁, hf₁]
  · rw [result_bind_ok hx₀, hf₀]

theorem bindLift {n₁ : Noted α} {n₀ : Noted β} {f₁ : α → Gen γ} {f₀ : β → Gen δ}
    (hf : Related put' bodies (f₁ n₁.value) (f₀ n₀.value)) :
    Related put' bodies (liftM n₁ >>= f₁) (liftM n₀ >>= f₀) := by
  intro s₁ s₀ hs hagree
  exact hf s₁ s₀ hs hagree

theorem onlyIf {x₁ x₀ : Gen (List Code)} (wanted : Bool) (h : Related putAll bodies x₁ x₀) :
    Related putAll bodies (onlyIf wanted x₁) (onlyIf wanted x₀) := by
  cases wanted with
  | false => exact .pure fun _ _ => rfl
  | true => exact h

/-! ### Wrappers -/

variable {id : NodeId} {el : Element} {marks : StaticMarks}

theorem looped {note : LoopHead → Gen Unit} (hnote : ∀ head s, (note head).result s = .ok ((), s))
    (hitem : Related expand bodies item₁ item₀) :
    Related expand bodies (looped id (el.withMarks marks) note item₁)
      (looped id el note item₀) := by
  intro s₁ s₀ hs hagree
  have hloop : (el.withMarks marks).loop = el.loop := rfl
  rw [result, result, run_looped, run_looped, hloop, hagree.loops]
  cases el.loop with
  | none => exact hitem s₁ s₀ hs hagree
  | some head =>
    dsimp only
    split
    · exact hitem s₁ s₀ hs hagree
    · rw [← result, ← result, result_bind_ok (hnote head _), result_bind_ok (hnote head _)]
      refine Related.bind hitem (fun bodies' c₁ c₀ _ hc => .pure ?_) _ _ hs (hagree.mark id .loop)
      intro later hlater
      exact congrArg (Code.loop id head.source head.params) (hc later hlater)

theorem repeated (tags : TagTable) (hitem : Related expand bodies item₁ item₀) :
    Related expand bodies (repeated tags id (el.withMarks marks) item₁)
      (repeated tags id el item₀) :=
  looped (fun _ _ => by split <;> rfl) hitem

theorem conditional {chain₁ chain₀ otherwise₁ otherwise₀ : Gen Code}
    (hchain : Related expand bodies chain₁ chain₀)
    (hotherwise : Related expand bodies otherwise₁ otherwise₀) :
    Related expand bodies (conditional id (el.withMarks marks) chain₁ otherwise₁)
      (conditional id el chain₀ otherwise₀) := by
  intro s₁ s₀ hs hagree
  have hifExp : (el.withMarks marks).ifExp = el.ifExp := rfl
  rw [result, result, run_conditional, run_conditional, hifExp, hagree.conditions]
  split
  · exact hchain _ _ hs (hagree.mark id .condition)
  · exact hotherwise s₁ s₀ hs hagree

/-- The one step that only one of the runs takes: the body is the last one made, and putting it back
gives what the other run has in this place. -/
theorem hoist {body₁ body₀ : Gen Code} (h : Related expand bodies body₁ body₀) :
    Related expand bodies (hoist id el body₁) body₀ := by
  intro s₁ s₀ hs hagree
  rw [result, run_hoist]
  have hagree₁ := hagree.markHoisted id
  obtain ⟨c₁, s₁', c₀, s₀', h₁, h₀, hgrows, hagree', hc⟩ := h _ _ (by exact hs) hagree₁
  refine ⟨.hoisted id s₁'.hoisted.length el.marks.inLoop,
    { s₁' with hoisted := s₁'.hoisted ++ [c₁] }, c₀, s₀', ?_, h₀,
    hgrows.trans (prefix_append _ _), ?_, ?_⟩
  · exact (result_bind_ok h₁).trans (result_bind_ok (result_pushBody c₁ s₁'))
  · exact { hagree' with }
  · intro later hlater
    show ((expandBodies [] later)[s₁'.hoisted.length]?).getD _ = c₀
    rw [Code.getElem?_expandBodies hlater]
    exact hc s₁'.hoisted prefix_rfl

variable {chain₁ chain₀ code₁ code₀ : Gen Code} (tags : TagTable) (a₁ a₀ : Ast) (id : NodeId)
  (marks : StaticMarks) (hroot : el.marks.root = false) (honce : el.once = false)
  (hchain : Related expand bodies chain₁ chain₀) (hcode : Related expand bodies code₁ code₀)

include hroot honce hchain hcode

/-- An element that is neither a static root nor rendered once needs no wrapper but those for its
loop and its conditions; a static root is hoisted besides. -/
theorem wrapped : Related expand bodies (wrapped tags a₁ id (el.withMarks marks) chain₁ code₁)
      (wrapped tags a₀ id el chain₀ code₀) := by
  have honce₁ : (el.withMarks marks).once = false := honce
  have hinner : Related expand bodies (Gen.repeated tags id (el.withMarks marks)
        (Gen.conditional id (el.withMarks marks) chain₁ code₁))
      (Gen.repeated tags id el (Gen.conditional id el chain₀ code₀)) :=
    repeated tags (conditional hchain hcode)
  intro s₁ s₀ hs hagree
  rw [result, result, run_wrapped, run_wrapped, hroot, honce, honce₁]
  simp only [Bool.false_and, Bool.false_eq_true, if_false]
  split
  · exact hoist hinner s₁ s₀ hs hagree
  · exact hinner s₁ s₀ hs hagree

theorem branchWrapped :
    Related expand bodies (branchWrapped tags a₁ id (el.withMarks marks) chain₁ code₁)
      (branchWrapped tags a₀ id el chain₀ code₀) := by
  have honce₁ : (el.withMarks marks).once = false := honce
  unfold Gen.branchWrapped
  rw [honce, honce₁]
  exact wrapped tags a₁ a₀ id marks hroot honce hchain hcode

end Related

/-! ## The code of an element -/

section Element

variable {o : Options} {a : Ast} {el : Element} {marks : StaticMarks} {bodies : List Code}

theorem putAll_childrenArguments (tags : TagTable) :
    putAll bodies (childrenArguments tags a el children) =
      childrenArguments tags a el (putAll bodies children) := by
  unfold childrenArguments putAll
  rw [isEmpty_map]
  split
  · rfl
  · split
    · rfl
    · rw [map_singleton, Code.expand_append, Code.expand_join]
      rfl

theorem expand_madeCode (tags : TagTable) (own : String) (entries codes : List Code) :
    expand bodies (madeCode tags a el own entries codes) =
      madeCode tags a el own (putAll bodies entries) (putAll bodies codes) := by
  unfold madeCode
  split
  · have hdata : putAll bodies
        (if hasData el then [DataObject.merged el (DataObject.object own entries)] else entries) =
        if hasData el then [DataObject.merged el (DataObject.object own (putAll bodies entries))]
        else putAll bodies entries := by
      split
      · simp [putAll, DataObject.expand_merged, DataObject.expand_object]
      · rfl
    rw [← putAll_childrenArguments, ← hdata]
    simp [Code.expand_append, Code.expand_join, putAll]
  · split
    · rw [expand_slotCode, childrenValue?_expand]
      simp [putAll]
    · rw [expand_childrenValue]
      simp [putAll]

/-! ### Both runs -/

variable {a₁ a₀ : Ast} {id : NodeId}
  {children₁ children₀ slots₁ slots₀ inline₁ inline₀ : Gen (List Code)}

theorem Related.bareCode (ho : o.WebModules) (hab : a₁.unmarked = a₀.unmarked)
    (hkids : Related putAll bodies children₁ children₀)
    (hslots : Related putAll bodies slots₁ slots₀) (hinl : Related putAll bodies inline₁ inline₀) :
    Related expand bodies (bareCode o a₁ id (el.withMarks marks) children₁ slots₁ inline₁)
      (bareCode o a₀ id el children₀ slots₀ inline₀) := by
  obtain ⟨own, hown⟩ := ownEntries_web ho el
  have hmade (codes : List Code) :
      childrenArguments o.tags a₁ (el.withMarks marks) codes =
        childrenArguments o.tags a₀ el codes := by
    have hmap (a : Ast) (el : Element) :=
      childrenArguments_mapKinds Ast.keepsShape_unmarked a el (fun _ => rfl) o.tags codes
    rw [← hmap, ← hmap a₀]
    exact congrArg (childrenArguments o.tags · _ codes) hab
  have hentry : Related putAll bodies (do return [slotEntry (← slots₁)])
      (do return [slotEntry (← slots₀)]) :=
    .bind hslots fun _ codes₁ codes₀ _ hcodes => .pure fun later hlater => by
      rw [← hcodes later hlater]
      simp [putAll, slotEntry]
  have hentries : Related putAll bodies (dataEntries (el.withMarks marks) slots₁ inline₁)
      (dataEntries el slots₀ inline₀) := by
    refine .bind (.onlyIf _ hentry) fun _ entries₁ entries₀ hle hents => ?_
    refine .bind (.onlyIf _ (hinl.mono hle)) fun _ inner₁ inner₀ hle' hinner => .pure ?_
    intro later hlater
    have htags : putAll (expandBodies [] later) (tagEntries (el.withMarks marks)) =
        tagEntries el := by
      unfold tagEntries
      show putAll _ (if el.component.isSome then _ else _) = _
      split <;> rfl
    rw [putAll, map_append, map_append]
    show putAll _ _ ++ putAll _ _ ++ putAll _ _ = _
    rw [hents later (hle'.trans hlater), htags, hinner later hlater]
  have hown₀ : DataObject.ownEntries o.modules el = .ok own := hown el.marks
  rw [bareCode_eq ho (hown marks), bareCode_eq ho hown₀]
  refine .bind (.onlyIf _ hentries) fun _ entries₁ entries₀ hle hents => ?_
  refine .bind (.onlyIf _ (hkids.mono hle)) fun _ codes₁ codes₀ hle' hcodes => .pure ?_
  intro later hlater
  rw [← hents later (hle'.trans hlater), ← hcodes later hlater]
  refine congrArg (Code.element id) ?_
  rw [expand_madeCode]
  unfold madeCode
  rw [hmade]
  rfl

theorem Related.slotBody (hkids : Related putAll bodies children₁ children₀)
    (helement : Related expand bodies element₁ element₀) :
    Related expand bodies (slotBody id (el.withMarks marks) children₁ element₁)
      (slotBody id el children₀ element₀) := by
  unfold Gen.slotBody
  show Related expand bodies (if el.tag = "template" then _ else _) _
  split
  · refine .bind hkids fun _ codes₁ codes₀ _ hcodes => .pure fun later hlater => ?_
    have hval := expand_childrenValue (expandBodies [] later) codes₁ "undefined"
    rw [← hcodes later hlater]
    show expand _ (el.ifExp.elim _ _) = _
    cases el.ifExp with
    | none => exact congrArg (Code.element id) hval
    | some exp =>
      exact congrArg (fun value => Code.condition id id exp (.element id value) (.text "undefined"))
        hval
  · exact helement

theorem Related.scopedSlot (key : String) (hkids : Related putAll bodies children₁ children₀)
    (helement : Related expand bodies element₁ element₀) :
    Related expand bodies (scopedSlot key id (el.withMarks marks) children₁ element₁)
      (scopedSlot key id el children₀ element₀) := by
  refine .looped (fun _ _ => rfl)
    (.bind (.slotBody hkids helement) fun _ body₁ body₀ _ hbody => .pure ?_)
  intro later hlater
  exact congrArg (Code.scopedSlot id key (el.slotScope.getD "")) (hbody later hlater)

/-- An inline template is generated on its own in both runs, and its bodies are put back into it. -/
theorem Related.inlineTemplate {first₁ first₀ : Gen Code} (hab : a₁.unmarked = a₀.unmarked)
    (hfirst : Related expand [] first₁ first₀) :
    Related putAll bodies (inlineTemplate a₁ (el.withMarks marks) first₁)
      (inlineTemplate a₀ el first₀) := by
  have hstarts : startsWithElement a₁ (el.withMarks marks) = startsWithElement a₀ el := by
    rw [← startsWithElement_mapKinds Ast.keepsShape_unmarked,
      ← startsWithElement_mapKinds Ast.keepsShape_unmarked a₀]
    exact congrArg (startsWithElement · _) hab
  unfold Gen.inlineTemplate
  rw [hstarts]
  refine .bindLift (.onlyIf _ ?_)
  intro s₁ s₀ _ hagree
  obtain ⟨c₁, t₁, c₀, t₀, h₁, h₀, _, hagree', hc⟩ :=
    hfirst {} {} prefix_rfl ⟨rfl, fun _ => rfl, fun _ => rfl⟩
  have hrun₁ : (isolated first₁).result s₁ = .ok ((c₁, t₁.hoisted), s₁) := by
    rw [result_isolated, h₁]
    rfl
  have hrun₀ : (isolated first₀).result s₀ = .ok ((c₀, []), s₀) := by
    rw [result_isolated, h₀, ← hagree'.nothing]
    rfl
  refine ⟨[.inlineTemplate c₁ t₁.hoisted], s₁, [.inlineTemplate c₀ []], s₀, ?_, ?_,
    prefix_rfl, hagree, ?_⟩
  · rw [result_bind_ok hrun₁]
    rfl
  · rw [result_bind_ok hrun₀]
    rfl
  · intro later _
    exact congrArg (fun code => [Code.inlineTemplate code []]) (hc t₁.hoisted prefix_rfl)

end Element

/-! ## The whole tree -/

/-- A node of a tree and the same node with other marks. -/
inductive SameNode : Option NodeKind → Option NodeKind → Prop
  | element (el : Element) (marks : StaticMarks) :
    SameNode (some (.element (el.withMarks marks))) (some (.element el))
  | text (content : String) (tokens : Option (List TextToken)) (isStatic₁ isStatic₀ : Bool) :
    SameNode (some (.text content tokens isStatic₁)) (some (.text content tokens isStatic₀))
  | comment (content : String) (isStatic₁ isStatic₀ : Bool) :
    SameNode (some (.comment content isStatic₁)) (some (.comment content isStatic₀))
  | none : SameNode none none

theorem sameNode {a₁ a₀ : Ast} (h : a₁.unmarked = a₀.unmarked) (id : NodeId) :
    SameNode (a₁.kind? id) (a₀.kind? id) := by
  have hkind : (a₁.kind? id).map NodeKind.unmarked = (a₀.kind? id).map NodeKind.unmarked := by
    rw [← Ast.kind?_unmarked, h, Ast.kind?_unmarked]
  cases hk₀ : a₀.kind? id with
  | none =>
    rw [hk₀, map_none, map_eq_none_iff] at hkind
    rw [hkind]
    exact .none
  | some k₀ =>
    rw [hk₀, map_some, map_eq_some_iff] at hkind
    obtain ⟨k₁, hk₁, hsame⟩ := hkind
    rw [hk₁]
    cases k₀ with
    | element el =>
      cases k₁ with
      | element el₁ =>
        rw [Element.eq_withMarks (NodeKind.element.inj hsame)]
        exact .element el el₁.marks
      | text content tokens isStatic => cases hsame
      | comment content isStatic => cases hsame
    | text content tokens isStatic =>
      cases k₁ <;> cases hsame
      exact .text _ _ _ _
    | comment content isStatic =>
      cases k₁ <;> cases hsame
      exact .comment _ _ _

/-- The trees of the two runs: they differ in marks only, the second one has no static root, and
nothing is rendered once. -/
structure Compared (o : Options) (a₁ a₀ : Ast) : Prop where
  modules : o.WebModules
  same : a₁.unmarked = a₀.unmarked
  plain : ∀ id el, a₀.element? id = some el → el.marks.root = false ∧ el.once = false

variable {o : Options} {a₁ a₀ : Ast}

mutual

/-- Whatever wraps an element, wraps it in both runs. -/
theorem nodeCode_related (h : Compared o a₁ a₀) (bodies : List Code) (entry : Entry) :
    ∀ outline, Related expand bodies (nodeCode o a₁ entry outline) (nodeCode o a₀ entry outline)
  | .node id children slots branches => by
    have hnode := sameNode h.same id
    unfold nodeCode
    generalize hk₁ : a₁.kind? id = k₁ at hnode
    generalize hk₀ : a₀.kind? id = k₀ at hnode
    cases hnode with
    | none => exact .pure fun _ _ => rfl
    | text content tokens => exact .pure fun _ _ => rfl
    | comment content => exact .pure fun _ _ => rfl
    | element el marks =>
      obtain ⟨hroot, honce⟩ := h.plain id el (by rw [Ast.element?, hk₀])
      have hkids := nodeCodes_related h bodies children
      have hcode : Related expand bodies
          (bareCode o a₁ id (el.withMarks marks) (nodeCodes o a₁ children)
            (slotCodes o a₁ el.scopedSlots slots)
            (inlineTemplate a₁ (el.withMarks marks) (firstCode o a₁ children)))
          (bareCode o a₀ id el (nodeCodes o a₀ children) (slotCodes o a₀ el.scopedSlots slots)
            (inlineTemplate a₀ el (firstCode o a₀ children))) :=
        .bareCode h.modules h.same hkids (slotCodes_related h bodies el.scopedSlots slots)
          (.inlineTemplate h.same (firstCode_related h children))
      have hself := Related.branchWrapped o.tags a₁ a₀ id marks hroot honce hcode hcode
      have hchain := chainCode_related h id hself el.conditions branches
      have hwrapped := Related.wrapped o.tags a₁ a₀ id marks hroot honce hchain hcode
      cases entry with
      | child => exact hwrapped
      | branch => exact .branchWrapped o.tags a₁ a₀ id marks hroot honce hchain hcode
      | slot key => exact .scopedSlot key hkids hwrapped

theorem nodeCodes_related (h : Compared o a₁ a₀) (bodies : List Code) :
    ∀ outlines, Related putAll bodies (nodeCodes o a₁ outlines) (nodeCodes o a₀ outlines)
  | [] => .pure fun _ _ => rfl
  | first :: rest => by
    refine .bind (nodeCode_related h bodies .child first) fun bodies' c₁ c₀ hle hc => ?_
    refine .bind (nodeCodes_related h bodies' rest) fun _ cs₁ cs₀ hle' hcs => .pure ?_
    intro later hlater
    exact congrArg₂ List.cons (hc later (hle'.trans hlater)) (hcs later hlater)

theorem firstCode_related (h : Compared o a₁ a₀) :
    ∀ outlines, Related expand [] (firstCode o a₁ outlines) (firstCode o a₀ outlines)
  | [] => .pure fun _ _ => rfl
  | first :: _ => nodeCode_related h [] .child first

theorem slotCodes_related (h : Compared o a₁ a₀) (bodies : List Code) : ∀ slots outlines,
      Related putAll bodies (slotCodes o a₁ slots outlines) (slotCodes o a₀ slots outlines)
  | slot :: slots, outline :: outlines => by
    refine .bind (nodeCode_related h bodies (.slot slot.1) outline) fun bodies' c₁ c₀ hle hc => ?_
    refine .bind (slotCodes_related h bodies' slots outlines) fun _ cs₁ cs₀ hle' hcs => .pure ?_
    intro later hlater
    exact congrArg₂ List.cons (hc later (hle'.trans hlater)) (hcs later hlater)
  | [], _ => by
    unfold slotCodes
    exact .pure fun _ _ => rfl
  | _ :: _, [] => .pure fun _ _ => rfl

theorem chainCode_related (h : Compared o a₁ a₀) {bodies : List Code} (id : NodeId)
    {self₁ self₀ : Gen Code} (hself : Related expand bodies self₁ self₀) :
    ∀ conditions branches, Related expand bodies (chainCode o a₁ id self₁ conditions branches)
        (chainCode o a₀ id self₀ conditions branches)
  | condition :: conditions, branch :: branches => by
    have hcode : Related expand bodies
        (if condition.block = id then self₁ else nodeCode o a₁ .branch branch)
        (if condition.block = id then self₀ else nodeCode o a₀ .branch branch) := by
      split
      · exact hself
      · exact nodeCode_related h bodies .branch branch
    refine .bind hcode fun bodies' c₁ c₀ hle hc => ?_
    cases condition.exp with
    | none => exact .pure hc
    | some exp =>
      refine .bind (chainCode_related h id (hself.mono hle) conditions branches)
        fun _ rest₁ rest₀ hle' hrest => .pure ?_
      intro later hlater
      exact congrArg₂ (Code.condition id condition.block exp) (hc later (hle'.trans hlater))
        (hrest later hlater)
  | [], _ => by
    unfold chainCode
    exact .pure fun _ _ => rfl
  | _ :: _, [] => .pure fun _ _ => rfl

end

end Gen

/-- Marking a tree changes its code only by moving parts of it: with the bodies that are hoisted out
of the marked tree put back, its code is that of the tree without marks, which hoists nothing. -/
theorem generate_optimize_expand (o : Options) (ho : ∀ m ∈ o.modules, m ∈ Web.modules) (a : Ast)
    (h : ∀ id el, a.element? id = some el → el.marks.root = false ∧ el.once = false) :
    ∃ plain hoisting, (generate o a).result = .ok plain ∧
      (generate o (a.optimize o)).result = .ok hoisting ∧
      hoisting.main.expand (expandBodies [] hoisting.hoisted) = plain.main ∧
      plain.hoisted = [] := by
  have hsame := Ast.unmarked_optimize o a
  have hroot := Ast.root_optimize o a
  cases hr : a.root with
  | none =>
    unfold generate
    rw [hroot, hr]
    exact ⟨_, _, rfl, rfl, rfl, rfl⟩
  | some root =>
    have houtline : (a.optimize o).outline root = a.outline root := by
      rw [← Ast.outline_unmarked, hsame, Ast.outline_unmarked]
    obtain ⟨c₁, s₁, c₀, s₀, h₁, h₀, -, hagree, hc⟩ :=
      Gen.nodeCode_related ⟨ho, hsame, h⟩ [] .child (a.outline root) {} {} prefix_rfl
        ⟨rfl, fun _ => rfl, fun _ => rfl⟩
    refine ⟨⟨c₀, s₀.hoisted⟩, ⟨c₁, s₁.hoisted⟩, ?_, ?_, hc s₁.hoisted prefix_rfl, hagree.nothing⟩
    · rw [result_generate hr, h₀]
      rfl
    · rw [result_generate (hroot.trans hr), houtline, h₁]
      rfl

/-- The paragraph beside an interpolation is moved out, and comes back. -/
theorem generate_optimize_expand_paragraph :
    ∃ tree, (parse Web.options "<div><p>x<b>y</b></p>{{ z }}</div>").result = .ok tree ∧
      (∀ id el, tree.element? id = some el → el.marks.root = false ∧ el.once = false) ∧
      ∃ plain hoisting, (generate Web.options tree).result = .ok plain ∧
        (generate Web.options (tree.optimize Web.options)).result = .ok hoisting ∧
        hoisting.hoisted.length = 1 ∧
        hoisting.main.expand (expandBodies [] hoisting.hoisted) = plain.main ∧
        plain.hoisted = [] := by
  have hcheck : ((parse Web.options "<div><p>x<b>y</b></p>{{ z }}</div>").result.toOption.any
      fun tree => (List.range tree.nodes.size).all (fun id =>
          (tree.element? id).all fun el => !el.marks.root && !el.once) &&
        ((generate Web.options (tree.optimize Web.options)).result.toOption.any
          fun bodies => bodies.hoisted.length = 1)) = true := by decide +kernel
  obtain ⟨tree, htree, hcheck⟩ := exists_ok_of_any hcheck
  rw [Bool.and_eq_true] at hcheck
  have hplain : ∀ id el, tree.element? id = some el → el.marks.root = false ∧ el.once = false := by
    intro id el hel
    have hid : id ∈ List.range tree.nodes.size := mem_range.mpr (Ast.lt_size_of_element? hel)
    have helement := List.all_eq_true.mp hcheck.1 id hid
    rw [hel] at helement
    simpa using helement
  obtain ⟨plain, hoisting, hp, hh, hexpand, hnone⟩ :=
    generate_optimize_expand Web.options (fun _ hm => hm) tree hplain
  rw [hh] at hcheck
  exact ⟨tree, htree, hplain, plain, hoisting, hp, hh, of_decide_eq_true hcheck.2, hexpand, hnone⟩

end TemplateCompiler
