import TemplateCompiler.Proofs.Wrapping

/-!
# Which elements are rendered

Every piece of code that is written for an element carries the number of the element
(`Code.elements`). Not everything that an element links to is in its code: a scoped slot goes into
the data object, which some elements do not have; a chain ends at its first branch without a
condition; and an inline template is its first child. `Ast.Renders` says what is in it, and
`Ast.Rendered` follows that relation down from a node.

Main result: `generate_rendered`. In the main body and the hoisted bodies together there is exactly
one piece for each rendered element, and none for any other node. If nothing is reported on the way,
then each inline template that was written is one element.

The elements in some code and in the bodies that were added with it are listed together, so moving
code into a body changes nothing. They make a layout of the code of a tree (`renderLayout`).
-/

namespace TemplateCompiler

open List Condition

variable {chained : Bool} {code code' : Code} {new' first second codes : List Code}
  {nodes : List NodeId}

/-! ## Elements in code -/

namespace Code

mutual

/-- The elements whose own code is in a piece, also inside inline templates. -/
def elements : Code → List NodeId
  | .text _ => []
  | .append first second => first.elements ++ second.elements
  | .element id code => id :: code.elements
  | .hoisted _ _ _ => []
  | .loop _ _ _ body => body.elements
  | .condition _ _ _ shown otherwise => shown.elements ++ otherwise.elements
  | .once body _ _ => body.elements
  | .scopedSlot _ _ _ body => body.elements
  | .inlineTemplate body bodies => body.elements ++ elementsAll bodies

def elementsAll : List Code → List NodeId
  | [] => []
  | code :: rest => code.elements ++ elementsAll rest

end

theorem elementsAll_append :
    elementsAll (first ++ second) = elementsAll first ++ elementsAll second := by
  induction first with
  | nil => rfl
  | cons code rest ih => simp [elementsAll, ih]

theorem elementsAll_eq : elementsAll codes = codes.flatMap elements := by
  induction codes with
  | nil => rfl
  | cons code rest ih => rw [elementsAll, ih, flatMap_cons]

theorem elements_additive : Additive elements where
  text _ := rfl
  append _ _ := rfl

end Code

def Bodies.elements (b : Bodies) : List NodeId := b.main.elements ++ Code.elementsAll b.hoisted

open Code (elementsAll)

/-! ## What an element renders -/

def Condition.reached : List Condition → List NodeId
  | [] => []
  | c :: rest => c.block :: if c.exp.isSome then reached rest else []

theorem Condition.reached_subset (chain : List Condition) :
    reached chain ⊆ chain.map (·.block) := by
  induction chain with
  | nil => exact fun _ hc => hc
  | cons c rest ih =>
    refine cons_subset_cons _ ?_
    split
    · exact ih
    · exact nil_subset _

namespace Ast

/-- The code of the node `c` is in the code of the element `p`. -/
inductive Renders (a : Ast) (p c : NodeId) : Prop
  /-- A child, unless the content of the element is an inline template. -/
  | child {el : Element} (hel : a.element? p = some el) (hc : c ∈ el.children)
      (hinl : ¬ (a.MakesCall p el ∧ el.inlineTemplate))
  /-- The first child, as an inline template in the data object. -/
  | inline {el : Element} (hel : a.element? p = some el) (hc : c ∈ el.children.head?)
      (hdata : a.HasData p el) (hinl : el.inlineTemplate)
  /-- A scoped slot in the data object. -/
  | slot {el : Element} (hel : a.element? p = some el) (hc : c ∈ el.slotNodes)
      (hdata : a.HasData p el)
  /-- A branch of the chain that the chain gets to. The chain of a scoped slot that is a template is
  not written. -/
  | branch {el : Element} (hel : a.element? p = some el)
    (hc : c ∈ Condition.reached el.conditions.tail)
      (hslot : ¬ (a.IsSlot p ∧ el.tag = "template"))

def Rendered (a : Ast) (id x : NodeId) : Prop :=
  (a.element? x).isSome ∧ Relation.ReflTransGen a.Renders id x

/-- What an element renders besides the other branches of its chain. -/
def Content (a : Ast) (p : NodeId) (el : Element) (c : NodeId) : Prop :=
  a.Renders p c ∧ c ∉ el.branchNodes

/-- The content of an element that is written as an inline template is one element. -/
def InlineSound (a : Ast) (x : NodeId) : Prop :=
  ∀ el, a.element? x = some el → a.HasData x el → el.inlineTemplate →
    el.children.length = 1 ∧ Gen.startsWithElement a el

def SoundBelow (a : Ast) (id : NodeId) : Prop := ∀ y, a.Rendered id y → a.InlineSound y

variable {a : Ast} {p c x y : NodeId} {el : Element}

theorem Renders.mem_links (h : a.Renders p c) : c ∈ a.links p := by
  cases h with
  | child hel hc _ => exact Gen.mem_links_of_child hel hc
  | inline hel hc _ _ => exact Gen.mem_links_of_child hel (mem_of_mem_head? hc)
  | slot hel hc _ => exact Gen.mem_links_of_slot hel hc
  | branch hel hc _ =>
    exact Gen.mem_links_of_branch hel (reached_subset _ hc)

theorem Rendered.below (h : a.Rendered p x) : a.Below p x :=
  Relation.ReflTransGen.mono (fun _ _ (hr : a.Renders _ _) => hr.mem_links) _ _ h.2

theorem rendered_iff (hel : a.element? x = some el) :
    a.Rendered x y ↔ y = x ∨ ∃ c, a.Renders x c ∧ a.Rendered c y := by
  constructor
  · rintro ⟨hy, hpath⟩
    rcases Relation.ReflTransGen.cases_head hpath with rfl | ⟨c, hc, hrest⟩
    · exact .inl rfl
    · exact .inr ⟨c, hc, hy, hrest⟩
  · rintro (rfl | ⟨c, hc, hy, hrest⟩)
    · exact ⟨by rw [hel]; rfl, .refl⟩
    · exact ⟨hy, .head hc hrest⟩

theorem not_rendered (hnone : a.element? x = none) : ¬ a.Rendered x y := by
  rintro ⟨hy, hpath⟩
  rcases Relation.ReflTransGen.cases_head hpath with rfl | ⟨c, hc, -⟩
  · rw [hnone] at hy
    cases hy
  · obtain ⟨el, hel, -⟩ := exists_element_of_mem_links hc.mem_links
    rw [hnone] at hel
    cases hel

theorem soundBelow_iff (hel : a.element? x = some el) :
    a.SoundBelow x ↔ a.InlineSound x ∧ ∀ c, a.Renders x c → a.SoundBelow c := by
  constructor
  · intro h
    exact ⟨h x ((rendered_iff hel).mpr (.inl rfl)), fun c hc y hy =>
      h y ((rendered_iff hel).mpr (.inr ⟨c, hc, hy⟩))⟩
  · rintro ⟨hself, hrest⟩ y hy
    rcases (rendered_iff hel).mp hy with rfl | ⟨c, hc, hy⟩
    · exact hself
    · exact hrest c hc y hy

section

variable (hwf : a.WellFormed) (hel : a.element? x = some el)

include hwf hel

theorem content_iff : a.Content x el c ↔ a.Shows x el c := by
  have hapart : ∀ c ∈ el.children ++ el.slotNodes, c ∉ el.branchNodes := fun c hc hc' =>
    (nodup_append.mp (hwf.fits x el hel).linkedOnce).2.2 c hc c hc' rfl
  have hchild (hc : c ∈ el.children) : c ∉ el.branchNodes :=
    hapart c (mem_append_left _ hc)
  constructor
  · rintro ⟨hrenders, hbr⟩
    cases hrenders with
    | child hel' hc hinl =>
      cases hel.symm.trans hel'
      exact .inl ⟨hc, hinl⟩
    | inline hel' hc hdata hinl =>
      cases hel.symm.trans hel'
      exact .inr ⟨hdata, .inr ⟨hinl, hc⟩⟩
    | slot hel' hc hdata =>
      cases hel.symm.trans hel'
      exact .inr ⟨hdata, .inl hc⟩
    | branch hel' hc _ =>
      cases hel.symm.trans hel'
      exact absurd (reached_subset _ hc) hbr
  · rintro (⟨hc, hinl⟩ | ⟨hdata, hc | ⟨hinl, hc⟩⟩)
    · exact ⟨.child hel hc hinl, hchild hc⟩
    · exact ⟨.slot hel hc hdata, hapart c (mem_append_right _ hc)⟩
    · exact ⟨.inline hel hc hdata hinl, hchild (mem_of_mem_head? hc)⟩

/-- An element renders its content and the branches that its chain gets to. -/
theorem renders_iff : a.Renders x c ↔ a.Content x el c ∨
      (c ∈ Condition.reached el.conditions.tail ∧ ¬ (a.IsSlot x ∧ el.tag = "template")) := by
  constructor
  · intro h
    cases h with
    | child hel' hc hinl =>
      cases hel.symm.trans hel'
      exact .inl ((content_iff hwf hel).mpr (.inl ⟨hc, hinl⟩))
    | inline hel' hc hdata hinl =>
      cases hel.symm.trans hel'
      exact .inl ((content_iff hwf hel).mpr (.inr ⟨hdata, .inr ⟨hinl, hc⟩⟩))
    | slot hel' hc hdata =>
      cases hel.symm.trans hel'
      exact .inl ((content_iff hwf hel).mpr (.inr ⟨hdata, .inl hc⟩))
    | branch hel' hc hslot =>
      cases hel.symm.trans hel'
      exact .inr ⟨hc, hslot⟩
  · rintro (h | ⟨hc, hslot⟩)
    · exact h.1
    · exact .branch hel hc hslot

end

end Ast

/-! ## Lists of elements -/

/-- Each node of a set is in the list once, and nothing else is. -/
structure Lists (shown : NodeId → Prop) (ids : List NodeId) : Prop where
  nodup : ids.Nodup
  mem : ∀ y, y ∈ ids ↔ shown y

namespace Lists

variable {shown shown' : NodeId → Prop} {ids ids' : List NodeId}

theorem nil : Lists (fun _ => False) [] := ⟨nodup_nil, fun _ => by simp⟩

theorem congr (h : Lists shown ids) (heq : ∀ y, shown y ↔ shown' y) : Lists shown' ids :=
  ⟨h.nodup, fun y => (h.mem y).trans (heq y)⟩

theorem perm (h : Lists shown ids) (hperm : ids.Perm ids') : Lists shown ids' :=
  ⟨hperm.nodup_iff.mp h.nodup, fun y => hperm.mem_iff.symm.trans (h.mem y)⟩

theorem append (h : Lists shown ids) (h' : Lists shown' ids')
    (hapart : ∀ y, shown y → ¬ shown' y) : Lists (fun y => shown y ∨ shown' y) (ids ++ ids') := by
  refine ⟨nodup_append.mpr ⟨h.nodup, h'.nodup, ?_⟩, fun y => ?_⟩
  · rintro y hy _ hy' rfl
    exact hapart y ((h.mem y).mp hy) ((h'.mem y).mp hy')
  · rw [mem_append, h.mem, h'.mem]

/-- Two lists in two parts each, with the first parts together and the second ones. -/
theorem interleave {new new' : List NodeId} (h : Lists shown (ids ++ new))
    (h' : Lists shown' (ids' ++ new')) (hapart : ∀ y, shown y → ¬ shown' y) :
    Lists (fun y => shown y ∨ shown' y) ((ids ++ ids') ++ (new ++ new')) := by
  refine (h.append h' hapart).perm ?_
  rw [List.append_assoc, List.append_assoc]
  refine (Perm.refl _).append ?_
  rw [← List.append_assoc, ← List.append_assoc]
  exact perm_append_comm.append_right _

theorem cons {x : NodeId} (h : Lists shown ids) (hx : ¬ shown x) :
    Lists (fun y => y = x ∨ shown y) (x :: ids) := by
  refine ⟨nodup_cons.mpr ⟨fun hmem => hx ((h.mem x).mp hmem), h.nodup⟩, fun y => ?_⟩
  rw [mem_cons, h.mem]

end Lists

/-! ## The layout -/

namespace Ast

variable (a : Ast) (x : NodeId)

/-- What is rendered in an element besides the other branches of its chain. -/
def Own (y : NodeId) : Prop :=
  y = x ∨ ∃ el c, a.element? x = some el ∧ a.Content x el c ∧ a.Rendered c y

/-- All inline templates in an element are sound, the other branches of its chain left out. -/
def OwnSound : Prop :=
  a.InlineSound x ∧ ∀ el c, a.element? x = some el → a.Content x el c → a.SoundBelow c

end Ast

namespace Gen

/-- The elements in some code, and in the bodies that were added with it, are those of `shown`, each
once. And if nothing was reported, then `sound` holds. -/
structure Listed (shown : NodeId → Prop) (sound : Prop) (later : Later) (new : List Code)
    (code : Code) : Prop where
  lists : Lists shown (code.elements ++ elementsAll new)
  sound : later.errors = [] → sound

namespace Listed

variable {shown shown' : NodeId → Prop} {sound sound' : Prop} {later : Later}
  {new new' : List Code} {code code' : Code}

theorem congr (h : Listed shown sound later new code) (hshown : ∀ y, shown y ↔ shown' y)
    (hsound : sound → sound') : Listed shown' sound' later new code :=
  ⟨h.lists.congr hshown, fun hnone => hsound (h.sound hnone)⟩

theorem perm (h : Listed shown sound later new code)
    (hperm : (code.elements ++ elementsAll new).Perm (code'.elements ++ elementsAll new')) :
    Listed shown sound later new' code' :=
  ⟨h.lists.perm hperm, h.sound⟩

theorem hoisted (h : Listed shown sound later new code) (x : NodeId) (i : Nat) (inLoop : Bool) :
    Listed shown sound later (new ++ [code]) (.hoisted x i inLoop) := by
  refine h.perm ?_
  rw [Code.elementsAll_append, elementsAll, elementsAll, append_nil]
  exact perm_append_comm

theorem condition (h : Listed shown sound later new code)
    (h' : Listed shown' sound' later new' code') (hapart : ∀ y, shown y → ¬ shown' y)
    (x block : NodeId) (exp : String) :
    Listed (fun y => shown y ∨ shown' y) (sound ∧ sound') later (new ++ new')
      (.condition x block exp code code') := by
  refine ⟨?_, fun hnone => ⟨h.sound hnone, h'.sound hnone⟩⟩
  rw [Code.elementsAll_append]
  exact h.lists.interleave h'.lists hapart

end Listed

def Stage (a : Ast) : Bool → NodeId → Fact
  | true, x => Listed (a.Rendered x) (a.SoundBelow x)
  | false, x => Listed (a.Own x) (a.OwnSound x)

/-- The elements in code, by the node that the code is for. -/
def renderLayout (a : Ast) : Layout where
  node := Stage a
  body _ _ _ := True
  bare := Stage a false
  self := Stage a
  beside _ chain := Listed (fun y => ∃ c ∈ Condition.reached chain, a.Rendered c y)
    (∀ c ∈ Condition.reached chain, a.SoundBelow c)

variable {a : Ast} {x : NodeId} {el : Element} {later : Later} {new : List Code}

theorem Stage.perm (h : Stage a chained x later new code)
    (hperm : (code.elements ++ elementsAll new).Perm (code'.elements ++ elementsAll new')) :
    Stage a chained x later new' code' := by
  cases chained with
  | false => exact Listed.perm h hperm
  | true => exact Listed.perm h hperm

theorem Stage.putLoop (h : Stage a chained x later new code) :
    Stage a chained x later new (putLoop x el code) := by
  refine h.perm (.of_eq ?_)
  unfold Gen.putLoop
  cases el.loop <;> rfl

theorem Stage.hoisted (h : Stage a chained x later new code) (i : Nat)
    (inLoop : Bool) : Stage a chained x later (new ++ [code]) (.hoisted x i inLoop) := by
  cases chained with
  | false => exact Listed.hoisted h x i inLoop
  | true => exact Listed.hoisted h x i inLoop

theorem listed_of_enters {c : NodeId} (h : (renderLayout a).Enters c later new code) :
    Listed (a.Rendered c) (a.SoundBelow c) later new code := by
  cases h with
  | node h => exact h
  | inline h _ =>
    refine ⟨?_, h.sound⟩
    show Lists _ ((_ ++ _) ++ [])
    rw [append_nil]
    exact h.lists

theorem lists_of_fills (hwf : a.WellFormed) (hlinks : nodes ⊆ a.links x) (hnodup : nodes.Nodup)
    (h : Fills (renderLayout a).Enters later nodes new codes) :
    Lists (fun y => ∃ c ∈ nodes, a.Rendered c y) (elementsAll codes ++ elementsAll new) ∧
      (later.errors = [] → ∀ c ∈ nodes, a.SoundBelow c) := by
  induction h with
  | nil => exact ⟨Lists.nil.congr fun y => by simp, nofun⟩
  | cons h _ ih =>
    obtain ⟨hrest, hsound⟩ := ih (fun d hd => hlinks (mem_cons_of_mem _ hd)) hnodup.of_cons
    have hcode := listed_of_enters h
    refine ⟨?_, fun hnone => forall_mem_cons.mpr ⟨hcode.sound hnone, hsound hnone⟩⟩
    rw [Code.elementsAll_append]
    refine (hcode.lists.interleave hrest fun y hy => ?_).congr fun y => by simp
    rintro ⟨d, hd, hy'⟩
    exact under_apart_head hwf hlinks hnodup y hy.below ⟨d, hd, hy'.below⟩

section

variable (hel : a.element? x = some el)

include hel

theorem own_iff {y : NodeId} : a.Own x y ↔ y = x ∨ ∃ c, a.Content x el c ∧ a.Rendered c y := by
  simp [Ast.Own, hel]

theorem Stage.complete (hrenders : ∀ c, a.Renders x c ↔ a.Content x el c)
    (h : Stage a false x later new code) : Stage a true x later new code := by
  refine Listed.congr h (fun y => ?_) fun hsound => (Ast.soundBelow_iff hel).mpr ⟨hsound.1, ?_⟩
  · rw [own_iff hel, Ast.rendered_iff hel]
    simp only [hrenders]
  · exact fun c hc => hsound.2 el c hel ((hrenders c).mp hc)

variable (hwf : a.WellFormed)

include hwf

theorem stage_element (hfilled : a.FilledBy x el nodes)
    (hmade : Made (renderLayout a).Enters nodes later new [code])
    (hsound : a.HasData x el → el.inlineTemplate → Unreported a el later) :
    Stage a false x later new (.element x code) := by
  obtain ⟨parts, hfills, hparts⟩ := hmade
  have hcode : code.elements = elementsAll parts := by
    rw [Code.elementsAll_eq]
    exact (flatMap_singleton _ _).symm.trans (hparts Code.elements_additive)
  have hlinks : nodes ⊆ a.links x := fun c hc =>
    (mem_append.mp (hfilled.linked.subset hc)).elim (fun hc => mem_links_of_slot hel hc)
      fun hc => mem_links_of_child hel hc
  have hnodup : nodes.Nodup := hfilled.linked.nodup
    (nodup_append_comm.mp (nodup_append.mp (hwf.fits x el hel).linkedOnce).1)
  obtain ⟨hlists, hnodes⟩ := lists_of_fills hwf hlinks hnodup hfills
  -- a node in which nothing is rendered need not be shown
  have hcont {c y : NodeId} (hy : a.Rendered c y) : c ∈ nodes ↔ a.Content x el c := by
    rw [Ast.content_iff hwf hel]
    refine hfilled.mem c (Option.isSome_iff_ne_none.mpr fun hnone => ?_)
    exact Ast.not_rendered hnone hy
  refine ⟨?_, fun hnone => ⟨fun el' hel' hdata hinl => ?_, fun el' c hel' hc y hy => ?_⟩⟩
  · show Lists _ ((x :: code.elements) ++ elementsAll new)
    rw [hcode]
    refine (hlists.cons ?_).congr fun y => ?_
    · rintro ⟨c, hc, hx⟩
      exact hwf.not_below_link (hlinks hc) hx.below
    · rw [own_iff hel]
      exact or_congr_right (exists_congr fun c => and_congr_left hcont)
  · cases hel.symm.trans hel'
    exact hsound hdata hinl hnone
  · cases hel.symm.trans hel'
    exact hnodes hnone c ((hcont hy).mpr hc) y hy

/-- The chain of an element has the element and the branches that it gets to. -/
theorem stage_chain {exp : String} {rest : List Condition}
    (hslot : ¬ (a.IsSlot x ∧ el.tag = "template"))
    (hconds : el.conditions = ⟨some exp, x⟩ :: rest) (h : Stage a false x later new code)
    (hrest : (renderLayout a).beside x rest later new' code') :
    Stage a true x later (new ++ new') (.condition x x exp code code') := by
  have hrenders (c : NodeId) : a.Renders x c ↔ a.Content x el c ∨ c ∈ Condition.reached rest := by
    rw [Ast.renders_iff hwf hel, and_iff_left hslot, hconds]
    rfl
  refine (Listed.condition h hrest ?_ x x exp).congr (fun y => ?_) ?_
  · rintro y hy ⟨d, hd, hy'⟩
    have hlink := ((hrenders d).mpr (.inr hd)).mem_links
    rcases (own_iff hel).mp hy with rfl | ⟨c, hc, hy⟩
    · exact hwf.not_below_link hlink hy'.below
    · refine hwf.below_apart hc.1.mem_links hlink ?_ hy.below hy'.below
      rintro rfl
      refine hc.2 ?_
      rw [Element.branchNodes, hconds]
      exact reached_subset rest hd
  · rw [own_iff hel, Ast.rendered_iff hel]
    simp only [hrenders, or_and_right, exists_or, or_assoc]
  · rintro ⟨⟨hself, hcont⟩, hoth⟩
    refine (Ast.soundBelow_iff hel).mpr ⟨hself, fun c hc => ?_⟩
    rcases (hrenders c).mp hc with hc | hc
    · exact hcont el c hel hc
    · exact hoth c hc

theorem renderLayout_holds : (renderLayout a).Holds a x el := by
  have honce {later : Later} {new : List Code} {code : Code} {number : Nat} {key : String}
      (h : Stage a false x later new code) : Stage a false x later new (.once code number key) :=
    h.perm .rfl
  constructor
  case lower => exact fun _ _ => trivial
  case element =>
    exact fun hfilled hmade hdata => stage_element hel hwf hfilled hmade fun h => (hdata h).1
  case ofBare => exact fun h => h
  case lone =>
    intro later new code hnone
    have hrenders (c : NodeId) : a.Renders x c ↔ a.Content x el c := by
      have hchain := (hwf.fits x el hel).chain
      rw [hnone] at hchain
      rw [Ast.renders_iff hwf hel, head?_eq_none_iff.mp hchain]
      simp [Condition.reached]
    exact ⟨Stage.complete hel hrenders, Stage.complete hel hrenders⟩
  case template =>
    intro later new code hslot htag h
    have hrenders (c : NodeId) : a.Renders x c ↔ a.Content x el c := by
      rw [Ast.renders_iff hwf hel]
      exact or_iff_left fun h => h.2 ⟨hslot, htag⟩
    refine (Stage.complete hel hrenders h).perm (.of_eq ?_)
    cases el.ifExp with
    | none => rfl
    | some exp =>
      show _ = (code.elements ++ []) ++ elementsAll new
      rw [append_nil]
  case ending => exact ⟨Lists.nil.congr fun y => by simp [Condition.reached], fun _ => nofun⟩
  case last =>
    intro block rest later new code _ h
    exact Listed.congr h (fun y => by simp [Condition.reached]) fun hsound => by
      simpa [Condition.reached] using hsound
  case further =>
    intro block rest later new new' exp code code' hbrs _ h hrest
    have hlinks := List.Subset.trans hbrs.subset (mem_links_of_branch hel)
    have hnodup := hbrs.nodup (nodup_append.mp (hwf.fits x el hel).linkedOnce).2.1
    refine (Listed.condition h hrest ?_ x block exp).congr
      (fun y => by simp [Condition.reached]) fun hsound => by simpa [Condition.reached] using hsound
    rintro y hy ⟨d, hd, hy'⟩
    exact under_apart_head hwf hlinks hnodup y (Ast.Rendered.below hy)
      ⟨d, reached_subset rest hd, hy'.below⟩
  case selfOnce => exact honce
  case nodeOnce => exact honce
  case selfChain => exact fun _ hslot hconds => stage_chain hel hwf hslot hconds
  case nodeChain =>
    exact fun hslot _ _ hconds => stage_chain hel hwf (fun h => hslot h.1) hconds
  case alone =>
    intro later new code _ _ _ h
    have hbare : Stage a false x later new code := h
    exact ⟨trivial, fun i _ => hbare.hoisted i _⟩
  case hoist =>
    intro chained later new code _ hcase
    have hself : Stage a chained x later new code := by
      rcases hcase with ⟨-, h⟩ | ⟨rfl, -, -, h⟩
      · exact h
      · exact h
    exact ⟨trivial, fun i _ => Stage.hoisted (Stage.putLoop hself) i _⟩
  case plain => exact fun _ _ h => Stage.putLoop h
  case slot =>
    intro later new code key scope _ h
    have hself : Stage a true x later new (.scopedSlot x key scope code) := Stage.perm h .rfl
    exact hself.putLoop

end

end Gen

/-- In the code of a tree there is one piece for each element that is rendered from the root, and
none for any other. If nothing is reported, then each inline template in it is one element. -/
theorem generate_rendered {o : Options} {a : Ast} {root : NodeId} (ho : o.WebModules)
    (hwf : a.WellFormed) (hroots : ∀ y, a.IsRoot y → ¬ a.IsSlot y) (hroot : a.root = some root)
    (hunl : ∀ i, root ∉ a.links i) :
    ∃ bodies, (generate o a).result = .ok bodies ∧ Lists (a.Rendered root) bodies.elements ∧
      ((generate o a).notes.errors = [] → a.SoundBelow root) := by
  have htext (x : NodeId) (hnone : a.element? x = none) (later : Gen.Later) (source : String) :
      (Gen.renderLayout a).node true x later [] (.text source) :=
    ⟨Lists.nil.congr fun y => by simp [Ast.not_rendered hnone],
      fun _ y hy => absurd hy (Ast.not_rendered hnone)⟩
  obtain ⟨bodies, hbodies, hmain, -⟩ := Gen.generate_emits ho hwf hroots
    (fun x el _ hel => Gen.renderLayout_holds hel hwf) htext hroot hunl
  exact ⟨bodies, hbodies, hmain.lists, hmain.sound⟩

end TemplateCompiler
