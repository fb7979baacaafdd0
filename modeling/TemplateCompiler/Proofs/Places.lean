import TemplateCompiler.Proofs.Wrapping

/-!
# The loops around a place in generated code

Two things in generated code say that they are in a loop: a use of a hoisted body, and an element
with a reference. `Code.places` lists where they stand, each with the elements whose loops are
around it there, and this file says which loops those can be.

An element is entered from `Outside`: all loops of elements above it are around, unless something on
the way was hoisted out of them (`Ast.Cuts`). What is in it stands `Inside`, where its own loop is
around as well. The later branches of its chain are in between (`Beside`): they are not below the
element, but its loop may be around them. These are the places of a layout (`placeLayout`), so all
places in the code of a tree are allowed (`generate_places`).
-/

namespace TemplateCompiler

open List

/-- A place in generated code, with the text that stands there and the elements whose loops are
around it in its function. -/
inductive Place where
  /-- The code of an element itself. -/
  | element (id : NodeId) (text : String) (loops : List NodeId)
  /-- The use of the hoisted body of an element. -/
  | hoisted (id : NodeId) (text : String) (loops : List NodeId)
  deriving DecidableEq

namespace Place

def node : Place → NodeId
  | .element id _ _ => id
  | .hoisted id _ _ => id

/-- The elements whose loops are around the place, innermost first. -/
def loops : Place → List NodeId
  | .element _ _ loops => loops
  | .hoisted _ _ loops => loops

end Place

namespace Code

mutual

/-- The places in the code, inside the loops of some elements. The template of an element is written
inside the loops around the element, and a hoisted body in a function of its own. -/
def places (loops : List NodeId) : Code → List Place
  | .text _ => []
  | .append first second => first.places loops ++ second.places loops
  | .element id code => .element id code.render loops :: code.places loops
  | .hoisted id index inLoop => [.hoisted id (Code.hoisted id index inLoop).render loops]
  | .loop id _ _ body => body.places (id :: loops)
  | .condition _ _ _ shown otherwise => shown.places loops ++ otherwise.places loops
  | .once body _ _ => body.places loops
  | .scopedSlot _ _ _ body => body.places loops
  | .inlineTemplate body bodies => body.places loops ++ placesAll bodies

def placesAll : List Code → List Place
  | [] => []
  | code :: rest => code.places [] ++ placesAll rest

end

theorem mem_placesAll {p : Place} {codes : List Code} :
    p ∈ placesAll codes ↔ ∃ code ∈ codes, p ∈ code.places [] := by
  induction codes with
  | nil => simp [placesAll]
  | cons code rest ih => simp [placesAll, ih]

theorem places_additive (loops : List NodeId) : Additive (places loops) where
  text _ := rfl
  append _ _ := rfl

end Code

def Bodies.places (b : Bodies) : List Place := b.main.places [] ++ Code.placesAll b.hoisted

/-! ## Which loops may be around -/

namespace Ast

variable {a : Ast} {x c r y : NodeId} {el : Element} {loops : List NodeId}

/-- The element `z` may be hoisted out of the loop of `y`: as a static root, or to be rendered once,
if `y` is above it or if its own loop is put around it first, as for a scoped slot. -/
def Cuts (a : Ast) (z y : NodeId) : Prop :=
  ∃ el, a.element? z = some el ∧ (el.marks.root ∨
    (el.once ∧ el.marks.inLoop = false ∧ (a.IsSlot z ∨ y ∈ a.ancestors z)))

/-- A static root without a condition, which has all that is below it in its body. -/
def PlainRoot (a : Ast) (r : NodeId) : Prop :=
  ∃ el, a.element? r = some el ∧ el.marks.root ∧ el.ifExp = none

/-- The loops are those of elements from which links lead to `x`, and if `x` is in the body of a
static root then so are they. -/
structure LoopsOver (a : Ast) (x : NodeId) (loops : List NodeId) : Prop where
  listed : ∀ y ∈ loops, a.HasLoop y ∧ a.Below y x
  roots : ∀ r, a.PlainRoot r → a.Below r x → r ≠ x → ∀ y ∈ loops, a.Below r y

/-- The loops around an element that is entered. Something is known about those above it only if it
is marked as being in a loop. -/
structure Outside (a : Ast) (x : NodeId) (inLoop : Bool) (loops : List NodeId) : Prop
    extends LoopsOver a x loops where
  above : inLoop → ∀ y ∈ a.ancestors x, a.HasLoop y →
    y ∈ loops ∨ ∃ z, z ≠ x ∧ a.Below z x ∧ a.Cuts z y

/-- The loops around the chain of an element. -/
structure Beside (a : Ast) (x : NodeId) (loops : List NodeId) : Prop
    extends LoopsOver a x loops where
  above : ∀ y ∈ a.ancestors x, a.HasLoop y → y ∈ loops ∨ ∃ z, a.Below z x ∧ a.Cuts z y

/-- The loops around what is in an element. -/
structure Inside (a : Ast) (x : NodeId) (loops : List NodeId) : Prop
    extends Beside a x loops where
  ownRoot : a.PlainRoot x → ∀ y ∈ loops, a.Below x y
  ownLoop : a.HasLoop x → x ∈ loops ∨ ∃ z, a.Below z x ∧ a.Cuts z x

/-- What is to hold of a place: its element is below the root, the loops around it are as they may
be, an element writes its reference, and a hoisted one is marked as it says itself. -/
def Allows (a : Ast) (root : NodeId) : Place → Prop
  | .element x text loops => a.Below root x ∧ a.Inside x loops ∧
    ∀ el ref, a.element? x = some el → el.ref = some ref → a.HasData x el →
      el.CallsWith ref el.refInLoop text
  | .hoisted x text loops => a.Below root x ∧ ∃ el index, a.element? x = some el ∧
    text = (Code.hoisted x index el.marks.inLoop).render ∧ a.Outside x el.marks.inLoop loops

theorem Outside.weaken (h : a.Outside x true loops) (inLoop : Bool) : a.Outside x inLoop loops :=
  ⟨h.toLoopsOver, fun _ => h.above rfl⟩

theorem Outside.beside (h : a.Outside x true loops) : a.Beside x loops := by
  refine ⟨h.toLoopsOver, fun y hy hloop => ?_⟩
  exact (h.above rfl y hy hloop).imp_right fun ⟨z, _, hz⟩ => ⟨z, hz⟩

theorem Beside.outside (h : a.Beside x loops) : a.Outside x false loops := ⟨h.toLoopsOver, nofun⟩

/-- What leads to a linked node by other links than the last one leads to the node before it. -/
theorem WellFormed.below_of_below_link (hwf : a.WellFormed) (hc : c ∈ a.links x)
    (hr : a.Below r c) (hne : r ≠ c) : a.Below r x := by
  rcases Relation.ReflTransGen.cases_tail hr with heq | ⟨i, hi, hlink⟩
  · exact absurd heq.symm hne
  · rwa [← hwf.owner c i x hlink hc]

theorem Inside.child (h : a.Inside x loops) (hwf : a.WellFormed) (hel : a.element? x = some el)
    (hc : c ∈ el.children ∨ c ∈ el.slotNodes) : a.Outside c true loops := by
  have hlink : c ∈ a.links x := by
    rw [links_eq hel]
    exact Element.mem_links.mpr (.inl hc)
  refine ⟨⟨fun y hy => ?_, fun r hr hrc hne y hy => ?_⟩, fun _ y hy hloop => ?_⟩
  · exact ⟨(h.listed y hy).1, .tail (h.listed y hy).2 hlink⟩
  · have hrx := hwf.below_of_below_link hlink hrc hne
    by_cases heq : r = x
    · subst heq
      exact h.ownRoot hr y hy
    · exact h.roots r hr hrx heq y hy
  · have hcut : y ∈ loops ∨ ∃ z, a.Below z x ∧ a.Cuts z y := by
      rw [ancestors_of_parent hwf ((hwf.fits x el hel).innerParent hc)] at hy
      rcases mem_cons.mp hy with rfl | hy
      · exact h.ownLoop hloop
      · exact h.above y hy hloop
    rcases hcut with hmem | ⟨z, hz, hcuts⟩
    · exact .inl hmem
    · refine .inr ⟨z, ?_, .tail hz hlink, hcuts⟩
      rintro rfl
      exact hwf.not_below_link hlink hz

theorem Beside.branch (h : a.Beside x loops) (hwf : a.WellFormed) (hel : a.element? x = some el)
    (hc : c ∈ el.branchNodes) : a.Outside c true loops := by
  have hlink : c ∈ a.links x := by
    rw [links_eq hel]
    exact Element.branch_link hc
  have hancs : a.ancestors c = a.ancestors x :=
    ancestors_of_parent_eq hwf ((hwf.fits x el hel).branchParent c hc)
  refine ⟨⟨fun y hy => ?_, fun r hr hrc hne y hy => ?_⟩, fun _ y hy hloop => ?_⟩
  · exact ⟨(h.listed y hy).1, .tail (h.listed y hy).2 hlink⟩
  · refine h.roots r hr (hwf.below_of_below_link hlink hrc hne) ?_ y hy
    -- an element with branches has a condition
    rintro rfl
    obtain ⟨el', hel', -, hif⟩ := hr
    cases hel.symm.trans hel'
    have hchain := (hwf.fits r el hel).chain
    rw [hif] at hchain
    rw [Element.branchNodes, head?_eq_none_iff.mp hchain] at hc
    cases hc
  · rw [hancs] at hy
    rcases h.above y hy hloop with hmem | ⟨z, hz, hcuts⟩
    · exact .inl hmem
    · refine .inr ⟨z, ?_, .tail hz hlink, hcuts⟩
      rintro rfl
      exact hwf.not_below_link hlink hz

def entered (x : NodeId) (el : Element) (loops : List NodeId) : List NodeId :=
  if el.loop.isSome then x :: loops else loops

theorem mem_entered (hel : a.element? x = some el) (hy : y ∈ entered x el loops) :
    (y = x ∧ a.HasLoop x) ∨ y ∈ loops := by
  unfold entered at hy
  split at hy
  · next hloop => exact (mem_cons.mp hy).imp_left fun heq => ⟨heq, el, hel, hloop⟩
  · exact .inr hy

theorem mem_entered_self (hel : a.element? x = some el) (hloop : a.HasLoop x) :
    x ∈ entered x el loops := by
  obtain ⟨el', hel', hsome⟩ := hloop
  cases hel.symm.trans hel'
  rw [entered, if_pos hsome]
  exact mem_cons_self

theorem mem_entered_of_mem (hy : y ∈ loops) : y ∈ entered x el loops := by
  unfold entered
  split
  · exact mem_cons_of_mem _ hy
  · exact hy

theorem Outside.inside (h : a.Outside x true loops) (hel : a.element? x = some el)
    (hroot : el.marks.root = false) : a.Inside x (entered x el loops) := by
  refine ⟨⟨⟨fun y hy => ?_, fun r hr hrx hne y hy => ?_⟩, fun y hy hloop => ?_⟩, fun hr => ?_,
    fun hloop => .inl (mem_entered_self hel hloop)⟩
  · rcases mem_entered hel hy with ⟨rfl, hloop⟩ | hy
    · exact ⟨hloop, .refl⟩
    · exact h.listed y hy
  · rcases mem_entered hel hy with ⟨rfl, -⟩ | hy
    · exact hrx
    · exact h.roots r hr hrx hne y hy
  · exact (h.above rfl y hy hloop).imp mem_entered_of_mem fun ⟨z, _, hz⟩ => ⟨z, hz⟩
  · obtain ⟨el', hel', hroot', -⟩ := hr
    cases hel.symm.trans hel'
    rw [hroot] at hroot'
    cases hroot'

theorem inside_alone (hel : a.element? x = some el)
    (hcut : el.marks.root ∨ (el.once ∧ el.marks.inLoop = false)) :
    a.Inside x (entered x el []) := by
  have hown {y : NodeId} (hy : y ∈ entered x el []) : y = x ∧ a.HasLoop x :=
    (mem_entered hel hy).resolve_right not_mem_nil
  refine ⟨⟨⟨fun y hy => ?_, fun r _ hrx _ y hy => ?_⟩, fun y hy _ => .inr ⟨x, .refl, el, hel, ?_⟩⟩,
    fun _ y hy => ?_, fun hloop => .inl (mem_entered_self hel hloop)⟩
  · obtain ⟨rfl, hloop⟩ := hown hy
    exact ⟨hloop, .refl⟩
  · rwa [(hown hy).1]
  · exact hcut.imp_right fun ⟨honce, hmark⟩ => ⟨honce, hmark, .inr hy⟩
  · rw [(hown hy).1]
    exact .refl

/-- If its own loop was put around it before, an element that is hoisted has no loop around what is
in it. -/
theorem inside_nil (hel : a.element? x = some el)
    (hcut : el.marks.root ∨ (el.once ∧ el.marks.inLoop = false ∧ a.IsSlot x)) :
    a.Inside x [] := by
  have hcuts (y : NodeId) : a.Cuts x y :=
    ⟨el, hel, hcut.imp_right fun ⟨honce, hmark, hslot⟩ => ⟨honce, hmark, .inl hslot⟩⟩
  exact ⟨⟨⟨nofun, fun _ _ _ _ => nofun⟩, fun y _ _ => .inr ⟨x, .refl, hcuts y⟩⟩, fun _ => nofun,
    fun _ => .inr ⟨x, .refl, hcuts x⟩⟩

end Ast

/-! ## The layout -/

/-- All places in the code are allowed, whenever the loops around it are as `around` says. -/
def Code.Shown (a : Ast) (root : NodeId) (around : List NodeId → Prop) (code : Code) : Prop :=
  ∀ loops, around loops → ∀ p ∈ code.places loops, a.Allows root p

namespace Code.Shown

variable {a : Ast} {root x : NodeId} {around around' : List NodeId → Prop} {code code' : Code}

theorem mono (h : code.Shown a root around) (haround : ∀ loops, around' loops → around loops) :
    code.Shown a root around' :=
  fun loops hloops => h loops (haround loops hloops)

theorem ofParts : Gen.BodyFact.OfParts fun _ => Code.Shown a root around := by
  intro bodies code codes hparts hcode loops hloops p hp
  rw [hcode (Code.places_additive loops)] at hp
  obtain ⟨part, hpart, hp⟩ := mem_flatMap.mp hp
  exact hparts part hpart loops hloops p hp

theorem text (source : String) : (Code.text source).Shown a root around := by
  intro loops _ p hp
  cases hp

theorem condition {chain block : NodeId} {exp : String} (h : code.Shown a root around)
    (h' : code'.Shown a root around) :
    (Code.condition chain block exp code code').Shown a root around := by
  intro loops hloops p hp
  rcases mem_append.mp hp with hp | hp
  · exact h loops hloops p hp
  · exact h' loops hloops p hp

theorem inlineTemplate {inner : List Code} (h : code.Shown a root around)
    (hinner : ∀ body ∈ inner, body.Shown a root (· = [])) :
    (Code.inlineTemplate code inner).Shown a root around := by
  intro loops hloops p hp
  rcases mem_append.mp hp with hp | hp
  · exact h loops hloops p hp
  · obtain ⟨body, hbody, hp⟩ := Code.mem_placesAll.mp hp
    exact hinner body hbody [] rfl p hp

theorem putLoop {el : Element} (h : code.Shown a root around)
    (haround : ∀ loops, around' loops → around (Ast.entered x el loops)) :
    (Gen.putLoop x el code).Shown a root around' := by
  intro loops hloops p hp
  refine h _ (haround loops hloops) p ?_
  unfold Gen.putLoop at hp
  unfold Ast.entered
  cases hloop : el.loop with
  | none =>
    rw [hloop] at hp
    exact hp
  | some head =>
    rw [hloop] at hp
    exact hp

end Code.Shown

namespace Gen

def placeLayout (a : Ast) (root : NodeId) : Layout where
  node _ x _ _ := Code.Shown a root (a.Outside x true)
  body _ _ := Code.Shown a root (· = [])
  bare x _ _ := Code.Shown a root (a.Inside x)
  self _ x _ _ := Code.Shown a root (a.Inside x)
  beside x _ _ _ := Code.Shown a root (a.Beside x)

variable {a : Ast} {root x : NodeId} {el : Element}

theorem placeLayout_holds (hwf : a.WellFormed) (hroots : ∀ y, a.IsRoot y → ¬ a.IsSlot y)
    (hbelow : a.Below root x) (hel : a.element? x = some el) :
    (placeLayout a root).Holds a x el := by
  -- where an element is entered, its hoisted body may be used
  have hhoist (i : Nat) {around : List NodeId → Prop}
      (haround : ∀ loops, around loops → a.Outside x el.marks.inLoop loops) :
      (Code.hoisted x i el.marks.inLoop).Shown a root around := by
    intro loops hloops p hp
    rw [mem_singleton.mp hp]
    exact ⟨hbelow, el, i, hel, rfl, haround loops hloops⟩
  constructor
  case lower => exact fun _ h => h
  case element =>
    intro later new code nodes hfilled hmade hdata loops hloops p hp
    have hinside : code.Shown a root (a.Inside x) := by
      refine hmade.ofParts Code.Shown.ofParts fun c hc new part hpart => ?_
      have hlinked := (mem_append.mp (hfilled.linked.subset hc)).symm
      cases hpart with
      | node h => exact h.mono fun _ hloops => hloops.child hwf hel hlinked
      | inline h hinner =>
        exact .inlineTemplate (h.mono fun _ hloops => hloops.child hwf hel hlinked) hinner
    -- the element stands where its code does, and all else in it comes from what is inside it
    rcases mem_cons.mp hp with rfl | hp
    · refine ⟨hbelow, hloops, fun el' ref hel' href hdata' => ?_⟩
      cases hel.symm.trans hel'
      exact (hdata hdata').2 ref href
    · exact hinside loops hloops p hp
  case ofBare => exact fun h => h
  case lone => exact fun _ => ⟨fun h => h, fun h => h⟩
  case template =>
    intro later new code _ _ h
    cases el.ifExp with
    | none => exact h
    | some exp => exact h.condition (.text _)
  case ending => exact .text _
  case last =>
    intro block rest later new code hc h
    exact h.mono fun _ hloops => hloops.branch hwf hel hc
  case further =>
    intro block rest later new new' exp code code' hc _ h hrest
    exact (h.mono fun _ hloops =>
      hloops.branch hwf hel (hc.subset mem_cons_self)).condition hrest
  case selfOnce => exact fun h => h
  case nodeOnce => exact fun h => h
  case selfChain =>
    intro rest later new new' exp code code' _ _ _ h hrest
    exact h.condition (hrest.mono fun _ hloops => hloops.toBeside)
  case nodeChain =>
    intro rest later new new' exp code code' _ _ _ _ h hrest
    exact h.condition (hrest.mono fun _ hloops => hloops.beside)
  case alone =>
    intro later new code honce hmark hcase h
    refine ⟨h.mono ?_, fun i _ => hhoist i fun loops hloops => ?_⟩
    · rintro loops rfl
      exact Ast.inside_nil hel (hcase.imp And.left fun hslot => ⟨honce, hmark, hslot⟩)
    · rw [hmark]
      exact hloops.toBeside.outside
  case hoist =>
    intro chained later new code hslot hcase
    have hself : code.Shown a root (a.Inside x) := hcase.elim And.right fun h => h.2.2.2
    refine ⟨hself.putLoop ?_, fun i _ => hhoist i fun _ hloops => hloops.weaken _⟩
    rintro loops rfl
    exact Ast.inside_alone hel (hcase.imp And.left fun h => ⟨h.2.1, h.2.2.1⟩)
  case plain =>
    intro chained later new code _ hroot h
    exact h.putLoop fun _ hloops => hloops.inside hel hroot
  case slot =>
    intro later new code key scope hslot h
    have hroot : el.marks.root = false :=
      Bool.eq_false_iff.mpr fun hroot => hroots x ⟨el, hel, hroot⟩ hslot
    have hself : (Code.scopedSlot x key scope code).Shown a root (a.Inside x) := h
    exact hself.putLoop fun _ hloops => hloops.inside hel hroot

end Gen

theorem generate_places {o : Options} {a : Ast} {root : NodeId} (ho : o.WebModules)
    (hwf : a.WellFormed) (hroots : ∀ y, a.IsRoot y → ¬ a.IsSlot y) (hroot : a.root = some root)
    (hpar : a.parent? root = none) (hunl : ∀ i, root ∉ a.links i) :
    ∃ bodies, (generate o a).result = .ok bodies ∧ ∀ p ∈ bodies.places, a.Allows root p := by
  have hholds (x : NodeId) (el : Element) (hbelow : a.Below root x) (hel : a.element? x = some el) :
      (Gen.placeLayout a root).Holds a x el := Gen.placeLayout_holds hwf hroots hbelow hel
  obtain ⟨bodies, hbodies, hmain, hhoist⟩ := Gen.generate_emits ho hwf hroots hholds
    (fun _ _ _ source => .text source) hroot hunl
  refine ⟨bodies, hbodies, fun p hp => ?_⟩
  rcases mem_append.mp hp with hp | hp
  · -- no loop is around the root, and none is above it
    refine hmain [] ⟨⟨nofun, fun _ _ _ _ => nofun⟩, fun _ y hy => ?_⟩ p hp
    rw [Ast.ancestors_of_no_parent hpar] at hy
    cases hy
  · obtain ⟨body, hbody, hp⟩ := Code.mem_placesAll.mp hp
    exact hhoist body hbody [] rfl p hp

end TemplateCompiler
