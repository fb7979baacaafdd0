import TemplateCompiler.Proofs.StaticContent
import TemplateCompiler.Proofs.Wrapping

/-!
# When hoisting keeps code in scope

A loop and a scoped slot call back with names of their own, so code that is moved out of the
callback loses them. `hoisted_keepsScope_iff` says for every template which hoisted elements that
happens to, and on which side of the loop of an element its condition is tested. What is below a
static root is literal or left as written, but what is left as written may still use a name: an
input in it is expanded all the same. A static root that is rendered once may stand in a loop, and
then it is hoisted out of that.

Three things can be read off a piece of generated code: the callbacks that are in it, the bodies
that it uses, and the conditions that it tests, each with the loops around it (`Code.callbacks`,
`Code.hoists`, `Code.tests`). `Piece` says of all of them what a reader wants to know, and makes a
layout of the code of a tree (`scopeLayout`).
-/

namespace TemplateCompiler

open Markup List

variable {codes bodies : List Code} {body : Code} {id x : NodeId} {loops : List NodeId} {f : Facts}

namespace Code

mutual

/-- The elements whose callbacks are in the code, for their loops or as scoped slots. -/
def callbacks : Code → List NodeId
  | .text _ => []
  | .append first second => first.callbacks ++ second.callbacks
  | .element _ code => code.callbacks
  | .hoisted _ _ _ => []
  | .loop id _ _ body => id :: body.callbacks
  | .condition _ _ _ shown otherwise => shown.callbacks ++ otherwise.callbacks
  | .once body _ _ => body.callbacks
  | .scopedSlot id _ _ body => id :: body.callbacks
  | .inlineTemplate body bodies => body.callbacks ++ callbacksAll bodies

def callbacksAll : List Code → List NodeId
  | [] => []
  | code :: rest => code.callbacks ++ callbacksAll rest

end

mutual

/-- The elements whose hoisted bodies are used in the code, each with its body. The bodies of an
inline template are its own. -/
def hoists (bodies : List Code) : Code → List (NodeId × Code)
  | .text _ => []
  | .append first second => first.hoists bodies ++ second.hoists bodies
  | .element _ code => code.hoists bodies
  | .hoisted id index _ => [(id, (bodies[index]?).getD (.text ""))]
  | .loop _ _ _ body => body.hoists bodies
  | .condition _ _ _ shown otherwise => shown.hoists bodies ++ otherwise.hoists bodies
  | .once body _ _ => body.hoists bodies
  | .scopedSlot _ _ _ body => body.hoists bodies
  | .inlineTemplate body inner => body.hoists inner ++ hoistsAll inner inner

def hoistsAll (bodies : List Code) : List Code → List (NodeId × Code)
  | [] => []
  | code :: rest => code.hoists bodies ++ hoistsAll bodies rest

end

mutual

/-- The elements whose own condition is tested in the code, each with the elements whose loops are
around the test. A function of its own starts with no loop around it. -/
def tests (loops : List NodeId) : Code → List (NodeId × List NodeId)
  | .text _ => []
  | .append first second => first.tests loops ++ second.tests loops
  | .element _ code => code.tests loops
  | .hoisted _ _ _ => []
  | .loop id _ _ body => body.tests (id :: loops)
  | .condition chain block _ shown otherwise =>
    (if chain = block then [(chain, loops)] else []) ++ shown.tests loops ++ otherwise.tests loops
  | .once body _ _ => body.tests loops
  | .scopedSlot _ _ _ body => body.tests loops
  | .inlineTemplate body inner => body.tests [] ++ testsAll inner

def testsAll : List Code → List (NodeId × List NodeId)
  | [] => []
  | code :: rest => code.tests [] ++ testsAll rest

end

theorem mem_callbacksAll {y : NodeId} :
    y ∈ callbacksAll codes ↔ ∃ code ∈ codes, y ∈ code.callbacks := by
  induction codes with
  | nil => simp [callbacksAll]
  | cons code rest ih => simp [callbacksAll, ih]

theorem mem_hoistsAll {h : NodeId × Code} :
    h ∈ hoistsAll bodies codes ↔ ∃ code ∈ codes, h ∈ code.hoists bodies := by
  induction codes with
  | nil => simp [hoistsAll]
  | cons code rest ih => simp [hoistsAll, ih]

theorem mem_testsAll {t : NodeId × List NodeId} :
    t ∈ testsAll codes ↔ ∃ code ∈ codes, t ∈ code.tests [] := by
  induction codes with
  | nil => simp [testsAll]
  | cons code rest ih => simp [testsAll, ih]

end Code

def Bodies.hoists (b : Bodies) : List (NodeId × Code) :=
  b.main.hoists b.hoisted ++ Code.hoistsAll b.hoisted b.hoisted

/-- All tests of conditions in a template, with the loops around them. -/
def Bodies.tests (b : Bodies) : List (NodeId × List NodeId) :=
  b.main.tests [] ++ Code.testsAll b.hoisted

/-! ## Pieces -/

/-- What is to hold of hoisted elements and of tests. -/
structure Facts where
  hoist : NodeId → Code → Prop
  test : NodeId → List NodeId → Prop

/-- Code that keeps to the facts when the bodies are those that it uses, and when the loops around
it are as `around` says. All its callbacks are `within` a set. -/
structure Piece (f : Facts) (within : NodeId → Prop) (around : List NodeId → Prop)
    (bodies : List Code) (code : Code) : Prop where
  hoists : ∀ h ∈ code.hoists bodies, f.hoist h.1 h.2
  tests : ∀ loops, around loops → ∀ t ∈ code.tests loops, f.test t.1 t.2
  callbacks : ∀ y ∈ code.callbacks, within y

namespace Piece

variable {f : Facts} {within within' : NodeId → Prop} {around around' : List NodeId → Prop}
  {bodies : List Code} {code code' : Code}

theorem mono (h : Piece f within around bodies code) (hwithin : ∀ y, within y → within' y)
    (haround : ∀ loops, around' loops → around loops) : Piece f within' around' bodies code where
  hoists := h.hoists
  tests loops hloops := h.tests loops (haround loops hloops)
  callbacks y hy := hwithin y (h.callbacks y hy)

theorem text (source : String) : Piece f within around bodies (.text source) where
  hoists h hmem := by cases hmem
  tests _ _ t hmem := by cases hmem
  callbacks y hmem := by cases hmem

theorem ofParts : Gen.BodyFact.OfParts (Piece f within around) := by
  intro bodies code codes hparts hcode
  constructor
  · intro h hh
    rw [hcode (m := Code.hoists bodies) ⟨fun _ => rfl, fun _ _ => rfl⟩] at hh
    obtain ⟨part, hpart, hh⟩ := mem_flatMap.mp hh
    exact (hparts part hpart).hoists h hh
  · intro loops hloops t ht
    rw [hcode (m := Code.tests loops) ⟨fun _ => rfl, fun _ _ => rfl⟩] at ht
    obtain ⟨part, hpart, ht⟩ := mem_flatMap.mp ht
    exact (hparts part hpart).tests loops hloops t ht
  · intro y hy
    rw [hcode (m := Code.callbacks) ⟨fun _ => rfl, fun _ _ => rfl⟩] at hy
    obtain ⟨part, hpart, hy⟩ := mem_flatMap.mp hy
    exact (hparts part hpart).callbacks y hy

theorem hoisted {id index : Nat} (inLoop : Bool) (hindex : bodies[index]? = some body)
    (h : f.hoist id body) : Piece f within around bodies (.hoisted id index inLoop) where
  hoists u hu := by
    rw [Code.hoists, mem_singleton, hindex] at hu
    rw [hu]
    exact h
  tests _ _ t ht := by cases ht
  callbacks y hy := by cases hy

theorem loop (source params : String) (hid : within id)
    (haround : ∀ loops, around loops → around' (id :: loops))
    (h : Piece f within around' bodies code) :
    Piece f within around bodies (.loop id source params code) where
  hoists := h.hoists
  tests loops hloops := h.tests _ (haround loops hloops)
  callbacks y hy := by
    rcases mem_cons.mp hy with rfl | hy
    · exact hid
    · exact h.callbacks y hy

theorem scopedSlot (key scope : String) (hid : within id) (h : Piece f within around bodies code) :
    Piece f within around bodies (.scopedSlot id key scope code) where
  hoists := h.hoists
  tests := h.tests
  callbacks y hy := by
    rcases mem_cons.mp hy with rfl | hy
    · exact hid
    · exact h.callbacks y hy

theorem condition {chain block : NodeId} (exp : String)
    (htest : chain = block → ∀ loops, around loops → f.test chain loops)
    (h : Piece f within around bodies code) (h' : Piece f within around bodies code') :
    Piece f within around bodies (.condition chain block exp code code') where
  hoists u hu := by
    rcases mem_append.mp hu with hu | hu
    · exact h.hoists u hu
    · exact h'.hoists u hu
  tests loops hloops t ht := by
    rw [Code.tests, List.append_assoc, mem_append, mem_append] at ht
    rcases ht with ht | ht | ht
    · split at ht
      · next heq =>
        rw [mem_singleton.mp ht]
        exact htest heq loops hloops
      · cases ht
    · exact h.tests loops hloops t ht
    · exact h'.tests loops hloops t ht
  callbacks y hy := by
    rcases mem_append.mp hy with hy | hy
    · exact h.callbacks y hy
    · exact h'.callbacks y hy

theorem inlineTemplate {inner : List Code} (h : Piece f within around' inner code)
    (hnone : around' []) (hinner : ∀ body ∈ inner, Piece f within (· = []) inner body) :
    Piece f within around bodies (.inlineTemplate code inner) where
  hoists u hu := by
    rcases mem_append.mp hu with hu | hu
    · exact h.hoists u hu
    · obtain ⟨body, hbody, hu⟩ := Code.mem_hoistsAll.mp hu
      exact (hinner body hbody).hoists u hu
  tests _ _ t ht := by
    rcases mem_append.mp ht with ht | ht
    · exact h.tests [] hnone t ht
    · obtain ⟨body, hbody, ht⟩ := Code.mem_testsAll.mp ht
      exact (hinner body hbody).tests [] rfl t ht
  callbacks y hy := by
    rcases mem_append.mp hy with hy | hy
    · exact h.callbacks y hy
    · obtain ⟨body, hbody, hy⟩ := Code.mem_callbacksAll.mp hy
      exact (hinner body hbody).callbacks y hy

end Piece

namespace Gen

/-- What the generator makes sure of: a hoisted element that is no static root is not marked as
being in a loop. The body of a hoisted element has no callback of an element before it, and has its
own callback exactly if that is for a loop and not for a scoped slot as well; only a static root
that is rendered once under a condition is hoisted a second time, without its loop. And a condition
is tested inside the loop of its element unless the element is rendered once. -/
def scopeFacts (a : Ast) (root : NodeId) : Facts where
  hoist x body := a.Below root x ∧ ∀ el, a.element? x = some el →
    (el.marks.root = false → el.marks.inLoop = false) ∧ (∀ y ∈ body.callbacks, x ≤ y) ∧
      (¬ (el.marks.root ∧ el.once ∧ el.ifExp.isSome) →
        (x ∈ body.callbacks ↔ el.loop.isSome ∧ ¬ a.IsSlot x))
  test x loops := ∀ el, a.element? x = some el → el.loop.isSome →
    (x ∈ loops ↔ a.IsSlot x ∨ el.once = false ∨ (el.marks.root ∧ ¬ a.IsBranch x))

def UpTo (x : NodeId) (loops : List NodeId) : Prop := ∀ y ∈ loops, y ≤ x

theorem UpTo.cons (h : UpTo x loops) : UpTo x (x :: loops) := by
  intro y hy
  rcases mem_cons.mp hy with rfl | hy
  · exact Nat.le_refl _
  · exact h y hy

def Before (x : NodeId) (loops : List NodeId) : Prop := ∀ y ∈ loops, y < x

theorem Before.upTo (h : Before x loops) : UpTo x loops :=
  fun y hy => Nat.le_of_lt (h y hy)

theorem piece_inside {c : NodeId} {code : Code} (hc : x < c)
    (h : Piece f (c ≤ ·) (Before c) bodies code) : Piece f (x < ·) (UpTo x) bodies code :=
  h.mono (fun _ hy => Nat.lt_of_lt_of_le hc hy) fun _ hloops y hy =>
    Nat.lt_of_le_of_lt (hloops y hy) hc

def Looped (a : Ast) (x : NodeId) (loops : List NodeId) : Prop :=
  UpTo x loops ∧ (a.HasLoop x → x ∈ loops)

/-- The facts about callbacks, hoisted bodies and conditions, at each place. -/
def scopeLayout (a : Ast) (root : NodeId) : Layout where
  node _ x later _ := Piece (scopeFacts a root) (x ≤ ·) (Before x) later.bodies
  body x := Piece (scopeFacts a root) (x ≤ ·) (· = [])
  bare x later _ := Piece (scopeFacts a root) (x < ·) (UpTo x) later.bodies
  self _ x later _ := Piece (scopeFacts a root) (x < ·) (Looped a x) later.bodies
  beside x _ later _ := Piece (scopeFacts a root) (x < ·) (UpTo x) later.bodies

variable {a : Ast} {root x : NodeId} {el : Element} {bodies : List Code} {code : Code}

/-- Once its loop is put around it, an element may be anywhere after the loops before it. -/
theorem piece_putLoop {around : List NodeId → Prop} (hel : a.element? x = some el)
    (haround : ∀ loops, around loops → UpTo x loops)
    (h : Piece f (x ≤ ·) (Looped a x) bodies code) :
    Piece f (x ≤ ·) around bodies (putLoop x el code) := by
  unfold putLoop
  cases hloop : el.loop with
  | none =>
    refine h.mono (fun _ hy => hy) fun loops hloops => ⟨haround loops hloops, ?_⟩
    rintro ⟨el', hel', hl⟩
    cases hel.symm.trans hel'
    rw [hloop] at hl
    cases hl
  | some head =>
    exact h.loop _ _ (Nat.le_refl x) fun loops hloops =>
      ⟨(haround loops hloops).cons, fun _ => mem_cons_self⟩

theorem piece_le {around : List NodeId → Prop} (h : Piece f (x < ·) around bodies code) :
    Piece f (x ≤ ·) around bodies code :=
  h.mono (fun _ => Nat.le_of_lt) fun _ hloops => hloops

theorem upTo_of_eq_nil (loops : List NodeId) (h : loops = []) : UpTo x loops := by
  rw [h]
  exact nofun

theorem scopeLayout_holds (hwf : a.WellFormed) (hbelow : a.Below root x)
    (hel : a.element? x = some el) : (scopeLayout a root).Holds a x el := by
  have hafter {y : NodeId} (hy : x < y) : x ≤ y := Nat.le_of_lt hy
  have hlinked {c : NodeId} (hc : c ∈ el.links) : x < c :=
    (hwf.lt_of_mem_links (Ast.links_eq hel ▸ hc)).1
  have hself {bodies : List Code} {code : Code}
      (h : Piece (scopeFacts a root) (x < ·) (UpTo x) bodies code) :
      Piece (scopeFacts a root) (x < ·) (Looped a x) bodies code :=
    h.mono (fun _ hy => hy) fun _ hloops => hloops.1
  have hchain {bodies : List Code} {code rest : Code} (exp : String) (hfirst : LoopFirst a x el)
      (h : Piece (scopeFacts a root) (x < ·) (Looped a x) bodies code)
      (hrest : Piece (scopeFacts a root) (x < ·) (UpTo x) bodies rest) :
      Piece (scopeFacts a root) (x < ·) (Looped a x) bodies (.condition x x exp code rest) := by
    refine .condition exp (fun _ loops hloops el' hel' hloop => ?_) h (hself hrest)
    cases hel.symm.trans hel'
    exact iff_of_true (hloops.2 ⟨el, hel, hloop⟩) hfirst
  constructor
  case lower =>
    intro c bodies code hc h
    exact h.mono (fun _ hy => Nat.le_trans (hafter (hwf.lt_of_mem_links hc).1) hy) fun _ hl => hl
  case element =>
    intro later new code nodes hfilled hmade _
    have hinside := hmade.ofParts Piece.ofParts fun c hc new part hpart => by
      have hc := hlinked (Element.mem_links.mpr
        (.inl (mem_append.mp (hfilled.linked.subset hc)).symm))
      cases hpart with
      | node h => exact piece_inside hc h
      | inline h hinner =>
        exact (piece_inside hc h).inlineTemplate (fun _ hy => by cases hy) fun body hbody =>
          (hinner body hbody).mono (fun _ hy => Nat.lt_of_lt_of_le hc hy) fun _ hloops => hloops
    exact { hinside with }
  case ofBare => exact hself
  case lone => exact fun _ => ⟨fun h => h, fun h => h⟩
  case template =>
    intro later new code hslot _ h
    cases el.ifExp with
    | none => exact h
    | some exp => exact hchain exp (.inl hslot) h (.text _)
  case ending => exact .text _
  case last =>
    intro block rest later new code hc h
    exact piece_inside (hlinked (Element.branch_link hc)) h
  case further =>
    intro block rest later new new' exp code code' hc hne h hrest
    refine .condition exp (fun heq => absurd heq.symm hne) ?_ hrest
    exact piece_inside (hlinked (Element.branch_link (hc.subset mem_cons_self))) h
  case selfOnce => exact fun h => { h with }
  case nodeOnce => exact fun h => { h with }
  case selfChain => exact fun hfirst _ _ h hrest => hchain _ hfirst h hrest
  case nodeChain =>
    intro rest later new new' exp code code' hslot honce hright _ h hrest
    refine .condition exp (fun _ loops hloops el' hel' _ => ?_) h
      (hrest.mono (fun _ => hafter) fun _ hloops => hloops.upTo)
    cases hel.symm.trans hel'
    refine iff_of_false (fun hx => Nat.lt_irrefl x (hloops x hx)) ?_
    rw [honce]
    rintro (h | h | ⟨hroot, hbr⟩)
    · exact hslot h
    · cases h
    · rcases hright with h | h
      · rw [hroot] at h
        cases h
      · exact hbr h
  case alone =>
    intro later new code honce hmark hcase h
    refine ⟨h.mono (fun _ => hafter) upTo_of_eq_nil, fun i hi => .hoisted _ hi ?_⟩
    refine ⟨hbelow, fun el' hel' => ?_⟩
    cases hel.symm.trans hel'
    refine ⟨fun _ => hmark, fun y hy => hafter (h.callbacks y hy), fun hsecond => ?_⟩
    refine iff_of_false (fun hx => Nat.lt_irrefl x (h.callbacks x hx)) fun hx => ?_
    rcases hcase with ⟨hroot, hsome⟩ | hslot
    · exact hsecond ⟨hroot, honce, hsome⟩
    · exact hx.2 hslot
  case hoist =>
    intro chained later new code hslot hcase
    have hcode : Piece (scopeFacts a root) (x < ·) (Looped a x) later.bodies code := by
      rcases hcase with ⟨-, h⟩ | ⟨-, -, -, h⟩
      · exact h
      · exact hself h
    have hput : Piece (scopeFacts a root) (x ≤ ·) (· = []) later.bodies (putLoop x el code) :=
      piece_putLoop hel upTo_of_eq_nil (piece_le hcode)
    refine ⟨hput, fun i hi => .hoisted _ hi ⟨hbelow, fun el' hel' => ?_⟩⟩
    cases hel.symm.trans hel'
    refine ⟨fun hroot => ?_, hput.callbacks, fun _ => ?_⟩
    · rcases hcase with ⟨hroot', -⟩ | ⟨-, -, hmark, -⟩
      · rw [hroot] at hroot'
        cases hroot'
      · exact hmark
    · unfold putLoop
      cases hloop : el.loop with
      | none =>
        refine iff_of_false (fun hx => Nat.lt_irrefl x (hcode.callbacks x hx)) fun hx => ?_
        cases hx.1
      | some head => exact iff_of_true mem_cons_self ⟨rfl, hslot⟩
  case plain =>
    intro chained later new code _ _ h
    exact piece_putLoop hel (fun _ hloops => hloops.upTo) (piece_le h)
  case slot =>
    intro later new code key scope _ h
    exact piece_putLoop hel (fun _ hloops => hloops.upTo)
      ((piece_le h).scopedSlot key scope (Nat.le_refl x))

end Gen

/-! ## Whole templates -/

variable {o : Options} {a : Ast} {root x : NodeId}

theorem generate_facts (ho : o.WebModules) (hwf : a.WellFormed)
    (hroots : ∀ y, a.IsRoot y → ¬ a.IsSlot y) (hroot : a.root = some root)
    (hunl : ∀ i, root ∉ a.links i) :
    ∃ bodies, (generate o a).result = .ok bodies ∧
      (∀ h ∈ bodies.hoists, (Gen.scopeFacts a root).hoist h.1 h.2) ∧
      ∀ t ∈ bodies.tests, (Gen.scopeFacts a root).test t.1 t.2 := by
  have hholds (x : NodeId) (el : Element) (hbelow : a.Below root x) (hel : a.element? x = some el) :
      (Gen.scopeLayout a root).Holds a x el := Gen.scopeLayout_holds hwf hbelow hel
  obtain ⟨bodies, hbodies, hmain, hhoisted⟩ := Gen.generate_emits ho hwf hroots hholds
    (fun _ _ _ source => .text source) hroot hunl
  refine ⟨bodies, hbodies, fun h hh => ?_, fun t ht => ?_⟩
  · rcases mem_append.mp hh with hh | hh
    · exact hmain.hoists h hh
    · obtain ⟨body, hbody, hh⟩ := Code.mem_hoistsAll.mp hh
      exact (hhoisted body hbody).hoists h hh
  · rcases mem_append.mp ht with ht | ht
    · exact hmain.tests [] (fun _ hy => by cases hy) t ht
    · obtain ⟨body, hbody, ht⟩ := Code.mem_testsAll.mp ht
      exact (hhoisted body hbody).tests [] rfl t ht

/-- The body of `x` has the callbacks of `x` and of all elements above it, so nothing in it has lost
a name. -/
def Ast.KeepsScope (a : Ast) (x : NodeId) (body : Code) : Prop :=
  ∀ y ∈ x :: a.ancestors x, a.HasLoop y ∨ a.IsSlot y → y ∈ body.callbacks

/-- The content of scoped slots and of static roots, which is not looked at when marks for loops are
written. -/
def Ast.Unvisited (a : Ast) (x : NodeId) : Prop := ∃ r, a.Below r x ∧ (a.IsSlot r ∨ a.IsRoot r)

theorem keepsScope_iff (hwf : a.WellFormed) {a₀ a₁ : Ast} (hwalked : Ast.Walked a₀ a₁ a root)
    (hinit : ∀ id el, a₀.element? id = some el → el.marks.root = false)
    {el : Element} (hel : a.element? x = some el) (hfact : (Gen.scopeFacts a root).hoist x body) :
    a.KeepsScope x body ↔ (∀ y ∈ x :: a.ancestors x, ¬ a.IsSlot y) ∧
      ¬ (a.Unvisited x ∧ ∃ y ∈ a.ancestors x, a.HasLoop y) ∧
      (el.marks.root ∧ el.once ∧ el.ifExp.isSome → a.HasLoop x → x ∈ body.callbacks) := by
  obtain ⟨hbelow, hfact⟩ := hfact
  obtain ⟨hmark, hafter, hown⟩ := hfact el hel
  have hoff {y : NodeId} (hy : y ∈ a.ancestors x) : y ∉ body.callbacks := fun hmem =>
    Nat.not_le_of_lt (hwf.parentsFirst.lt_of_mem_ancestors hy) (hafter y hmem)
  constructor
  · intro hkeeps
    refine ⟨fun y hy hslot => ?_, fun ⟨_, y, hy, hloop⟩ => ?_,
      fun _ hloop => hkeeps x mem_cons_self (.inl hloop)⟩
    · have hmem := hkeeps y hy (.inr hslot)
      rcases mem_cons.mp hy with rfl | hy
      · have hnot := (hown fun hroot => hwalked.not_isSlot hinit ⟨el, hel, hroot.1⟩ hslot).mp hmem
        exact hnot.2 hslot
      · exact hoff hy hmem
    · exact hoff hy (hkeeps y (mem_cons_of_mem _ hy) (.inl hloop))
  · rintro ⟨hslots, hunvisited, hsecond⟩
    -- a looped element above would have been marked, unless the marks were not written here
    have hloops : ¬ ∃ y ∈ a.ancestors x, a.HasLoop y := by
      intro hloop
      have hopen (r : NodeId) (hr : a.Below r x) : ¬ (a.IsSlot r ∨ a.IsRoot r) := fun hstop =>
        hunvisited ⟨⟨r, hr, hstop⟩, hloop⟩
      have hroot : el.marks.root = false :=
        Bool.eq_false_iff.mpr fun hroot => hopen x .refl (.inr ⟨el, hel, hroot⟩)
      have hout := hmark hroot
      rw [hwalked.inLoop_eq hel hbelow hopen, Ast.inLoop_iff.mpr hloop] at hout
      cases hout
    intro y hy hbinds
    have hloop : a.HasLoop y := hbinds.resolve_right (hslots y hy)
    rcases mem_cons.mp hy with rfl | hy
    · by_cases hcase : el.marks.root ∧ el.once ∧ el.ifExp.isSome
      · exact hsecond hcase hloop
      · obtain ⟨el', hel', hsome⟩ := hloop
        rw [hel] at hel'
        cases hel'
        exact (hown hcase).mpr ⟨hsome, hslots y mem_cons_self⟩
    · exact absurd ⟨y, hy, hloop⟩ hloops

/-- For every template: to hoist an element, a static root or another one, keeps it in scope unless
it is or stands in a scoped slot, or is inside of a loop where marks for loops are not written. A
static root is such a place itself: it loses the names of all loops around it, which are there only
if it is rendered once; and if it has a loop and a condition as well, it is hoisted a second time
out of its own loop. What is below it is literal or left as written. And the condition of an element
with a loop is tested inside the loop unless the element is rendered once. A scoped slot, and a
static root that is not a branch, have it inside even then. -/
theorem hoisted_keepsScope_iff (o : Options) (ho : o.UsesWeb) (source : String) :
    ∃ tree bodies, (optimizedTree o source).result = .ok tree ∧
      (generate o tree).result = .ok bodies ∧
      (∀ x body el, (x, body) ∈ bodies.hoists → tree.element? x = some el →
        (tree.KeepsScope x body ↔ (∀ y ∈ x :: tree.ancestors x, ¬ tree.IsSlot y) ∧
          ¬ (tree.Unvisited x ∧ ∃ y ∈ tree.ancestors x, tree.HasLoop y) ∧
          (el.marks.root = true ∧ el.once = true ∧ el.ifExp.isSome = true →
            tree.HasLoop x → x ∈ body.callbacks)) ∧
        (el.marks.root = true →
          (tree.KeepsScope x body → ¬ ∃ y ∈ tree.ancestors x, tree.HasLoop y) ∧
          ((∃ y ∈ tree.ancestors x, tree.HasLoop y) → el.once = true) ∧
          ∀ y, tree.Below x y →
            tree.AsWritten x y ∨ tree.IsLiteral (read o.tags o.comments source) y)) ∧
      (∀ x loops el, (x, loops) ∈ bodies.tests → tree.element? x = some el → el.loop.isSome →
        (x ∈ loops ↔ tree.IsSlot x ∨ el.once = false ∨
          (el.marks.root = true ∧ ¬ tree.IsBranch x))) := by
  obtain ⟨b, hb, hkeeps, -⟩ := Builder.signals_read ho source
  have hwf := hkeeps.tree.toWellFormed
  have htree := result_optimizedTree o source hb
  have hroot := Ast.root_optimize o b.ast
  cases hr : b.ast.root with
  | none =>
    refine ⟨_, ⟨.text "_c(\"div\")", []⟩, htree, ?_, ?_, ?_⟩
    · rw [generate, hroot, hr]
      rfl
    · intro x body el hmem
      cases hmem
    · intro x loops el hmem
      cases hmem
  | some root =>
    obtain rfl : root = 0 := hkeeps.tree.rootFirst root hr
    have hinit (id : NodeId) (el : Element) (hel : b.ast.element? id = some el) :
        el.marks.root = false := by rw [(hkeeps.tree.origin id el hel).marks]
    have hwf' := hwf.of_unmarked (Ast.unmarked_optimize o b.ast)
    have hwalked := Ast.walked_optimize (o := o) hwf hr hwf.parent?_zero
    obtain ⟨bodies, hbodies, hhoists, htests⟩ := generate_facts ho.modules hwf'
      (fun y hy => hwalked.not_isSlot hinit hy) (hroot.trans hr) fun i hlink =>
        absurd (hwf'.lt_of_mem_links hlink).1 (Nat.not_lt_zero i)
    refine ⟨_, bodies, htree, hbodies, fun x body el hmem hel => ?_,
      fun x loops el hmem hel hloop => htests _ hmem el hel hloop⟩
    have hscope := keepsScope_iff hwf' hwalked hinit hel (hhoists _ hmem)
    refine ⟨hscope, fun hroot => ?_⟩
    obtain ⟨hstatic, honce⟩ := hwalked.isStatic_root hinit hel hroot
    refine ⟨fun hkeeps hloop => ?_, fun hloop => honce (Ast.inLoop_iff.mpr hloop), fun y hy => ?_⟩
    · exact (hscope.mp hkeeps).2.1 ⟨⟨x, .refl, .inr ⟨el, hel, hroot⟩⟩, hloop⟩
    · exact Ast.isLiteral_of_isStatic hwf hkeeps.tree.origin hel hstatic hy

/-- A scoped slot that is rendered once: its body does not have the callback of the slot. -/
theorem hoisted_keepsScope_iff_slot : Web.options.UsesWeb ∧ ∃ tree bodies,
      (optimizedTree Web.options "<my-list><b slot-scope=p r-once>{{ p }}</b></my-list>").result =
        .ok tree ∧
      (generate Web.options tree).result = .ok bodies ∧
      ∃ body, (1, body) ∈ bodies.hoists ∧ ¬ tree.KeepsScope 1 body := by
  obtain ⟨tree, bodies, htree, hbodies, hscope, -⟩ := hoisted_keepsScope_iff Web.options
    Web.usesWeb_options "<my-list><b slot-scope=p r-once>{{ p }}</b></my-list>"
  have hcheck := check_ok htree (fun tree =>
    ((tree.element? 0).any fun el => el.slotNodes.contains 1) &&
    ((tree.element? 1).any fun el => !el.marks.root) &&
    ((generate Web.options tree).result.toOption.any fun bodies =>
      (bodies.hoists.map (·.1)).contains 1)) (by decide +kernel)
  simp only [Except.toOption, hbodies, Option.any_some, Bool.and_eq_true] at hcheck
  obtain ⟨⟨hslot, hroot⟩, hhoist⟩ := hcheck
  obtain ⟨list, hlist, hslot⟩ := (Option.any_eq_true _ _).mp hslot
  obtain ⟨el, hel, hroot⟩ := (Option.any_eq_true _ _).mp hroot
  obtain ⟨⟨x, body⟩, hmem, rfl⟩ := List.mem_map.mp (contains_iff_mem.mp hhoist)
  refine ⟨Web.usesWeb_options, tree, bodies, htree, hbodies, body, hmem, ?_⟩
  rw [(hscope _ body el hmem hel).1]
  rintro ⟨hslots, -⟩
  exact hslots _ mem_cons_self ⟨0, list, hlist, contains_iff_mem.mp hslot⟩

end TemplateCompiler
