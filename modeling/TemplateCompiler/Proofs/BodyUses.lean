import Mathlib.Data.List.Nodup
import TemplateCompiler.Proofs.Generator

/-!
# Every hoisted body is used once

A hoisted body is used by its number, in the main body or in another hoisted body. `Linked` says
that the numbers fit: each body is used exactly once, and only by the main body or a later one; the
pieces that are rendered once have numbers of their own; and the same holds for each inline
template, which has bodies and numbers of its own.

It also says how often an element is hoisted. A static root that is also to be rendered once is
hoisted for the one reason or for the other, but if it starts a conditional chain outside of loops,
then for both: as a root with its whole chain, and once more inside the chain (`Ast.hoistLimit`).

Main result: `generate_linked`, for every tree in which no node is reached twice. `Links` is the
triple for a step of the generator. The uses in its result and in the bodies that it adds take up
exactly the numbers between the two states, so steps one after the other fit together, and a body
that is added uses earlier ones.
-/

namespace TemplateCompiler

open List Nat Code

variable {main : Code} {tags : TagTable} {depth : Nat} {limit : NodeId → Nat} {self : Gen Code}
  {branches : List Outline} {ids ids' nodes : List NodeId}

/-! ## Uses -/

/-- What a piece of code takes from the state of the generator. -/
inductive Use where
  /-- The hoisted body of a number, which was made for the element `id`. -/
  | body (id : NodeId) (index : Nat)
  /-- The number of a piece that is rendered once. -/
  | once (number : Nat)
  /-- A template with bodies of its own. -/
  | template (main : Code) (bodies : List Code)

namespace Use

/-- The number of a hoisted body that is used. -/
def index? : Use → Option Nat
  | .body _ index => some index
  | _ => none

def hoisted? : Use → Option NodeId
  | .body id _ => some id
  | _ => none

def number? : Use → Option Nat
  | .once number => some number
  | _ => none

end Use

namespace Code

/-- What is used in the code, in its order. What an inline template uses is its own. -/
def uses : Code → List Use
  | .text _ => []
  | .append first second => first.uses ++ second.uses
  | .element _ code => code.uses
  | .hoisted id index _ => [.body id index]
  | .loop _ _ _ body => body.uses
  | .condition _ _ _ shown otherwise => shown.uses ++ otherwise.uses
  | .once body number _ => .once number :: body.uses
  | .scopedSlot _ _ _ body => body.uses
  | .inlineTemplate main bodies => [.template main bodies]

theorem uses_additive : Additive uses where
  text _ := rfl
  append _ _ := rfl

end Code

def usesAll (codes : List Code) : List Use := codes.flatMap uses

/-- A main body and hoisted bodies that fit together. No element is hoisted more often than the
limit for it. -/
inductive Linked (limit : NodeId → Nat) : Code → List Code → Prop
  | intro {main : Code} {bodies : List Code}
      (indices : ((main.uses ++ usesAll bodies).filterMap Use.index?).Perm
        (List.range bodies.length))
      (earlier : ∀ (k : Nat) (body : Code), bodies[k]? = some body →
        ∀ i ∈ body.uses.filterMap Use.index?, i < k)
      (numbers : ((main.uses ++ usesAll bodies).filterMap Use.number?).Nodup)
      (hoisted : ∀ x, ((main.uses ++ usesAll bodies).filterMap Use.hoisted?).count x ≤ limit x)
      (templates : ∀ inner innerBodies, Use.template inner innerBodies ∈
        main.uses ++ usesAll bodies → Linked limit inner innerBodies) :
      Linked limit main bodies

/-! ## Trees -/

namespace Ast

/-- The nodes that are reached from a node along the links of elements, up to a depth. An element
may stand in its own chain; that is no link. -/
def reached (a : Ast) : Nat → NodeId → List NodeId
  | 0, id => [id]
  | depth + 1, id =>
    id :: (a.element? id).elim [] fun el =>
      (el.children ++ el.slotNodes ++ (el.conditions.map (·.block)).erase id).flatMap
        (a.reached depth)

theorem mem_reached_self (a : Ast) (depth : Nat) (x : NodeId) : x ∈ a.reached depth x := by
  cases depth <;> exact mem_cons_self

/-- No node is reached twice from the root. A tree is no deeper than it has nodes. -/
def TreeShaped (a : Ast) : Prop := ∀ root ∈ a.root, (a.reached a.nodes.size root).Nodup

instance (a : Ast) : Decidable a.TreeShaped :=
  inferInstanceAs (Decidable (∀ root ∈ a.root, _))

/-- How often an element can be hoisted: once, or twice if it is a static root to be rendered once
that starts a chain outside of loops. -/
def hoistLimit (a : Ast) (x : NodeId) : Nat :=
  if (a.element? x).any fun el =>
    el.marks.root && el.once && el.ifExp.isSome && !el.marks.inLoop then 2 else 1

theorem one_le_hoistLimit (a : Ast) (x : NodeId) : 1 ≤ a.hoistLimit x := by
  unfold hoistLimit
  split <;> omega

end Ast

/-! ## Steps -/

/-- What a step adds to the state: bodies, and records of wrappers. `uses` is what its result uses.
The numbers that are used, there or in the new bodies, are those that the step has taken. -/
structure Adds (limit bound : NodeId → Nat) (s : GenState) (uses : List Use) (new : List Code)
    (s' : GenState) : Prop where
  bodies : s'.hoisted = s.hoisted ++ new
  done : s.done ⊆ s'.done
  indices : ((uses ++ usesAll new).filterMap Use.index?).Perm
    (List.range' s.hoisted.length new.length)
  earlier : ∀ (k : Nat) (body : Code), new[k]? = some body →
    ∀ i ∈ body.uses.filterMap Use.index?, i < s.hoisted.length + k
  counted : s.onceCount ≤ s'.onceCount
  numbers : ((uses ++ usesAll new).filterMap Use.number?).Perm
    (List.range' s.onceCount (s'.onceCount - s.onceCount))
  hoisted : ∀ x, ((uses ++ usesAll new).filterMap Use.hoisted?).count x ≤ bound x
  templates : ∀ main bodies, Use.template main bodies ∈ uses ++ usesAll new →
    Linked limit main bodies

namespace Adds

variable {limit bound bound' : NodeId → Nat} {s s' s'' : GenState} {xs ys : List Use}
  {new new' : List Code}

theorem mono (h : Adds limit bound s xs new s') (hbound : ∀ x, bound x ≤ bound' x) :
    Adds limit bound' s xs new s' :=
  { h with hoisted := fun x => le_trans (h.hoisted x) (hbound x) }

theorem nothing (limit bound : NodeId → Nat) (s : GenState) : Adds limit bound s [] [] s where
  bodies := (append_nil _).symm
  done := List.Subset.refl _
  indices := List.Perm.refl _
  earlier k body hbody := by cases hbody
  counted := le_refl _
  numbers := by rw [Nat.sub_self]; exact List.Perm.refl _
  hoisted x := zero_le _
  templates main bodies hmem := by cases hmem

theorem trans (h : Adds limit bound s xs new s') (h' : Adds limit bound' s' ys new' s'') :
    Adds limit (fun x => bound x + bound' x) s (xs ++ ys) (new ++ new') s'' := by
  -- all that is used, in the order of the steps
  have hall : (xs ++ usesAll new ++ (ys ++ usesAll new')).Perm
      (xs ++ ys ++ usesAll (new ++ new')) := by
    unfold usesAll
    rw [flatMap_append, List.append_assoc, List.append_assoc]
    refine (List.Perm.refl xs).append ?_
    rw [← List.append_assoc, ← List.append_assoc]
    exact perm_append_comm.append_right _
  have hlen : s'.hoisted.length = s.hoisted.length + new.length := by
    rw [h.bodies, length_append]
  refine ⟨?_, List.Subset.trans h.done h'.done, ?_, ?_, le_trans h.counted h'.counted, ?_, ?_, ?_⟩
  · rw [h'.bodies, h.bodies, List.append_assoc]
  · refine (hall.filterMap _).symm.trans ?_
    rw [filterMap_append, length_append, ← range'_append_1, ← hlen]
    exact h.indices.append h'.indices
  · intro k body hbody i hi
    rcases lt_or_ge k new.length with hk | hk
    · rw [getElem?_append_left hk] at hbody
      exact h.earlier k body hbody i hi
    · rw [getElem?_append_right hk] at hbody
      have := h'.earlier _ body hbody i hi
      omega
  · have hcounts : s''.onceCount - s.onceCount =
        (s'.onceCount - s.onceCount) + (s''.onceCount - s'.onceCount) := by
      have := h.counted
      have := h'.counted
      omega
    have hstart : s'.onceCount = s.onceCount + (s'.onceCount - s.onceCount) := by
      have := h.counted
      omega
    refine (hall.filterMap _).symm.trans ?_
    rw [filterMap_append, hcounts, ← range'_append_1, ← hstart]
    exact h.numbers.append h'.numbers
  · intro x
    rw [← (hall.filterMap _).count_eq, filterMap_append, List.count_append]
    exact Nat.add_le_add (h.hoisted x) (h'.hoisted x)
  · intro main bodies hmem
    rcases mem_append.mp (hall.mem_iff.mpr hmem) with hmem | hmem
    · exact h.templates main bodies hmem
    · exact h'.templates main bodies hmem

/-- Records that were made before a step are part of what it adds. -/
theorem after_marks {s₀ : GenState} (h : Adds limit bound s₀ xs new s')
    (hhoisted : s₀.hoisted = s.hoisted) (hcount : s₀.onceCount = s.onceCount)
    (hdone : s.done ⊆ s₀.done) : Adds limit bound s xs new s' where
  bodies := by rw [h.bodies, hhoisted]
  done := List.Subset.trans hdone h.done
  indices := hhoisted ▸ h.indices
  earlier := hhoisted ▸ h.earlier
  counted := hcount ▸ h.counted
  numbers := hcount ▸ h.numbers
  hoisted := h.hoisted
  templates := h.templates

/-- A result that becomes a body uses the bodies before it, and is used itself. -/
theorem hoist {code : Code} (h : Adds limit bound s code.uses new s') (x : NodeId) :
    Adds limit (fun y => bound y + if y = x then 1 else 0) s [.body x s'.hoisted.length]
      (new ++ [code]) { s' with hoisted := s'.hoisted ++ [code] } := by
  have hlen : s'.hoisted.length = s.hoisted.length + new.length := by
    rw [h.bodies, length_append]
  have hall : (code.uses ++ usesAll new ++ [Use.body x s'.hoisted.length]).Perm
      ([Use.body x s'.hoisted.length] ++ usesAll (new ++ [code])) := by
    have hbodies : usesAll (new ++ [code]) = usesAll new ++ code.uses := by simp [usesAll]
    rw [hbodies]
    exact perm_append_comm.trans ((List.Perm.refl _).append perm_append_comm)
  refine ⟨?_, h.done, ?_, ?_, h.counted, ?_, ?_, ?_⟩
  · rw [h.bodies, List.append_assoc]
  · refine (hall.filterMap _).symm.trans ?_
    rw [filterMap_append, length_append, ← range'_append_1]
    refine h.indices.append ?_
    rw [← hlen]
    exact List.Perm.refl _
  · intro k body hbody i hi
    rcases lt_or_ge k new.length with hk | hk
    · rw [getElem?_append_left hk] at hbody
      exact h.earlier k body hbody i hi
    · -- the new body is the code, whose numbers are among those taken before
      rw [getElem?_append_right hk] at hbody
      obtain rfl : code = body := mem_singleton.mp (mem_of_getElem? hbody) |>.symm
      have hmem : i ∈ (code.uses ++ usesAll new).filterMap Use.index? := by
        rw [filterMap_append]
        exact mem_append_left _ hi
      have hrange := mem_range'_1.mp (h.indices.mem_iff.mp hmem)
      omega
  · refine (hall.filterMap _).symm.trans ?_
    rw [filterMap_append]
    exact (append_nil _).symm ▸ h.numbers
  · intro y
    rw [← (hall.filterMap _).count_eq, filterMap_append, List.count_append]
    refine Nat.add_le_add (h.hoisted y) ?_
    by_cases hy : y = x
    · subst hy
      simp [Use.hoisted?]
    · simp [Use.hoisted?, hy, Ne.symm hy]
  · intro main bodies hmem
    rcases mem_append.mp (hall.mem_iff.mpr hmem) with hmem | hmem
    · exact h.templates main bodies hmem
    · simp at hmem

/-- A result that is rendered once takes one more number. -/
theorem once (h : Adds limit bound s xs new s') : Adds limit bound s (.once s'.onceCount :: xs) new
      { s' with onceCount := s'.onceCount + 1 } := by
  have hcount : s'.onceCount + 1 - s.onceCount = s'.onceCount - s.onceCount + 1 := by
    have := h.counted
    omega
  have hnext : s.onceCount + (s'.onceCount - s.onceCount) = s'.onceCount := by
    omega
  refine ⟨h.bodies, h.done, h.indices, h.earlier, ?_, ?_, h.hoisted, ?_⟩
  · exact le_trans h.counted (le_succ _)
  · rw [hcount, range'_concat, Nat.one_mul, hnext]
    exact (h.numbers.cons _).trans (perm_append_singleton _ _).symm
  · intro main bodies hmem
    rcases mem_cons.mp hmem with heq | hmem
    · cases heq
    · exact h.templates main bodies hmem

theorem template {bodies : List Code} (h : Linked limit main bodies)
    (bound : NodeId → Nat) (s : GenState) : Adds limit bound s [.template main bodies] [] s :=
  { nothing limit bound s with
    templates := fun inner innerBodies hmem => by
      cases mem_singleton.mp hmem
      exact h }

/-- What a step adds to nothing fits together. -/
theorem linked (h : Adds limit bound {} main.uses new s')
    (hbound : ∀ x, bound x ≤ limit x) : Linked limit main s'.hoisted := by
  have hbodies : s'.hoisted = new := h.bodies
  rw [hbodies]
  refine .intro ?_ ?_ ?_ (fun x => le_trans (h.hoisted x) (hbound x)) h.templates
  · rw [range_eq_range']
    exact h.indices
  · intro k body hbody i hi
    have := h.earlier k body hbody i hi
    rwa [show ({} : GenState).hoisted.length = 0 from rfl, Nat.zero_add] at this
  · exact h.numbers.nodup_iff.mpr nodup_range'

end Adds

namespace Gen

variable {α β γ : Type} {limit bound bound' : NodeId → Nat} {recs recs' : List (NodeId × Wrapper)}

/-- From any state with some records, the step has a result, and adds to the state what `Adds` says
of the uses in the result. -/
def Links (limit : NodeId → Nat) (recs : List (NodeId × Wrapper)) (bound : NodeId → Nat)
    (x : Gen α) (uses : α → List Use) : Prop :=
  ∀ s, recs ⊆ s.done → ∃ r s' new, x.result s = .ok (r, s') ∧ Adds limit bound s (uses r) new s'

namespace Links

variable {x : Gen α} {y : Gen β} {uses : α → List Use} {uses' : β → List Use}

theorem mono (h : Links limit recs bound x uses) (hrecs : recs ⊆ recs')
    (hbound : ∀ x, bound x ≤ bound' x) : Links limit recs' bound' x uses := by
  intro s hs
  obtain ⟨r, s', new, hx, hadds⟩ := h s (List.Subset.trans hrecs hs)
  exact ⟨r, s', new, hx, hadds.mono hbound⟩

theorem le (h : Links limit recs bound x uses) (hbound : ∀ x, bound x ≤ bound' x) :
    Links limit recs bound' x uses :=
  h.mono (List.Subset.refl _) hbound

/-- A step that needs no records may come anywhere. -/
theorem anywhere (h : Links limit [] bound x uses) : Links limit recs bound x uses :=
  h.mono (nil_subset _) fun _ => le_refl _

theorem pure {r : α} (h : uses r = []) : Links limit recs bound (Pure.pure r) uses := by
  intro s _
  exact ⟨r, s, [], rfl, h ▸ .nothing limit bound s⟩

/-- A step that leaves the state alone may come first. -/
theorem after {f : β → Gen α} {b : β} (hy : ∀ s, y.result s = .ok (b, s))
    (h : Links limit recs bound (f b) uses) : Links limit recs bound (y >>= f) uses := by
  intro s hs
  obtain ⟨r, s', new, hf, hadds⟩ := h s hs
  exact ⟨r, s', new, by rw [result_bind_ok (hy s), hf], hadds⟩

/-- Code may be put around the result. -/
theorem map (h : Links limit recs bound x uses) (k : α → β) (hk : ∀ r, uses' (k r) = uses r) :
    Links limit recs bound (do return k (← x)) uses' := by
  intro s hs
  obtain ⟨r, s', new, hx, hadds⟩ := h s hs
  exact ⟨k r, s', new, by rw [result_bind_ok hx]; rfl, hk r ▸ hadds⟩

theorem both {uses'' : γ → List Use} (hx : Links limit recs bound x uses)
    (hy : Links limit recs bound' y uses') (k : α → β → γ)
    (hk : ∀ a b, uses'' (k a b) = uses a ++ uses' b) :
    Links limit recs (fun z => bound z + bound' z) (do
        let a ← x
        let b ← y
        return k a b) uses'' := by
  intro s hs
  obtain ⟨a, s₁, new, hx, hadds⟩ := hx s hs
  obtain ⟨b, s₂, new', hy, hadds'⟩ := hy s₁ (List.Subset.trans hs hadds.done)
  refine ⟨k a b, s₂, new ++ new', ?_, ?_⟩
  · rw [result_bind_ok hx, result_bind_ok hy]
    rfl
  · rw [hk]
    exact hadds.trans hadds'

end Links

/-! ## Wrappers -/

section Wrappers

variable {a : Ast} {x : NodeId} {el : Element} {chain code : Gen Code}

abbrev LinksCode (limit : NodeId → Nat) (recs : List (NodeId × Wrapper)) (bound : NodeId → Nat)
    (step : Gen Code) : Prop := Links limit recs bound step uses

/-- A bound with some more room for one element. -/
def plus (bound : NodeId → Nat) (x : NodeId) (n : Nat) (y : NodeId) : Nat :=
  bound y + if y = x then n else 0

theorem Links.more (h : LinksCode limit recs bound code) (x : NodeId) (n : Nat) :
    LinksCode limit recs (plus bound x n) code :=
  h.le fun _ => le_add_right _ _

theorem looped_links {note : LoopHead → Gen Unit}
    (hnote : ∀ head s, (note head).result s = .ok ((), s)) (h : LinksCode limit recs bound code) :
    LinksCode limit recs bound (looped x el note code) := by
  intro s hs
  rw [result, run_looped]
  cases el.loop with
  | none => exact h s hs
  | some head =>
    dsimp only
    split
    · exact h s hs
    · obtain ⟨body, s', new, hcode, hadds⟩ := h { s with done := (x, .loop) :: s.done }
        (List.Subset.trans hs (subset_cons_self _ _))
      refine ⟨_, s', new, (result_bind_ok (hnote head _)).trans (result_bind_ok hcode), ?_⟩
      exact hadds.after_marks rfl rfl (subset_cons_self _ _)

theorem repeated_links (tags : TagTable) (h : LinksCode limit recs bound code) :
    LinksCode limit recs bound (repeated tags x el code) :=
  looped_links (fun _ _ => by split <;> rfl) h

theorem hoist_links (h : LinksCode limit ((x, .hoist) :: recs) bound code) :
    LinksCode limit recs (plus bound x 1) (hoist x el code) := by
  intro s hs
  have hdone : s.done ⊆ (x, .once) :: (x, .hoist) :: s.done :=
    List.Subset.trans (subset_cons_self _ _) (subset_cons_self _ _)
  have hrecs : (x, .hoist) :: recs ⊆ (x, .once) :: (x, .hoist) :: s.done :=
    List.Subset.trans (cons_subset_cons _ hs) (subset_cons_self _ _)
  obtain ⟨body, s', new, hcode, hadds⟩ :=
    h { s with done := (x, .once) :: (x, .hoist) :: s.done } hrecs
  refine ⟨.hoisted x s'.hoisted.length el.marks.inLoop,
    { s' with hoisted := s'.hoisted ++ [body] }, new ++ [body], ?_, ?_⟩
  · rw [result, run_hoist]
    exact (result_bind_ok hcode).trans (result_bind_ok (result_pushBody body s'))
  · have hadded : Adds limit bound s body.uses new s' := hadds.after_marks rfl rfl hdone
    exact hadded.hoist x

theorem hoistRoot_links (h : LinksCode limit recs bound code) :
    LinksCode limit recs (plus bound x 1) (hoistRoot x el code) := by
  intro s hs
  rw [result, run_hoistRoot]
  split
  · exact hoist_links (h.mono (subset_cons_self _ _) fun _ => le_refl _) s hs
  · exact h.more x 1 s hs

theorem hoistRoot_links_of_done (hdone : (x, .hoist) ∈ recs) (h : LinksCode limit recs bound code) :
    LinksCode limit recs bound (hoistRoot x el code) := by
  intro s hs
  rw [result, run_hoistRoot, contains_iff_mem.mpr (hs hdone), Bool.not_true, Bool.and_false]
  exact h s hs

theorem renderedOnce_links_of_root (hinLoop : el.marks.inLoop)
    (h : LinksCode limit recs bound (hoistRoot x el code)) :
    LinksCode limit recs bound (renderedOnce a x el code) := by
  unfold renderedOnce
  rw [hinLoop, Bool.not_true, if_neg Bool.false_ne_true]
  cases loopKey? a x with
  | none => exact .after (fun _ => rfl) h
  | some key =>
    intro s hs
    obtain ⟨body, s', new, hcode, hadds⟩ := h s hs
    refine ⟨.once body s'.onceCount key, { s' with onceCount := s'.onceCount + 1 }, new, ?_,
      hadds.once⟩
    exact (result_bind_ok hcode).trans (result_bind_ok (result_nextOnce s'))

theorem renderedOnce_links (h : LinksCode limit recs bound code) :
    LinksCode limit recs (plus bound x 1) (renderedOnce a x el code) := by
  cases hinLoop : el.marks.inLoop with
  | true => exact renderedOnce_links_of_root hinLoop (hoistRoot_links h)
  | false =>
    unfold renderedOnce
    rw [hinLoop]
    exact hoist_links (h.mono (subset_cons_self _ _) fun _ => le_refl _)

theorem renderedOnce_links_of_done (hdone : (x, .hoist) ∈ recs)
    (h : LinksCode limit recs bound code) :
    LinksCode limit recs (plus bound x (if el.marks.inLoop then 0 else 1))
      (renderedOnce a x el code) := by
  cases hinLoop : el.marks.inLoop with
  | true => exact (renderedOnce_links_of_root hinLoop (hoistRoot_links_of_done hdone h)).more x _
  | false => exact renderedOnce_links h

/-- A chain that is being written is not started again. -/
theorem conditional_links_of_done (hdone : (x, .condition) ∈ recs)
    (h : LinksCode limit recs bound code) :
    LinksCode limit recs bound (conditional x el chain code) := by
  intro s hs
  rw [result, run_conditional, contains_iff_mem.mpr (hs hdone), Bool.not_true, Bool.and_false]
  exact h s hs

theorem conditional_links
    (hchain : el.ifExp.isSome → LinksCode limit ((x, .condition) :: recs) bound chain)
    (h : LinksCode limit recs bound code) :
    LinksCode limit recs bound (conditional x el chain code) := by
  intro s hs
  rw [result, run_conditional]
  split
  · next hif =>
    obtain ⟨body, s', new, hcode, hadds⟩ := hchain (Bool.and_eq_true_iff.mp hif).1
      { s with done := (x, .condition) :: s.done } (cons_subset_cons _ hs)
    exact ⟨body, s', new, hcode, hadds.after_marks rfl rfl (subset_cons_self _ _)⟩
  · exact h s hs

section

variable (tags : TagTable)

theorem onceWrapped_links (h : LinksCode limit recs bound
      (conditional x el chain (renderedOnce a x el (repeated tags x el code)))) :
    LinksCode limit recs bound (onceWrapped tags a x el chain code) := by
  intro s hs
  obtain ⟨body, s', new, hcode, hadds⟩ := h { s with done := (x, .once) :: s.done }
    (List.Subset.trans hs (subset_cons_self _ _))
  refine ⟨body, s', new, ?_, hadds.after_marks rfl rfl (subset_cons_self _ _)⟩
  unfold onceWrapped
  rw [result_bind_ok (result_mark x .once s), hcode]

/-- What holds of an element that is hoisted, rendered once or neither holds of a wrapped one. -/
theorem wrapped_cases (hroot : el.marks.root → LinksCode limit recs bound
      (hoist x el (repeated tags x el (conditional x el chain code))))
    (honce : LinksCode limit recs bound (onceWrapped tags a x el chain code))
    (hplain : LinksCode limit recs bound (repeated tags x el (conditional x el chain code))) :
    LinksCode limit recs bound (wrapped tags a x el chain code) := by
  intro s hs
  rw [result, run_wrapped]
  split
  · next h => exact hroot (Bool.and_eq_true_iff.mp h).1 s hs
  · split
    · exact honce s hs
    · exact hplain s hs

/-- In its own chain an element is hoisted at most once more. -/
theorem self_links (hdone : (x, .condition) ∈ recs) (h : LinksCode limit [] bound code) :
    LinksCode limit recs (plus bound x 1) (branchWrapped tags a x el code code) := by
  have hcode {recs' : List (NodeId × Wrapper)} : LinksCode limit recs' bound code :=
    h.anywhere
  have honce : LinksCode limit recs (plus bound x 1) (onceWrapped tags a x el code code) :=
    onceWrapped_links tags (conditional_links_of_done hdone
      (renderedOnce_links (repeated_links tags hcode)))
  unfold branchWrapped
  split
  · exact honce
  · refine wrapped_cases tags (fun _ => hoist_links (repeated_links tags ?_)) honce
      ((repeated_links tags (conditional_links_of_done hdone hcode)).more x 1)
    exact conditional_links_of_done (mem_cons_of_mem _ hdone) hcode

theorem self_links_of_hoisted (hdone : (x, .condition) ∈ recs)
    (hhoisted : (x, .hoist) ∈ recs) (h : LinksCode limit [] bound code) :
    LinksCode limit recs (plus bound x (if el.once && !el.marks.inLoop then 1 else 0))
      (branchWrapped tags a x el code code) := by
  have hcode : LinksCode limit recs bound code := h.anywhere
  unfold branchWrapped
  cases honce : el.once with
  | true =>
    rw [if_pos rfl]
    refine onceWrapped_links tags (conditional_links_of_done hdone ?_)
    refine (renderedOnce_links_of_done hhoisted (repeated_links tags hcode)).le fun y => ?_
    cases el.marks.inLoop <;> exact le_refl _
  | false =>
    rw [if_neg Bool.false_ne_true]
    intro s hs
    rw [result, run_wrapped, contains_iff_mem.mpr (hs hhoisted), honce, Bool.not_true,
      Bool.and_false, if_neg Bool.false_ne_true, Bool.false_and, if_neg Bool.false_ne_true]
    exact (repeated_links tags (conditional_links_of_done hdone hcode)).more x _ s hs

end

/-- The code of an element is part of its chain, with whatever is put around it there. -/
structure Chained (limit bound total : NodeId → Nat) (x : NodeId) (inner chain code : Gen Code) :
    Prop where
  own : LinksCode limit [] bound code
  within : ∀ y, bound y ≤ total y
  whole : ∀ recs n, LinksCode limit recs (plus bound x n) inner →
    LinksCode limit recs (plus total x n) chain

variable {total : NodeId → Nat}

theorem Chained.onceWrapped
    (h : Chained limit bound total x (branchWrapped tags a x el code code) chain code) :
    LinksCode limit recs (plus total x 1) (onceWrapped tags a x el chain code) := by
  have hcode : LinksCode limit recs bound code :=
    h.own.anywhere
  refine onceWrapped_links tags (conditional_links (fun _ => ?_) ?_)
  · exact h.whole _ 1 (self_links tags mem_cons_self h.own)
  · refine (renderedOnce_links (repeated_links tags hcode)).le fun y => ?_
    exact Nat.add_le_add_right (h.within y) _

theorem Chained.wrapped (hel : a.element? x = some el)
    (h : Chained limit bound total x (branchWrapped tags a x el code code) chain code) :
    LinksCode limit recs (plus total x (a.hoistLimit x)) (wrapped tags a x el chain code) := by
  have hlimit : a.hoistLimit x =
      if el.marks.root && el.once && el.ifExp.isSome && !el.marks.inLoop then 2 else 1 := by
    rw [Ast.hoistLimit, hel]
    rfl
  have hone := a.one_le_hoistLimit x
  have hplus (n : Nat) (hn : n ≤ a.hoistLimit x) (y : NodeId) :
      plus total x n y ≤ plus total x (a.hoistLimit x) y := by
    unfold plus
    split <;> omega
  have hcode {recs' : List (NodeId × Wrapper)} : LinksCode limit recs' total code :=
    h.own.mono (nil_subset _) h.within
  refine wrapped_cases tags (fun hroot => ?_) ?_ ?_
  · -- a root is hoisted with its chain, and perhaps once more inside it
    cases hif : el.ifExp.isSome with
    | false =>
      refine (hoist_links (repeated_links tags (conditional_links ?_ hcode))).le (hplus 1 hone)
      intro hsome
      rw [hif] at hsome
      cases hsome
    | true =>
      have hchain := h.whole ((x, .condition) :: (x, .hoist) :: recs) _
        (self_links_of_hoisted tags mem_cons_self (mem_cons_of_mem _ mem_cons_self) h.own)
      refine (hoist_links (repeated_links tags (conditional_links (fun _ => hchain)
        (hcode.more x _)))).le fun y => ?_
      rw [hlimit, hroot, hif]
      unfold plus
      cases el.once <;> cases el.marks.inLoop <;> by_cases hy : y = x <;> simp [hy]
  · exact h.onceWrapped.le (hplus 1 hone)
  · have hchain : LinksCode limit ((x, .condition) :: recs) (plus total x 1) chain :=
      h.whole _ 1 (self_links tags mem_cons_self h.own)
    exact (repeated_links tags (conditional_links (fun _ => hchain) (hcode.more x _))).le
      (hplus 1 hone)

theorem Chained.branchWrapped (hel : a.element? x = some el)
    (h : Chained limit bound total x (branchWrapped tags a x el code code) chain code) :
    LinksCode limit recs (plus total x (a.hoistLimit x))
      (branchWrapped tags a x el chain code) := by
  unfold Gen.branchWrapped
  split
  · refine h.onceWrapped.le fun y => ?_
    have := a.one_le_hoistLimit x
    unfold plus
    split <;> omega
  · exact h.wrapped hel

end Wrappers

/-! ## Parts of a call -/

abbrev LinksAll (limit : NodeId → Nat) (recs : List (NodeId × Wrapper)) (bound : NodeId → Nat)
    (step : Gen (List Code)) : Prop := Links limit recs bound step usesAll

section Parts

variable {o : Options} {a : Ast} {x : NodeId} {el : Element}
  {children slots inline : Gen (List Code)} {kids slotted : NodeId → Nat}

theorem onlyIf_links (wanted : Bool) {step : Gen (List Code)}
    (h : LinksAll limit recs bound step) : LinksAll limit recs bound (onlyIf wanted step) := by
  unfold onlyIf
  split
  · exact h
  · exact .pure rfl

theorem bareCode_links (ho : o.WebModules) (hkids : LinksAll limit recs kids children)
    (hslots : LinksAll limit recs slotted slots) (hinl : LinksAll limit recs (fun _ => 0) inline) :
    LinksCode limit recs (fun y => slotted y + kids y)
      (bareCode o a x el children slots inline) := by
  obtain ⟨own, hown, -⟩ := result_ownEntries ho el
  have hentry : LinksAll limit recs slotted (do return [slotEntry (← slots)]) := by
    refine hslots.map _ fun codes => ?_
    show (slotEntry codes).uses ++ [] = _
    rw [append_nil]
    exact uses_additive.slotEntry codes
  have hentries : LinksAll limit recs slotted (dataEntries el slots inline) :=
    Links.both (onlyIf_links _ hentry) (onlyIf_links _ hinl) _ fun slotEntries inlineEntries =>
      uses_additive.dataEntries el slotEntries inlineEntries
  rw [bareCode_eq ho hown]
  exact Links.both (onlyIf_links _ hentries) (onlyIf_links _ hkids) _ fun entries codes =>
    uses_additive.madeCode o.tags a el own entries codes

theorem scopedSlot_links (key : String) {element : Gen Code}
    (hkids : LinksAll limit recs bound children)
    (helt : LinksCode limit recs bound element) :
    LinksCode limit recs bound (scopedSlot key x el children element) := by
  refine looped_links (fun _ _ => rfl) (Links.map ?_ _ fun _ => rfl)
  unfold slotBody
  split
  · refine hkids.map _ fun codes => ?_
    have hval := uses_additive.childrenValue codes "undefined"
    cases el.ifExp with
    | none => exact hval
    | some exp => exact (append_nil _).trans hval
  · exact helt

theorem inlineTemplate_links {first : Gen Code} (hfirst : LinksCode limit [] bound first)
    (hbound : ∀ y, bound y ≤ limit y) :
    LinksAll limit recs (fun _ => 0) (inlineTemplate a el first) := by
  refine .after (fun _ => rfl) (onlyIf_links _ ?_)
  intro s _
  obtain ⟨code, s', new, hcode, hadds⟩ := hfirst {} (nil_subset _)
  refine ⟨[.inlineTemplate code s'.hoisted], s, [], ?_, .template (hadds.linked hbound) _ s⟩
  have hisolated := result_isolated first s
  rw [hcode] at hisolated
  rw [result_bind_ok hisolated]
  rfl

end Parts

/-! ## Trees -/

section Trees

variable {o : Options} {a : Ast} {x : NodeId} {el : Element}

/-- How often elements can be hoisted if each is met as often as it is in a list. -/
def room (a : Ast) (ids : List NodeId) (y : NodeId) : Nat := a.hoistLimit y * ids.count y

theorem room_append : room a (ids ++ ids') = fun y => room a ids y + room a ids' y := by
  funext y
  unfold room
  rw [List.count_append, Nat.mul_add]

theorem room_cons : room a (x :: ids) = plus (room a ids) x (a.hoistLimit x) := by
  funext y
  unfold room plus
  by_cases hy : y = x
  · subst hy
    rw [count_cons_self, if_pos rfl, mul_succ]
  · rw [count_cons_of_ne (Ne.symm hy), if_neg hy, Nat.add_zero]

theorem room_le_hoistLimit (h : ids.Nodup) (y : NodeId) : room a ids y ≤ a.hoistLimit y := by
  have hcount := Nat.mul_le_mul_left (a.hoistLimit y) (nodup_iff_count.mp h y)
  rwa [Nat.mul_one] at hcount

def LinksNode (o : Options) (a : Ast) (depth : Nat) (entry : Entry) (x : NodeId) : Prop :=
  LinksCode a.hoistLimit [] (room a (a.reached depth x))
    (nodeCode o a entry (a.outlineUpTo depth x))

theorem nodeCodes_links (h : ∀ c ∈ nodes, LinksNode o a depth .child c) :
    LinksAll a.hoistLimit [] (room a (nodes.flatMap (a.reached depth)))
      (nodeCodes o a (nodes.map (a.outlineUpTo depth))) := by
  induction nodes with
  | nil => exact .pure rfl
  | cons c rest ih =>
    rw [map_cons, nodeCodes, flatMap_cons, room_append]
    exact Links.both (h c mem_cons_self) (ih fun d hd => h d (mem_cons_of_mem _ hd)) _
      fun _ _ => rfl

theorem slotCodes_links (slots : List (String × NodeId))
    (h : ∀ slot ∈ slots, LinksNode o a depth (.slot slot.1) slot.2) :
    LinksAll a.hoistLimit [] (room a ((slots.map (·.2)).flatMap (a.reached depth)))
      (slotCodes o a slots (slots.map fun slot => a.outlineUpTo depth slot.2)) := by
  induction slots with
  | nil => exact .pure rfl
  | cons slot rest ih =>
    rw [map_cons, map_cons, slotCodes, flatMap_cons, room_append]
    exact Links.both (h slot mem_cons_self) (ih fun d hd => h d (mem_cons_of_mem _ hd)) _
      fun _ _ => rfl

theorem chainCode_cons_links {c : Condition} {conditions : List Condition} {branch : Outline}
    (hfirst : LinksCode limit recs bound
      (if c.block = x then self else nodeCode o a .branch branch))
    (hrest : LinksCode limit recs bound' (chainCode o a x self conditions branches)) :
    LinksCode limit recs (fun y => bound y + bound' y)
      (chainCode o a x self (c :: conditions) (branch :: branches)) := by
  obtain ⟨exp, block⟩ := c
  cases exp with
  | some exp => exact Links.both hfirst hrest _ fun _ _ => rfl
  | none =>
    refine (Links.map hfirst (fun code => code) fun _ => rfl).le fun y => ?_
    exact le_add_right _ _

def branchOutline (a : Ast) (depth : Nat) (x : NodeId) (c : Condition) : Outline :=
  if c.block = x then .node x [] [] [] else a.outlineUpTo depth c.block

theorem chainCode_links
    (conditions : List Condition) (hself : LinksCode a.hoistLimit recs bound self)
    (hnodes : ∀ y ∈ (conditions.map (·.block)).erase x, LinksNode o a depth .branch y)
    (hx : x ∉ (conditions.map (·.block)).erase x) :
    LinksCode a.hoistLimit recs (fun y => (if x ∈ conditions.map (·.block) then bound y else 0) +
        room a (((conditions.map (·.block)).erase x).flatMap (a.reached depth)) y)
      (chainCode o a x self conditions (conditions.map (branchOutline a depth x))) := by
  induction conditions with
  | nil => exact .pure rfl
  | cons c rest ih =>
    rw [map_cons] at hnodes hx ⊢
    by_cases hblock : c.block = x
    · rw [hblock, erase_cons_head] at hnodes hx ⊢
      have hoth := erase_of_not_mem hx
      have hrest := ih (hoth.symm ▸ hnodes) (hoth.symm ▸ hx)
      rw [hoth] at hrest
      refine (chainCode_cons_links (by rwa [if_pos hblock]) hrest).le ?_
      simp [hx]
    · rw [erase_cons_tail (by simpa using hblock)] at hnodes hx ⊢
      have hfirst : LinksCode a.hoistLimit recs (room a (a.reached depth c.block))
          (if c.block = x then self else nodeCode o a .branch (branchOutline a depth x c)) := by
        rw [if_neg hblock, branchOutline, if_neg hblock]
        exact (hnodes c.block mem_cons_self).anywhere
      have hrest := ih (fun y hy => hnodes y (mem_cons_of_mem _ hy))
        fun hmem => hx (mem_cons_of_mem _ hmem)
      refine (chainCode_cons_links hfirst hrest).le fun y => ?_
      rw [flatMap_cons, room_append]
      simp only [mem_cons, Ne.symm hblock, false_or]
      omega

theorem element_links (ho : o.WebModules) (hel : a.element? x = some el)
    {children slots : List Outline} {kids slotted others : NodeId → Nat}
    (hkids : LinksAll a.hoistLimit [] kids (nodeCodes o a children))
    (hfirst : LinksCode a.hoistLimit [] a.hoistLimit (firstCode o a children))
    (hslots : LinksAll a.hoistLimit [] slotted (slotCodes o a el.scopedSlots slots))
    (hbrs : ∀ recs bound self, LinksCode a.hoistLimit recs bound self →
      LinksCode a.hoistLimit recs (fun y => bound y + others y)
        (chainCode o a x self el.conditions branches)) (entry : Entry) :
    LinksCode a.hoistLimit [] (plus (fun y => slotted y + kids y + others y) x (a.hoistLimit x))
      (nodeCode o a entry (.node x children slots branches)) := by
  have hkind : a.kind? x = some (.element el) := Ast.element?_eq_some_iff.mp hel
  have hinl : LinksAll a.hoistLimit [] (fun _ => 0)
      (inlineTemplate a el (firstCode o a children)) :=
    inlineTemplate_links hfirst fun _ => le_refl _
  let code := bareCode o a x el (nodeCodes o a children) (slotCodes o a el.scopedSlots slots)
    (inlineTemplate a el (firstCode o a children))
  have hchained : Chained a.hoistLimit (fun y => slotted y + kids y)
      (fun y => slotted y + kids y + others y) x (branchWrapped o.tags a x el code code)
      (chainCode o a x (branchWrapped o.tags a x el code code) el.conditions branches) code := by
    refine ⟨bareCode_links ho hkids hslots hinl, fun _ => le_add_right _ _, ?_⟩
    intro recs n hself
    refine (hbrs recs _ _ hself).le fun y => ?_
    unfold plus
    dsimp only
    omega
  rw [nodeCode, hkind]
  cases entry with
  | child => exact hchained.wrapped hel
  | branch => exact hchained.branchWrapped hel
  | slot key =>
    refine scopedSlot_links key (hkids.le fun y => ?_) (hchained.wrapped hel)
    unfold plus
    dsimp only
    omega

/-- Texts and comments use nothing. -/
theorem leaf_links (hnone : a.element? x = none) (entry : Entry)
    (children slots branches : List Outline) :
    LinksCode limit [] bound (nodeCode o a entry (.node x children slots branches)) := by
  rw [nodeCode]
  cases hkind : a.kind? x with
  | none => exact .pure rfl
  | some kind =>
    cases kind with
    | element el =>
      rw [Ast.element?_eq_some_iff.mpr hkind] at hnone
      cases hnone
    | text _ _ _ => exact .pure rfl
    | comment _ _ => exact .pure rfl

theorem firstCode_links (h : ∀ c ∈ nodes, LinksNode o a depth .child c)
    (hnodup : ∀ c ∈ nodes, (a.reached depth c).Nodup) :
    LinksCode a.hoistLimit [] a.hoistLimit (firstCode o a (nodes.map (a.outlineUpTo depth))) := by
  cases nodes with
  | nil => exact .pure rfl
  | cons c rest =>
    refine (h c mem_cons_self).le ?_
    exact room_le_hoistLimit (hnodup c mem_cons_self)

theorem node_links (ho : o.WebModules) (depth : Nat) (x : NodeId)
    (hnodup : (a.reached depth x).Nodup) (entry : Entry) : LinksNode o a depth entry x := by
  induction depth generalizing x entry with
  | zero =>
    -- at the cut nothing is linked, whatever the element says
    cases hel : a.element? x with
    | none => exact leaf_links hel entry [] [] []
    | some el =>
      have hchain (recs : List (NodeId × Wrapper)) (bound : NodeId → Nat) (self : Gen Code)
          (_ : LinksCode a.hoistLimit recs bound self) :
          LinksCode a.hoistLimit recs (fun y => bound y + room a [] y)
            (chainCode o a x self el.conditions []) := by
        cases el.conditions <;> exact .pure rfl
      have hslots : LinksAll a.hoistLimit [] (room a []) (slotCodes o a el.scopedSlots []) := by
        cases el.scopedSlots <;> exact .pure rfl
      unfold LinksNode
      rw [Ast.reached, room_cons]
      have hkids : LinksAll a.hoistLimit [] (room a []) (nodeCodes o a []) := .pure rfl
      exact (element_links ho hel hkids (.pure rfl) hslots hchain entry).le fun y => by
        simp [plus, room]
  | succ depth ih =>
    cases hel : a.element? x with
    | none =>
      unfold LinksNode
      rw [Ast.outlineUpTo, hel]
      exact leaf_links hel entry [] [] []
    | some el =>
      have hreached : a.reached (depth + 1) x = x :: (el.children ++ el.slotNodes ++
          (el.conditions.map (·.block)).erase x).flatMap (a.reached depth) := by
        rw [Ast.reached, hel]
        rfl
      rw [hreached, nodup_cons, nodup_flatMap] at hnodup
      obtain ⟨hx, hparts, -⟩ := hnodup
      have hnode (c : NodeId) (hc : c ∈ el.children ++ el.slotNodes ++
          (el.conditions.map (·.block)).erase x) (entry : Entry) : LinksNode o a depth entry c :=
        ih c (hparts c hc) entry
      have hself : x ∉ (el.conditions.map (·.block)).erase x := fun hmem =>
        hx (mem_flatMap.mpr ⟨x, mem_append_right _ hmem, a.mem_reached_self depth x⟩)
      have hkids : ∀ c ∈ el.children, c ∈ el.children ++ el.slotNodes ++
          (el.conditions.map (·.block)).erase x := fun c hc =>
        mem_append_left _ (mem_append_left _ hc)
      have helt := element_links ho hel (nodeCodes_links fun c hc => hnode c (hkids c hc) .child)
        (firstCode_links (fun c hc => hnode c (hkids c hc) .child)
          fun c hc => hparts c (hkids c hc))
        (slotCodes_links _ fun slot hslot => hnode slot.2 (mem_append_left _
          (mem_append_right _ (List.mem_map_of_mem hslot))) (.slot slot.1))
        (fun recs bound self h => (chainCode_links _ h (fun y hy =>
          hnode y (mem_append_right _ hy) .branch) hself).le fun y =>
            Nat.add_le_add_right (by split <;> omega) _) entry
      unfold LinksNode
      rw [hreached, room_cons, Ast.outlineUpTo, hel]
      refine helt.le fun y => ?_
      unfold plus
      rw [flatMap_append, flatMap_append, room_append, room_append]
      dsimp only [Element.slotNodes]
      omega

end Trees

end Gen

/-- The code of a tree uses each hoisted body once, and only in later ones or in the main body; each
piece that is rendered once has a number of its own; and no element is hoisted more often than its
limit, which is one but for the roots of `Ast.hoistLimit`. So it is in each inline template. -/
theorem generate_linked (o : Options) (ho : ∀ m ∈ o.modules, m ∈ Web.modules) (a : Ast)
    (ha : a.TreeShaped) :
    ∃ bodies, (generate o a).result = .ok bodies ∧
      Linked a.hoistLimit bodies.main bodies.hoisted := by
  cases hroot : a.root with
  | none =>
    refine ⟨{ main := "_c(\"div\")" }, by rw [generate, hroot]; rfl, ?_⟩
    have hnothing : Adds a.hoistLimit (fun _ => 0) {} (text "_c(\"div\")").uses [] {} :=
      .nothing ..
    exact hnothing.linked fun _ => zero_le _
  | some root =>
    have hnodup := ha root hroot
    obtain ⟨main, s', new, hmain, hadds⟩ :=
      Gen.node_links ho a.nodes.size root hnodup .child {} (nil_subset _)
    refine ⟨{ main, hoisted := s'.hoisted }, ?_, hadds.linked (Gen.room_le_hoistLimit hnodup)⟩
    rw [result_generate hroot, Ast.outline, hmain]
    rfl

/-- A static root with a condition that is to be rendered once: it is hoisted with its chain, and
again inside the chain. -/
theorem generate_linked_root : ∃ a : Ast, a.TreeShaped ∧ a.hoistLimit 0 = 2 ∧ ∃ bodies,
      (generate Web.options a).result = .ok bodies ∧
      Linked a.hoistLimit bodies.main bodies.hoisted ∧
      (bodies.main.uses ++ usesAll bodies.hoisted).filterMap Use.hoisted? = [0, 0] := by
  let root : Element :=
    { tag := "div", children := [1], ifExp := some "a", conditions := [⟨some "a", 0⟩],
      once := true, plain := true, marks := { isStatic := true, root := true } }
  let a : Ast :=
    { nodes := #[⟨none, .element root⟩, ⟨some 0, .text "x" none false⟩], root := some 0 }
  have ha : a.TreeShaped := by decide
  obtain ⟨bodies, hbodies, hlinked⟩ := generate_linked Web.options (fun _ h => h) a ha
  refine ⟨a, ha, rfl, bodies, hbodies, hlinked, ?_⟩
  have hhoisted : (generate Web.options a).result.map (fun bodies =>
      (bodies.main.uses ++ usesAll bodies.hoisted).filterMap Use.hoisted?) = .ok [0, 0] := rfl
  rw [hbodies] at hhoisted
  exact Except.ok.inj hhoisted

end TemplateCompiler
