import TemplateCompiler.Proofs.Ancestry
import TemplateCompiler.Proofs.Building
import TemplateCompiler.Proofs.Marking
import TemplateCompiler.Render.Reentry

/-!
# Runs that enter elements again

In a tree whose links lead to later nodes and whose nodes are where its links lead, a generator that
enters elements again is never given up: it gives the code of the tree (`generate_eq_reentrant`).
-/

namespace TemplateCompiler

/-- Children, scoped slots and branches come after their element. Only the first branch of a chain
may be the element itself. -/
structure Ast.Ascending (a : Ast) : Prop where
  children : ∀ id el, a.element? id = some el → ∀ x ∈ el.children, id < x
  slots : ∀ id el, a.element? id = some el → ∀ slot ∈ el.scopedSlots, id < slot.2
  first : ∀ id el, a.element? id = some el → ∀ c ∈ el.conditions.head?, c.block = id ∨ id < c.block
  rest : ∀ id el, a.element? id = some el → ∀ c ∈ el.conditions.tail, id < c.block

theorem Ast.WellFormed.ascending {a : Ast} (h : a.WellFormed) : a.Ascending where
  children id el hel _ hx := (h.fits id el hel).lt_of_mem_links (Element.child_link hx)
  slots id el hel _ hslot :=
    (h.fits id el hel).lt_of_mem_links (Element.slot_link (List.mem_map_of_mem hslot))
  first id el hel c hc := .inl (h.acyclic.chain id el hel c hc)
  rest id el hel _ hc :=
    (h.fits id el hel).lt_of_mem_links (Element.branch_link (List.mem_map_of_mem hc))

/-- Nodes are where links lead to: the root, scoped slots and branches are elements, children are in
the tree, and parents come before their nodes. -/
structure Ast.Connected (a : Ast) : Prop where
  root : ∀ r ∈ a.root, (a.element? r).isSome
  children : ∀ id el, a.element? id = some el → ∀ x ∈ el.children, x < a.nodes.size
  slots : ∀ id el, a.element? id = some el → ∀ slot ∈ el.scopedSlots, (a.element? slot.2).isSome
  branches : ∀ id el, a.element? id = some el → ∀ c ∈ el.conditions, (a.element? c.block).isSome
  parents : a.ParentsFirst

theorem Ast.WellFormed.connected {a : Ast} (h : a.WellFormed)
    (hroot : ∀ r ∈ a.root, (a.element? r).isSome) : a.Connected where
  root := hroot
  children id el hel x hx := (h.fits id el hel).inTree x (Element.child_link hx)
  slots id el hel _ hslot := (h.fits id el hel).slotElements _ (List.mem_map_of_mem hslot)
  branches id el hel := (h.fits id el hel).blockElements
  parents := h.parents

section

variable {a : Ast} (h : a.WellFormed) (o : Options)

include h

theorem Ast.WellFormed.ascending_optimize : (a.optimize o).Ascending :=
  (h.of_unmarked (Ast.unmarked_optimize o a)).ascending

theorem Ast.WellFormed.connected_optimize (hroot : ∀ r ∈ a.root, (a.element? r).isSome) :
    (a.optimize o).Connected := by
  have hunmarked := Ast.unmarked_optimize o a
  refine (h.of_unmarked hunmarked).connected fun r hr => ?_
  rw [Ast.root_optimize] at hr
  exact (Ast.extends_of_unmarked hunmarked).element r (hroot r hr)

end

namespace Reentrant

open Gen

variable (o : Options) (a : Ast) (stuck : Gen Code)

/-! ## Wrappers that are left -/

section Left

variable {id : NodeId} {el : Element} {w : Wrapper} {s : GenState} {α β : Type} {x y : Gen α}

abbrev put (id : NodeId) (w : Wrapper) (s : GenState) : GenState :=
  { s with done := (id, w) :: s.done }

def lacks (id : NodeId) (w : Wrapper) (s : GenState) : Bool := !s.done.contains (id, w)

@[simp] theorem lacks_put (w' : Wrapper) :
    lacks id w' (put id w s) = if w' = w then false else lacks id w' s := by
  unfold lacks
  by_cases h : w' = w <;> simp [h]

/-- How often an element is entered again for a wrapper. A chain leads back to its element, which
may then be entered without a wrapper being put. -/
def weight : Wrapper → Nat
  | .condition => 2
  | _ => 1

/-- How often an element can still be entered again. -/
def left (id : NodeId) (s : GenState) : Nat :=
  (lacks id .hoist s).toNat + (lacks id .once s).toNat + (lacks id .loop s).toNat +
    2 * (lacks id .condition s).toNat

theorem left_put (id : NodeId) (w : Wrapper) (s : GenState) :
    left id (put id w s) + weight w * (lacks id w s).toNat = left id s := by
  unfold left
  cases w <;> simp [weight] <;> omega

theorem left_put_le (id : NodeId) (w : Wrapper) (s : GenState) :
    left id (put id w s) ≤ left id s :=
  Nat.le.intro (left_put id w s)

theorem left_put_lt (h : lacks id w s) : left id (put id w s) < left id s := by
  have hput := left_put id w s
  have hpos : 0 < weight w := by cases w <;> decide
  rw [h, Bool.toNat_true, Nat.mul_one] at hput
  omega

theorem left_lt (id : NodeId) (s : GenState) : left id s + 1 < maxVisits := by
  have h (b : Bool) : b.toNat ≤ 1 := b.toNat_le
  have := h (lacks id .hoist s)
  have := h (lacks id .once s)
  have := h (lacks id .loop s)
  have := h (lacks id .condition s)
  simp only [left, maxVisits]
  omega

theorem mark_bind (x : Gen α) : (mark id w >>= fun _ => x) s = x (put id w s) :=
  pure_bind (m := Outcome) ((), put id w s) fun p => x p.2

theorem isPending_bind (f : Bool → Gen α) : (isPending id w >>= f) s = f (lacks id w s) s := by
  have h : (isPending id w) s = pure (lacks id w s, s) := pure_bind (m := Outcome) (s, s) _
  exact (congrArg (fun r : Outcome (Bool × GenState) => r >>= fun p => f p.1 p.2) h).trans
    (pure_bind (m := Outcome) _ _)

theorem bind_congr_at (f : α → Gen β) (h : x s = y s) : (x >>= f) s = (y >>= f) s :=
  congrArg (fun r : Outcome (α × GenState) => r >>= fun p => f p.1 p.2) h

theorem report_congr (n : Noted Unit) (h : x s = y s) :
    ((liftM n : Gen Unit) >>= fun _ => x) s = ((liftM n : Gen Unit) >>= fun _ => y) s := by
  have hrun (x : Gen α) : ((liftM n : Gen Unit) >>= fun _ => x) s =
      (liftM n : Outcome Unit) >>= fun _ => x s :=
    (bind_assoc (m := Outcome) _ _ _).trans (bind_congr fun _ => pure_bind (m := Outcome) _ _)
  rw [hrun, hrun, h]

end Left

/-! ## Wrappers one by one -/

section Wrappers

variable {o a} {tags : TagTable} {id : NodeId} {el : Element} {s : GenState}
  {x y chain code : Gen Code} {note : LoopHead → Gen Unit}

theorem hoist_congr (h : x (put id .once (put id .hoist s)) = y (put id .once (put id .hoist s))) :
    hoist id el x s = hoist id el y s := by
  unfold hoist
  rw [mark_bind, mark_bind, mark_bind, mark_bind]
  exact bind_congr_at _ h

theorem conditional_eq : conditional id el chain code s =
    if el.ifExp.isSome && lacks id .condition s then chain (put id .condition s) else code s := by
  unfold conditional
  rw [isPending_bind]
  split
  · exact mark_bind chain
  · rfl

theorem looped_congr (hnote : ∀ head {x y : Gen Code} {s}, x s = y s →
      (note head >>= fun _ => x) s = (note head >>= fun _ => y) s)
    (h : (el.loop.isSome && lacks id .loop s) = false → x s = y s)
    (hput : lacks id .loop s → x (put id .loop s) = y (put id .loop s)) :
    looped id el note x s = looped id el note y s := by
  unfold looped
  cases hloop : el.loop with
  | none => exact h (by rw [hloop]; rfl)
  | some head =>
    simp only [isPending_bind]
    cases hl : lacks id .loop s with
    | false => exact h (by rw [hl, Bool.and_false])
    | true =>
      simp only [if_true, mark_bind]
      exact hnote head (bind_congr_at _ (hput hl))

theorem looped_eq (h : (el.loop.isSome && lacks id .loop s) = false) :
    looped id el note x s = x s := by
  unfold looped
  cases hloop : el.loop with
  | none => rfl
  | some head =>
    rw [hloop, Option.isSome_some, Bool.true_and] at h
    simp only [isPending_bind, h]
    rfl

theorem repeated_congr (h : (el.loop.isSome && lacks id .loop s) = false → x s = y s)
    (hput : lacks id .loop s → x (put id .loop s) = y (put id .loop s)) :
    repeated tags id el x s = repeated tags id el y s := by
  refine looped_congr (fun head => ?_) h hput
  intro x y s hxy
  split
  · exact report_congr _ hxy
  · exact bind_congr_at (x := pure ()) _ rfl |>.trans hxy

/-- An element that needs neither a body of its own nor a mark of being rendered once. -/
theorem wrapped_eq (hhoist : (el.marks.root && lacks id .hoist s) = false)
    (honce : (el.once && lacks id .once s) = false) :
    wrapped tags a id el chain code s = repeated tags id el (conditional id el chain code) s := by
  unfold wrapped
  simp only [isPending_bind, hhoist, honce, Bool.false_eq_true, if_false]

/-- The chain of an element is written, or it starts none. -/
def Settled (id : NodeId) (el : Element) (s : GenState) : Prop :=
  (el.ifExp.isSome && lacks id .condition s) = false

theorem Settled.put (h : Settled id el s) (w : Wrapper) : Settled id el (put id w s) := by
  unfold Settled at h ⊢
  cases w <;> simp_all

theorem Settled.conditional (h : Settled id el s) : conditional id el chain code s = code s := by
  rw [conditional_eq, h]
  rfl

theorem Settled.repeated (h : Settled id el s) :
    repeated tags id el (Gen.conditional id el chain code) s = repeated tags id el code s :=
  repeated_congr (fun _ => h.conditional) fun _ => (h.put .loop).conditional

theorem Settled.wrapped (h : Settled id el s) (honce : lacks id .once s = false) :
    wrapped tags a id el chain code s = hoistRoot id el (Gen.repeated tags id el code) s := by
  unfold Gen.wrapped hoistRoot
  rw [isPending_bind, isPending_bind]
  split
  · exact hoist_congr ((h.put .hoist).put .once).repeated
  · simp only [isPending_bind, honce, Bool.and_false, Bool.false_eq_true, if_false]
    exact h.repeated

theorem onceWrapped_eq : onceWrapped tags a id el chain code s =
    conditional id el chain (renderedOnce a id el (repeated tags id el code)) (put id .once s) :=
  mark_bind _

/-- Once its chain is written, an element is wrapped as if it had none. -/
theorem branchWrapped_eq (hdone : lacks id .condition s = false) :
    branchWrapped tags a id el chain code s = branchWrapped tags a id el code code s := by
  have hset : Settled id el s := by rw [Settled, hdone, Bool.and_false]
  have honce : onceWrapped tags a id el chain code s = onceWrapped tags a id el code code s := by
    rw [onceWrapped_eq, onceWrapped_eq, (hset.put .once).conditional,
      (hset.put .once).conditional]
  unfold branchWrapped
  split
  · exact honce
  · unfold wrapped
    simp only [isPending_bind]
    split
    · have hset' := (hset.put .hoist).put .once
      exact hoist_congr (hset'.repeated.trans hset'.repeated.symm)
    · simp only [isPending_bind]
      split
      · exact honce
      · exact hset.repeated.trans hset.repeated.symm

end Wrappers

/-! ## Entering as long as wrappers are left -/

section Element

variable {o a stuck} {tags : TagTable} {id : NodeId} {el : Element} {s : GenState}
  {code x y : Gen Code}
  {again : Entry → Gen Code} {C : Gen Code → Gen Code} {n : Nat}

theorem keyAbove_eq (h : a.ParentsFirst) (found : Option String → Gen Code) {depth x : Nat}
    (hdepth : x < depth) (hx : x < a.nodes.size) :
    keyAbove a stuck found depth x = found (loopKey? a x) := by
  induction depth generalizing x with
  | zero => cases hdepth
  | succ depth ih =>
    unfold keyAbove loopKey? Ast.ancestorElements
    cases hpar : a.parent? x with
    | none => rw [Ast.ancestors_of_no_parent hpar]; rfl
    | some p =>
      have hp := h x p hpar
      have hrest := ih (Nat.lt_of_lt_of_le hp (Nat.le_of_lt_succ hdepth)) (Nat.lt_trans hp hx)
      unfold loopKey? Ast.ancestorElements at hrest
      rw [h.ancestors_of_parent hpar]
      cases hel : a.element? p with
      | none => simpa [hel] using hrest
      | some el =>
        cases hloop : el.loop.isSome with
        | true => simp [hel, hloop, Option.filter]
        | false => simpa [hel, hloop, Option.filter] using hrest

/-- What entering an element up to `n` more times gives as long as fewer wrappers are left. The
chain is written by `C`, given the code of the element as its first branch. -/
structure Covers (tags : TagTable) (a : Ast) (stuck : Gen Code) (id : NodeId) (el : Element)
    (C : Gen Code → Gen Code) (code : Gen Code) (again : Entry → Gen Code) (n : Nat) : Prop where
  key : ∀ found, keyAbove a stuck found (a.nodes.size + 1) id = found (loopKey? a id)
  chain : ∀ {x y : Gen Code} {s}, x s = y s → C x s = C y s
  child : ∀ s, left id s < n →
    again .child s = wrapped tags a id el (C (branchWrapped tags a id el code code)) code s
  branch : ∀ s, left id s + 1 < n →
    again .branch s = branchWrapped tags a id el (C (branchWrapped tags a id el code code)) code s

namespace Covers

variable (h : Covers tags a stuck id el C code again n)

include h

theorem conditional_eq {x y : Gen Code} (hleft : left id s ≤ n)
    (hxy : Settled id el s → x s = y s) :
    conditional id el (C (again .branch)) x s =
      conditional id el (C (branchWrapped tags a id el code code)) y s := by
  rw [Reentrant.conditional_eq, Reentrant.conditional_eq]
  split
  next hc =>
    have hlacks := (Bool.and_eq_true _ _ ▸ hc).2
    have hput := left_put id .condition s
    have hdone : lacks id .condition (put id .condition s) = false := by rw [lacks_put, if_pos rfl]
    rw [hlacks, weight, Bool.toNat_true] at hput
    refine h.chain ?_
    rw [h.branch _ (by omega), branchWrapped_eq hdone]
  next hc => exact hxy (Bool.eq_false_of_not_eq_true hc)

theorem onceCode_eq (hleft : left id (put id .once s) < n) :
    onceCode a stuck id el (C (again .branch)) (again .child) s =
      onceWrapped tags a id el (C (branchWrapped tags a id el code code)) code s := by
  rw [onceWrapped_eq]
  unfold onceCode
  rw [mark_bind]
  refine h.conditional_eq (Nat.le_of_lt hleft) fun hset => ?_
  have honce : lacks id .once (put id .once s) = false := by rw [lacks_put, if_pos rfl]
  have hagain := (h.child _ hleft).trans (hset.wrapped honce)
  unfold renderedOnce
  split
  · refine hoist_congr ?_
    have hle := Nat.le_trans (left_put_le id .once _) (left_put_le id .hoist (put id .once s))
    rw [h.child _ (Nat.lt_of_le_of_lt hle hleft),
      ((hset.put .hoist).put .once).wrapped (by rw [lacks_put, if_pos rfl])]
    unfold hoistRoot
    simp [isPending_bind]
  · rw [h.key]
    cases loopKey? a id with
    | some key => exact bind_congr_at _ hagain
    | none => exact report_congr _ hagain

theorem elementCode_eq (hleft : left id s ≤ n) :
    elementCode tags a stuck id el (C (again .branch)) (again .child) code s =
      wrapped tags a id el (C (branchWrapped tags a id el code code)) code s := by
  unfold elementCode wrapped
  simp only [isPending_bind]
  split
  next hroot =>
    have hput := left_put_lt (Bool.and_eq_true _ _ ▸ hroot).2
    have hle := left_put_le id .once (put id .hoist s)
    refine hoist_congr ?_
    rw [h.child _ (by omega), wrapped_eq (by simp) (by simp)]
  next hroot =>
    simp only [isPending_bind]
    split
    next honce =>
      have hput := left_put_lt (Bool.and_eq_true _ _ ▸ honce).2
      exact h.onceCode_eq (by omega)
    next honce =>
      simp only [isPending_bind]
      split
      next hloop =>
        refine repeated_congr (fun hno => absurd hloop (by rw [hno]; simp)) fun hl => ?_
        have hput := left_put_lt hl
        rw [h.child _ (by omega), wrapped_eq (by simpa using hroot) (by simpa using honce)]
        exact looped_eq (by simp)
      next hloop =>
        refine .trans ?_ (looped_eq (Bool.eq_false_of_not_eq_true hloop)).symm
        exact h.conditional_eq hleft fun _ => rfl

end Covers

/-- A chain runs the element itself at most once, and before all else. -/
theorem chainCode_congr {conditions : List Condition} (hrest : ∀ c ∈ conditions.tail, c.block ≠ id)
    (enter : NodeId → Gen Code) (hxy : x s = y s) :
    chainCode id (fun z => if z = id then x else enter z) conditions s =
      chainCode id (fun z => if z = id then y else enter z) conditions s := by
  have hlater (rest : List Condition) (h : ∀ c ∈ rest, c.block ≠ id) (x : Gen Code) :
      chainCode id (fun z => if z = id then x else enter z) rest = chainCode id enter rest := by
    induction rest with
    | nil => rfl
    | cons c rest ih =>
      rw [List.forall_mem_cons] at h
      simp only [chainCode, if_neg h.1, ih h.2]
  cases conditions with
  | nil => rfl
  | cons c rest =>
    simp only [chainCode, hlater rest hrest]
    split
    · exact bind_congr_at _ hxy
    · rfl

theorem slotBody_congr {children : Gen (List Code)} (hxy : x s = y s) :
    slotBody id el children x s = slotBody id el children y s := by
  unfold slotBody
  split
  · rfl
  · exact hxy

/-- What the generator makes of an element, entered in any way. -/
def codeOf (tags : TagTable) (a : Ast) (id : NodeId) (el : Element) (children : Gen (List Code))
    (chain code : Gen Code) : Entry → Gen Code
  | .child => wrapped tags a id el chain code
  | .branch => branchWrapped tags a id el chain code
  | .slot key => scopedSlot key id el children (wrapped tags a id el chain code)

/-- One more visit than wrappers are left is enough, and one more again for a branch or a slot. -/
theorem entered_eq (hparents : a.ParentsFirst) (hid : id < a.nodes.size)
    (hrest : ∀ c ∈ el.conditions.tail, c.block ≠ id)
    (move : Entry → NodeId → Gen Code) (n : Nat) (entry : Entry) (s : GenState)
    (hleft : left id s + (if entry = .child then 0 else 1) < n) :
    entered o a stuck id el move n entry s =
      codeOf o.tags a id el (el.children.mapM (move .child))
        (chainCode id (fun x => if x = id then
            branchWrapped o.tags a id el (innerCode o a id el move) (innerCode o a id el move)
          else move .branch x) el.conditions)
        (innerCode o a id el move) entry s := by
  induction n generalizing entry s with
  | zero => exact absurd hleft (Nat.not_lt_zero _)
  | succ n ih =>
    have hcovers : Covers o.tags a stuck id el
        (fun self => chainCode id (fun x => if x = id then self else move .branch x) el.conditions)
        (innerCode o a id el move) (entered o a stuck id el move n) n :=
      { key := fun found => keyAbove_eq hparents found (Nat.lt_succ_of_lt hid) hid
        chain := chainCode_congr hrest _
        child := fun s hs => ih .child s hs
        branch := fun s hs => ih .branch s hs }
    cases entry with
    | child => exact hcovers.elementCode_eq (Nat.le_of_lt_succ hleft)
    | branch =>
      have hlt : left id s < n := Nat.lt_of_succ_lt_succ hleft
      change (ite _ _ _ : Gen Code) s = (ite _ _ _ : Gen Code) s
      split
      · exact hcovers.onceCode_eq (Nat.lt_of_le_of_lt (left_put_le id .once s) hlt)
      · exact hcovers.elementCode_eq (Nat.le_of_lt hlt)
    | slot key =>
      have hlt : left id s < n := Nat.lt_of_succ_lt_succ hleft
      unfold entered slotCode codeOf scopedSlot
      simp only [isPending_bind]
      split
      next hloop =>
        refine looped_congr (fun _ {x y s} hxy => bind_congr_at (x := pure ()) _ rfl |>.trans hxy)
          (fun hno => absurd hloop (by rw [hno]; simp)) fun hl => ?_
        have hput := left_put_lt hl
        rw [ih (.slot key) _ (by simp; omega)]
        exact looped_eq (by simp)
      next hloop =>
        refine .trans ?_ (looped_eq (Bool.eq_false_of_not_eq_true hloop)).symm
        exact bind_congr_at _ (slotBody_congr (ih .child s hlt))

end Element

/-! ## Moving to later nodes -/

section Tree

variable {o a stuck} {outline : NodeId → Outline} {move : NodeId → Gen Code} {id : NodeId}

theorem nodeCodes_eq (ids : List NodeId)
    (h : ∀ x ∈ ids, move x = Gen.nodeCode o a .child (outline x)) :
    ids.mapM move = Gen.nodeCodes o a (ids.map outline) := by
  induction ids with
  | nil => rw [List.mapM_nil]; rfl
  | cons x rest ih =>
    rw [List.forall_mem_cons] at h
    rw [List.mapM_cons, h.1, ih h.2]
    rfl

theorem slotCodes_eq {move : Entry → NodeId → Gen Code}
    (slots : List (String × NodeId)) (h : ∀ slot ∈ slots, move (.slot slot.1) slot.2 =
      Gen.nodeCode o a (.slot slot.1) (outline slot.2)) :
    (slots.mapM fun slot => move (.slot slot.1) slot.2) =
      Gen.slotCodes o a slots (slots.map fun slot => outline slot.2) := by
  induction slots with
  | nil => rw [List.mapM_nil]; rfl
  | cons slot rest ih =>
    rw [List.forall_mem_cons] at h
    rw [List.mapM_cons, h.1, ih h.2]
    rfl

theorem chainCode_eq {self : Gen Code} (conditions : List Condition)
    (h : ∀ c ∈ conditions, c.block ≠ id →
      move c.block = Gen.nodeCode o a .branch (outline c.block)) :
    chainCode id (fun x => if x = id then self else move x) conditions =
      Gen.chainCode o a id self conditions (conditions.map fun c =>
        if c.block = id then .node id [] [] [] else outline c.block) := by
  induction conditions with
  | nil => rfl
  | cons c rest ih =>
    rw [List.forall_mem_cons] at h
    have hcode : (if c.block = id then self else move c.block) = if c.block = id then self
        else Gen.nodeCode o a .branch
          (if c.block = id then .node id [] [] [] else outline c.block) := by
      by_cases hself : c.block = id
      · rw [if_pos hself, if_pos hself]
      · rw [if_neg hself, if_neg hself, if_neg hself, h.1 hself]
    cases hexp : c.exp <;>
      simp only [List.map_cons, chainCode, Gen.chainCode, hexp, hcode, ih h.2]

theorem element_eq {el : Element}
    {move : Entry → NodeId → Gen Code} (hparents : a.ParentsFirst)
    (hkind : a.kind? id = some (.element el)) (hrest : ∀ c ∈ el.conditions.tail, c.block ≠ id)
    (hkids : ∀ x ∈ el.children, move .child x = Gen.nodeCode o a .child (outline x))
    (hslots : ∀ slot ∈ el.scopedSlots, move (.slot slot.1) slot.2 =
      Gen.nodeCode o a (.slot slot.1) (outline slot.2))
    (hbrs : ∀ c ∈ el.conditions, c.block ≠ id →
      move .branch c.block = Gen.nodeCode o a .branch (outline c.block)) (entry : Entry) :
    entered o a stuck id el move maxVisits entry =
      Gen.nodeCode o a entry (.node id (el.children.map outline)
        (el.scopedSlots.map fun slot => outline slot.2)
        (el.conditions.map fun c =>
          if c.block = id then .node id [] [] [] else outline c.block)) := by
  have hfirst : el.children.head?.elim (pure ("" : Code)) (move .child) =
      firstCode o a (el.children.map outline) := by
    cases hlist : el.children with
    | nil => rfl
    | cons x rest => exact hkids x (by rw [hlist]; exact List.mem_cons_self)
  have henough (s : GenState) : left id s + (if entry = .child then 0 else 1) < maxVisits := by
    have := left_lt id s
    split <;> omega
  funext s
  have hid : id < a.nodes.size := Ast.kind?_isSome_iff.mp (by rw [hkind]; rfl)
  rw [entered_eq hparents hid hrest move maxVisits entry s (henough s),
    chainCode_eq el.conditions hbrs, innerCode, nodeCodes_eq el.children hkids,
    slotCodes_eq el.scopedSlots hslots, hfirst, Gen.nodeCode, hkind]
  cases entry <;> rfl

/-- A node is generated from its number as it is from its outline, if it is where it can be
generated and both may go on to the last node of the tree. -/
theorem nodeCode_eq (h : a.Ascending) (hcon : a.Connected) {depth depth' id : Nat}
    (hdepth : a.nodes.size ≤ depth + id) (hdepth' : a.nodes.size ≤ depth' + id) {entry : Entry}
    (hid : id < a.nodes.size) (hentry : entry = .child ∨ (a.element? id).isSome) :
    nodeCode o a stuck (depth + 1) entry id =
      Gen.nodeCode o a entry (a.outlineUpTo depth' id) := by
  induction depth generalizing depth' id entry with
  | zero => omega
  | succ depth ih =>
    cases hel : a.element? id with
    | none =>
      obtain rfl : entry = .child := hentry.resolve_right (by simp [hel])
      obtain ⟨kind, hkind⟩ := Option.isSome_iff_exists.mp (Ast.kind?_isSome_iff.mpr hid)
      rw [Ast.outlineUpTo_of_not_element hel, nodeCode, Gen.nodeCode, hkind]
      rw [Ast.element?, hkind] at hel
      cases kind with
      | element el => cases hel
      | text content tokens isStatic => rfl
      | comment content isStatic => rfl
    | some el =>
      obtain ⟨depth', rfl⟩ : ∃ n, depth' = n + 1 := ⟨depth' - 1, by omega⟩
      have hkind := Ast.element?_eq_some_iff.mp hel
      have hmove {entry : Entry} {x : Nat} (hx : id < x) (hin : x < a.nodes.size)
          (hentry : entry = .child ∨ (a.element? x).isSome) :
          (if id < x then nodeCode o a stuck (depth + 1) entry x else stuck) =
            Gen.nodeCode o a entry (a.outlineUpTo depth' x) := by
        rw [if_pos hx]
        exact ih (by omega) (by omega) hin hentry
      have hbrs (c : Condition) (hc : c ∈ el.conditions) (hne : c.block ≠ id) : id < c.block := by
        have hfirst := h.first id el hel
        have hrest := h.rest id el hel
        cases hconds : el.conditions with
        | nil => rw [hconds] at hc; cases hc
        | cons first rest =>
          rw [hconds] at hc hfirst hrest
          rcases List.mem_cons.mp hc with rfl | hc
          · exact (hfirst c rfl).resolve_left hne
          · exact hrest c hc
      rw [nodeCode, Ast.outlineUpTo, hel, hkind]
      refine element_eq hcon.parents hkind (fun c hc => Nat.ne_of_gt (h.rest id el hel c hc))
        (fun x hx => hmove (h.children id el hel x hx) (hcon.children id el hel x hx) (.inl rfl))
        (fun slot hslot => ?_) (fun c hc hne => ?_) entry
      · have hslotEl := hcon.slots id el hel slot hslot
        exact hmove (h.slots id el hel slot hslot) (Ast.lt_size_of_isSome hslotEl) (.inr hslotEl)
      · have hblock := hcon.branches id el hel c hc
        exact hmove (hbrs c hc hne) (Ast.lt_size_of_isSome hblock) (.inr hblock)

theorem generate_eq (h : a.Ascending) (hcon : a.Connected) (stuck : Gen Code) :
    generate o a stuck = TemplateCompiler.generate o a := by
  unfold generate TemplateCompiler.generate
  cases hroot : a.root with
  | none => rfl
  | some root =>
    have hel := hcon.root root hroot
    have hall : a.nodes.size ≤ a.nodes.size + root := Nat.le_add_right a.nodes.size root
    simp only [hel, if_true, Ast.outline,
      nodeCode_eq h hcon hall hall (Ast.lt_size_of_isSome hel) (.inl rfl)]

theorem generate?_eq (h : a.Ascending) (hcon : a.Connected) {bodies : Bodies}
    (hok : (TemplateCompiler.generate o a).result = .ok bodies) :
    generate? o a = some (TemplateCompiler.generate o a) := by
  unfold generate?
  simp only [generate_eq h hcon, hok]

end Tree

end Reentrant

end TemplateCompiler
