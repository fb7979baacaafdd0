import TemplateCompiler.Proofs.WellFormed

/-!
# The nodes above a node

Each node names its parent, and a parent stands before its nodes. So the chain of parents goes down
in numbers and comes to an end by itself: the limit in `Ast.ancestors` is never met, and what is
above a node is its parent and what is above that. `Ast.anyAbove` asks for an element above a node;
the answer stays the same while a tree grows and its elements change in other ways.
-/

namespace TemplateCompiler.Ast

open List

variable {a a' : Ast} {id x y p : NodeId} {el : Element} {stack : List NodeId} {q : Element → Bool}
  {f : Element → Element}

def ParentsFirst (a : Ast) : Prop := ∀ x p, a.parent? x = some p → p < x

theorem WellFormed.parentsFirst (h : a.WellFormed) : a.ParentsFirst := h.parents

/-- A chain of parents goes down in numbers, so a limit not below the number is never met. -/
theorem ParentsFirst.ancestorsUpTo_congr (h : a.ParentsFirst) {limit limit' id : Nat}
    (hlimit : id ≤ limit) (hlimit' : id ≤ limit') :
    a.ancestorsUpTo limit id = a.ancestorsUpTo limit' id := by
  induction id using Nat.strongRecOn generalizing limit limit' with
  | ind id ih =>
    by_cases hroot : a.parent? id = none
    · cases limit <;> cases limit' <;> simp [ancestorsUpTo, hroot]
    · obtain ⟨p, hpar⟩ : ∃ p : Nat, a.parent? id = some p := Option.ne_none_iff_exists'.mp hroot
      have hlt : p < id := h id p hpar
      obtain ⟨limit, rfl⟩ : ∃ n, limit = n + 1 := ⟨limit - 1, by omega⟩
      obtain ⟨limit', rfl⟩ : ∃ n, limit' = n + 1 := ⟨limit' - 1, by omega⟩
      have hrest : a.ancestorsUpTo limit p = a.ancestorsUpTo limit' p :=
        ih p hlt (by omega) (by omega)
      simp only [ancestorsUpTo, hpar, hrest]

theorem ParentsFirst.ancestors_of_parent (h : a.ParentsFirst) (hpar : a.parent? x = some p) :
    a.ancestors x = p :: a.ancestors p := by
  have hlt : (x : Nat) < a.nodes.size := lt_size_of_parent? hpar
  have hstep : a.ancestors x = a.ancestorsUpTo (a.nodes.size + 1) x :=
    h.ancestorsUpTo_congr (Nat.le_of_lt hlt) (Nat.le_succ_of_le (Nat.le_of_lt hlt))
  rw [hstep, ancestorsUpTo, hpar]
  rfl

theorem ancestors_of_no_parent (hpar : a.parent? x = none) : a.ancestors x = [] := by
  unfold ancestors
  cases a.nodes.size <;> simp [ancestorsUpTo, hpar]

theorem ancestors_of_parent (h : a.WellFormed) (hpar : a.parent? x = some p) :
    a.ancestors x = p :: a.ancestors p :=
  h.parentsFirst.ancestors_of_parent hpar

theorem ancestors_of_parent_eq (h : a.WellFormed) (hpar : a.parent? x = a.parent? y) :
    a.ancestors x = a.ancestors y := by
  cases hp : a.parent? y with
  | none => rw [ancestors_of_no_parent hp, ancestors_of_no_parent (hpar.trans hp)]
  | some p => rw [ancestors_of_parent h hp, ancestors_of_parent h (hpar.trans hp)]

theorem ParentsFirst.lt_of_mem_ancestors (h : a.ParentsFirst) (hy : y ∈ a.ancestors x) : y < x := by
  have hstrong (n : Nat) : ∀ x, y ∈ a.ancestorsUpTo n x → y < x := by
    induction n with
    | zero => intro x hy; cases hy
    | succ n ih =>
      intro x hy
      unfold ancestorsUpTo at hy
      split at hy
      · next p hp =>
        have hlt := h x p hp
        rcases mem_cons.mp hy with rfl | hy
        · exact hlt
        · exact Nat.lt_trans (ih p hy) hlt
      · cases hy
  exact hstrong _ x hy

/-- Parents go down in numbers, so the chain above an old node stays among the old nodes. -/
theorem ParentsFirst.ancestors_extend (h : a.ParentsFirst) (hextends : a.Extends a')
    (hx : x < a.nodes.size) : a'.ancestors x = a.ancestors x := by
  have hchain (limit : Nat) : ∀ x < a.nodes.size,
      a'.ancestorsUpTo limit x = a.ancestorsUpTo limit x := by
    induction limit with
    | zero => intro x _; rfl
    | succ limit ih =>
      intro x hx
      unfold ancestorsUpTo
      rw [hextends.parent x hx]
      cases hpar : a.parent? x with
      | none => rfl
      | some p => exact congrArg _ (ih p (Nat.lt_trans (h x p hpar) hx))
  have hsize : x ≤ a'.nodes.size := Nat.le_trans (Nat.le_of_lt hx) hextends.size
  exact (hchain _ x hx).trans (h.ancestorsUpTo_congr hsize (Nat.le_of_lt hx))

/-! ## Elements above a node -/

def anyAbove (a : Ast) (q : Element → Bool) (x : NodeId) : Bool := (a.ancestorElements x).any q

theorem anyAbove_eq_any : a.anyAbove q x = (a.ancestors x).any fun y => (a.element? y).any q := by
  unfold anyAbove ancestorElements
  rw [any_filterMap]
  rfl

def anyAt (a : Ast) (q : Element → Bool) (parent : Option NodeId) : Bool :=
  parent.any fun p => (a.element? p).any q || a.anyAbove q p

theorem ParentsFirst.anyAbove_eq (h : a.ParentsFirst) :
    a.anyAbove q x = a.anyAt q (a.parent? x) := by
  unfold anyAt anyAbove ancestorElements
  cases hpar : a.parent? x with
  | none => rw [ancestors_of_no_parent hpar]; rfl
  | some p =>
    rw [h.ancestors_of_parent hpar, filterMap_cons, Option.any_some]
    cases a.element? p with
    | none => rfl
    | some el => rfl

/-- The elements above the content of the innermost open element are the open ones. -/
theorem ParentsFirst.anyAt_head (h : a.ParentsFirst) (q : Element → Bool) (hopen : a.Nested stack) :
    a.anyAt q stack.head? = stack.any fun x => (a.element? x).any q := by
  induction stack with
  | nil => rfl
  | cons e rest ih =>
    obtain ⟨-, hpar, hrest⟩ := hopen
    rw [head?_cons, anyAt, Option.any_some, h.anyAbove_eq, hpar, ih hrest, any_cons]

/-- A tree may grow and its elements may change, as long as those that satisfy `q` stay the same. -/
theorem ParentsFirst.anyAbove_congr (h : a.ParentsFirst) (hextends : a.Extends a')
    (hq : ∀ x < a.nodes.size, (a'.element? x).any q = (a.element? x).any q)
    (hx : x < a.nodes.size) : a'.anyAbove q x = a.anyAbove q x := by
  rw [anyAbove_eq_any, anyAbove_eq_any, h.ancestors_extend hextends hx, Bool.eq_iff_iff,
    any_eq_true, any_eq_true]
  refine exists_congr fun y => and_congr_right fun hy => ?_
  rw [hq y (Nat.lt_trans (h.lt_of_mem_ancestors hy) hx)]

theorem any_element?_modifyElement
    (hq : ∀ el, a.element? id = some el → q (f el) = q el) (x : NodeId) :
    ((a.modifyElement id f).element? x).any q = (a.element? x).any q := by
  rw [element?_modifyElement]
  split
  · next heq =>
    subst heq
    cases hel : a.element? id with
    | none => rfl
    | some el => exact hq el hel
  · rfl

/-- Changing an element does not change who is above whom. -/
theorem ancestors_modifyElement : (a.modifyElement id f).ancestors x = a.ancestors x := by
  have hlimit (limit : Nat) (x : NodeId) :
      (a.modifyElement id f).ancestorsUpTo limit x = a.ancestorsUpTo limit x := by
    induction limit generalizing x with
    | zero => rfl
    | succ limit ih =>
      unfold ancestorsUpTo
      rw [parent?_modifyElement]
      cases a.parent? x with
      | none => rfl
      | some p => exact congrArg _ (ih p)
  rw [ancestors, size_modifyElement, hlimit]
  rfl

theorem anyAbove_modifyElement (hq : ∀ el, a.element? id = some el → q (f el) = q el) (x : NodeId) :
    (a.modifyElement id f).anyAbove q x = a.anyAbove q x := by
  rw [anyAbove_eq_any, anyAbove_eq_any, ancestors_modifyElement]
  exact congrArg (a.ancestors x).any (funext (any_element?_modifyElement hq))

end TemplateCompiler.Ast
