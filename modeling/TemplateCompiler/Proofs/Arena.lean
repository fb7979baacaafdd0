import TemplateCompiler.Template.Ast

/-!
# Reading a tree after a change to it

A tree changes in two ways only: a node is added at the end (`push`), or the element in one place is
changed (`modifyElement`). For both, this file says what each look-up gives afterwards. Everything
else about trees is proved from these equations, without opening the array of nodes again.
-/

namespace TemplateCompiler

variable {kind : NodeKind} {parent : Option NodeId} {f : Element → Element} {els : List Element}

def NodeKind.mapElement (f : Element → Element) : NodeKind → NodeKind
  | .element el => .element (f el)
  | kind => kind

namespace Ast

variable {a : Ast} {id j p : NodeId} {el : Element}

/-! ## Elements and places -/

theorem element?_eq_some_iff : a.element? id = some el ↔ a.kind? id = some (.element el) := by
  unfold element?
  split <;> simp_all

theorem kind?_isSome_iff : (a.kind? id).isSome ↔ id < a.nodes.size := by
  simp [kind?]

theorem lt_size_of_kind? (h : a.kind? id = some kind) : id < a.nodes.size :=
  kind?_isSome_iff.mp (Option.isSome_of_eq_some h)

theorem lt_size_of_element? (h : a.element? id = some el) : id < a.nodes.size :=
  lt_size_of_kind? (element?_eq_some_iff.mp h)

theorem lt_size_of_isSome (h : (a.element? id).isSome) : id < a.nodes.size :=
  lt_size_of_element? (Option.some_get h).symm

theorem lt_size_of_parent? (h : a.parent? id = some p) : id < a.nodes.size := by
  unfold parent? at h
  cases hn : a.nodes[id]? with
  | some n => exact (Array.getElem?_eq_some_iff.mp hn).1
  | none => rw [hn] at h; cases h

/-! ## Adding a node -/

@[simp] theorem nextId_eq : a.nextId = a.nodes.size := rfl

@[simp] theorem size_push : (a.push parent kind).nodes.size = a.nodes.size + 1 := by
  simp [push]

@[simp] theorem root_push : (a.push parent kind).root = a.root := rfl

theorem kind?_push :
    (a.push parent kind).kind? j = if j = a.nodes.size then some kind else a.kind? j := by
  unfold kind? push
  rw [Array.getElem?_push]
  split <;> rfl

theorem parent?_push :
    (a.push parent kind).parent? j = if j = a.nodes.size then parent else a.parent? j := by
  unfold parent? push
  rw [Array.getElem?_push]
  split <;> rfl

theorem parent?_push_of_lt (h : j < a.nodes.size) :
    (a.push parent kind).parent? j = a.parent? j := by
  rw [parent?_push, if_neg (Nat.ne_of_lt h)]

theorem element?_push_of_lt (h : j < a.nodes.size) :
    (a.push parent kind).element? j = a.element? j := by
  unfold element?
  rw [kind?_push, if_neg (Nat.ne_of_lt h)]

theorem element?_push_cases (h : (a.push parent kind).element? j = some el) :
    (j = a.nodes.size ∧ kind = .element el) ∨ a.element? j = some el := by
  rw [element?_eq_some_iff, kind?_push] at h
  split at h
  · next heq => exact .inl ⟨heq, Option.some.inj h⟩
  · exact .inr (element?_eq_some_iff.mpr h)

theorem element?_push_self (a : Ast) (parent : Option NodeId) (el : Element) :
    (a.push parent (.element el)).element? a.nodes.size = some el := by
  rw [element?_eq_some_iff, kind?_push, if_pos rfl]

@[simp] theorem size_pushElements (a : Ast) (parent : Option NodeId) (els : List Element) :
    (a.pushElements parent els).nodes.size = a.nodes.size + els.length := by
  induction els generalizing a with
  | nil => rfl
  | cons el rest ih =>
    rw [pushElements, ih, size_push, List.length_cons]
    omega

@[simp] theorem root_pushElements (a : Ast) (parent : Option NodeId) (els : List Element) :
    (a.pushElements parent els).root = a.root := by
  induction els generalizing a with
  | nil => rfl
  | cons el rest ih => rw [pushElements, ih, root_push]

theorem kind?_pushElements (j : Nat) :
    (a.pushElements parent els).kind? j =
      if j < a.nodes.size then a.kind? j else (els[j - a.nodes.size]?).map .element := by
  induction els generalizing a with
  | nil =>
    split
    · rfl
    · next h => simp [← Option.not_isSome_iff_eq_none, kind?_isSome_iff, h]
  | cons el rest ih =>
    rw [pushElements, ih, size_push, kind?_push]
    rcases Nat.lt_trichotomy j a.nodes.size with h | h | h
    · have hlt : j < a.nodes.size + 1 := by omega
      rw [if_pos hlt, if_neg (Nat.ne_of_lt h), if_pos h]
    · simp [h]
    · have hge : ¬ j < a.nodes.size + 1 := by omega
      have hge' : ¬ j < a.nodes.size := by omega
      obtain ⟨k, rfl⟩ := Nat.exists_eq_add_of_lt h
      have hk : a.nodes.size + k + 1 - a.nodes.size = k + 1 := by omega
      have hk' : a.nodes.size + k + 1 - (a.nodes.size + 1) = k := by omega
      rw [if_neg hge, if_neg hge', hk, hk', List.getElem?_cons_succ]

theorem parent?_pushElements (j : Nat) :
    (a.pushElements parent els).parent? j =
      if a.nodes.size ≤ j ∧ j < a.nodes.size + els.length then parent else a.parent? j := by
  induction els generalizing a with
  | nil =>
    have hempty : ¬ (a.nodes.size ≤ j ∧ j < a.nodes.size + 0) := by omega
    rw [pushElements, List.length_nil, if_neg hempty]
  | cons el rest ih =>
    rw [pushElements, ih, size_push, parent?_push, List.length_cons]
    by_cases h : j = a.nodes.size
    · have hin : a.nodes.size ≤ j ∧ j < a.nodes.size + (rest.length + 1) := by omega
      rw [if_pos hin, if_pos h, ite_self]
    · have hiff : (a.nodes.size + 1 ≤ j ∧ j < a.nodes.size + 1 + rest.length) ↔
          (a.nodes.size ≤ j ∧ j < a.nodes.size + (rest.length + 1)) := by omega
      rw [if_neg h]
      simp only [hiff]

/-! ## Changing an element -/

@[simp] theorem size_modifyElement : (a.modifyElement id f).nodes.size = a.nodes.size := by
  simp [modifyElement]

theorem kind?_modifyElement : (a.modifyElement id f).kind? j =
      if id = j then (a.kind? j).map (NodeKind.mapElement f) else a.kind? j := by
  unfold kind? modifyElement
  rw [Array.getElem?_modify]
  split
  · cases a.nodes[j]? with
    | none => rfl
    | some n => rcases n with ⟨parent, kind | _ | _⟩ <;> rfl
  · rfl

@[simp] theorem parent?_modifyElement (a : Ast) (id : NodeId) (f : Element → Element)
    (j : NodeId) : (a.modifyElement id f).parent? j = a.parent? j := by
  unfold parent? modifyElement
  rw [Array.getElem?_modify]
  split
  · cases a.nodes[j]? with
    | none => rfl
    | some n => rcases n with ⟨parent, kind | _ | _⟩ <;> rfl
  · rfl

theorem element?_modifyElement :
    (a.modifyElement id f).element? j = if id = j then (a.element? j).map f else a.element? j := by
  unfold element?
  rw [kind?_modifyElement]
  by_cases h : id = j
  · rw [if_pos h, if_pos h]
    cases a.kind? j with
    | none => rfl
    | some kind => cases kind <;> rfl
  · rw [if_neg h, if_neg h]

theorem element?_modifyElement_self (h : a.element? id = some el) :
    (a.modifyElement id f).element? id = some (f el) := by
  rw [element?_modifyElement, if_pos rfl, h]
  rfl

theorem element?_modifyElement_of_ne (h : id ≠ j) :
    (a.modifyElement id f).element? j = a.element? j := by
  rw [element?_modifyElement, if_neg h]

theorem element?_modifyElement_cases (h : (a.modifyElement id f).element? j = some el) :
    (id ≠ j ∧ a.element? j = some el) ∨ id = j ∧ ∃ old, a.element? id = some old ∧ f old = el := by
  rw [element?_modifyElement] at h
  split at h
  · next heq => exact .inr ⟨heq, Option.map_eq_some_iff.mp (heq ▸ h)⟩
  · next hne => exact .inl ⟨hne, h⟩

theorem modifyElement_comm {g : Element → Element} (h : id ≠ j) :
    (a.modifyElement id f).modifyElement j g = (a.modifyElement j g).modifyElement id f := by
  refine congrArg (Ast.mk · a.root) (Array.ext_getElem? fun k => ?_)
  simp only [modifyElement, Array.getElem?_modify]
  by_cases hj : j = k
  · simp [← hj, h]
  · simp [hj]

@[simp] theorem isSome_element?_modifyElement (a : Ast) (id : NodeId) (f : Element → Element)
    (j : NodeId) : ((a.modifyElement id f).element? j).isSome = (a.element? j).isSome := by
  rw [element?_modifyElement]
  split <;> simp

end Ast

end TemplateCompiler
