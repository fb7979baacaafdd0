import TemplateCompiler.Proofs.Emission

/-!
# The wrappers of an element

An element can be hoisted, rendered once, repeated and shown under a condition, and the order of
these wrappers depends on how it is marked, what directives it has, and from where it is entered.
This file follows them from the outside in, and from there the whole tree: each node is entered
once, from the element that links to it, and what is recorded about one subtree is not seen in
another.

What is to hold of the code is left open. A `Layout` names a fact for each place that code of an
element can stand in, before and after the chain of the element is written, and `Layout.Holds` says
what the facts must keep, for each way in which code is put around other code. Main result:
`generate_emits`, that all code of a tree has the facts.

Which place the element itself is in when it comes to be hoisted or rendered once depends on whether
its loop is still to be put around it (`Unput`) or is there already (`Put`).
-/

namespace TemplateCompiler

open List Ast

variable {children : Gen (List Code)} {nodes : List NodeId} {c y block : NodeId} {entry : Entry}
  {self element : Gen Code} {exp : String} {rest : List Condition}

namespace Gen

/-! ## Layouts -/

def putLoop (x : NodeId) (el : Element) (code : Code) : Code :=
  el.loop.elim code fun head => .loop x head.source head.params code

/-- The loop of an element is put around it before its condition is tested. -/
def LoopFirst (a : Ast) (x : NodeId) (el : Element) : Prop :=
  a.IsSlot x ∨ el.once = false ∨ (el.marks.root ∧ ¬ a.IsBranch x)

/-- What is to hold of code, by the element and the place of the code. `true` stands for code with
the chain of the element, if it has one, and `false` for code without it. -/
structure Layout where
  /-- The code of a node where the node is entered. -/
  node : Bool → NodeId → Fact
  /-- A body that is hoisted from a node or from below it. -/
  body : NodeId → BodyFact
  /-- The code of an element itself. -/
  bare : NodeId → Fact
  /-- The code of an element inside of its loop. -/
  self : Bool → NodeId → Fact
  /-- Later branches of the chain that an element starts. -/
  beside : NodeId → List Condition → Fact

/-- The code of a node as part of that of its element: as it is, or as an inline template. -/
inductive Layout.Enters (l : Layout) (c : NodeId) (later : Later) : List Code → Code → Prop
  | node {new : List Code} {code : Code} (h : l.node true c later new code) :
      Enters l c later new code
  | inline {inner : List Code} {code : Code} (h : l.node true c ⟨inner, later.errors⟩ inner code)
      (hinner : ∀ d ∈ inner, l.body c inner d) : Enters l c later [] (.inlineTemplate code inner)

/-- What the facts of a layout keep at an element. -/
structure Layout.Holds (l : Layout) (a : Ast) (x : NodeId) (el : Element) : Prop where
  lower : ∀ {c : NodeId} {bodies code}, c ∈ a.links x → l.body c bodies code → l.body x bodies code
  element : ∀ {later new code nodes}, a.FilledBy x el nodes → Made l.Enters nodes later new [code] →
    (a.HasData x el → (el.inlineTemplate → Unreported a el later) ∧
      ∀ ref, el.ref = some ref → el.CallsWith ref el.refInLoop code.render) →
    l.bare x later new (.element x code)
  ofBare : ∀ {later new code}, l.bare x later new code → l.self false x later new code
  /-- Without a condition there is no chain. -/
  lone : ∀ {later new code}, el.ifExp = none →
    (l.self false x later new code → l.self true x later new code) ∧
    (l.node false x later new code → l.node true x later new code)
  /-- The condition of a scoped slot that is a template is tested without the rest of its chain. -/
  template : ∀ {later new code}, a.IsSlot x → el.tag = "template" → l.self false x later new code →
    l.self true x later new
      (el.ifExp.elim code fun exp => .condition x x exp code (.text "undefined"))
  ending : ∀ {later}, l.beside x [] later [] (.text "_e()")
  last : ∀ {block rest later new code}, block ∈ el.branchNodes → l.node true block later new code →
    l.beside x (⟨none, block⟩ :: rest) later new code
  further : ∀ {block rest later new new' exp code code'},
    block :: rest.map Condition.block <+ el.branchNodes → block ≠ x →
    l.node true block later new code → l.beside x rest later new' code' →
    l.beside x (⟨some exp, block⟩ :: rest) later (new ++ new') (.condition x block exp code code')
  selfOnce : ∀ {later new code number key}, l.self false x later new code →
    l.self false x later new (.once code number key)
  nodeOnce : ∀ {later new code number key}, l.node false x later new code →
    l.node false x later new (.once code number key)
  /-- The condition is tested inside of the loop. -/
  selfChain : ∀ {rest later new new' exp code code'}, LoopFirst a x el →
    ¬ (a.IsSlot x ∧ el.tag = "template") → el.conditions = ⟨some exp, x⟩ :: rest →
    l.self false x later new code → l.beside x rest later new' code' →
    l.self true x later (new ++ new') (.condition x x exp code code')
  /-- The condition is tested outside of the loop. -/
  nodeChain : ∀ {rest later new new' exp code code'}, ¬ a.IsSlot x → el.once →
    el.marks.root = false ∨ a.IsBranch x → el.conditions = ⟨some exp, x⟩ :: rest →
    l.node false x later new code → l.beside x rest later new' code' →
    l.node true x later (new ++ new') (.condition x x exp code code')
  /-- The element is hoisted out of its own loop. -/
  alone : ∀ {later new code}, el.once → el.marks.inLoop = false →
    (el.marks.root ∧ el.ifExp.isSome) ∨ a.IsSlot x → l.bare x later new code →
      l.body x later.bodies code ∧
      ∀ i, later.bodies[i]? = some code →
        l.self false x later (new ++ [code]) (.hoisted x i el.marks.inLoop)
  /-- The element is hoisted with its loop. -/
  hoist : ∀ {chained later new code}, ¬ a.IsSlot x →
    (el.marks.root ∧ l.self chained x later new code) ∨
    (chained = false ∧ el.once ∧ el.marks.inLoop = false ∧ l.bare x later new code) →
    l.body x later.bodies (putLoop x el code) ∧ ∀ i, later.bodies[i]? = some (putLoop x el code) →
        l.node chained x later (new ++ [putLoop x el code]) (.hoisted x i el.marks.inLoop)
  plain : ∀ {chained later new code}, ¬ a.IsSlot x → el.marks.root = false →
    l.self chained x later new code → l.node chained x later new (putLoop x el code)
  slot : ∀ {later new code key scope}, a.IsSlot x → l.self true x later new code →
    l.node true x later new (putLoop x el (.scopedSlot x key scope code))

section Wrappers

variable {l : Layout} {a : Ast} {root x : NodeId} {el : Element} {under region : NodeId → Prop}
  {body : BodyFact} {P Q : Fact} {pre pre' : GenState → Prop} {s : GenState}
  {chain code item : Gen Code}

/-- The region `under` of what is inside an element, in a larger region that it is in itself. -/
structure Site (a : Ast) (x : NodeId) (el : Element) (under region : NodeId → Prop) : Prop where
  notSlot : el.marks.root → ¬ a.IsSlot x
  outside : ¬ under x
  here : region x

/-! ## Single wrappers -/

section

variable (tags : TagTable) (hx : region x) (hopen : ∀ s, pre s → (x, .loop) ∉ s.done)
  (hmark : ∀ s, pre s → el.loop.isSome → pre' { s with done := (x, .loop) :: s.done })
  (hnone : ∀ s, pre s → el.loop = none → pre' s) (hitem : Emits body region pre' item P)
  (hput : ∀ later new code, P later new code → Q later new (putLoop x el code))

include hx hopen hmark hnone hitem hput

theorem looped_emits {note : LoopHead → Gen Unit}
    (hnote : ∀ head s, (note head).result s = .ok ((), s)) :
    Emits body region pre (looped x el note item) Q := by
  intro s hs
  rw [run_looped]
  unfold putLoop at hput
  cases hhead : el.loop with
  | none =>
    rw [hhead] at hput
    exact hitem.weaken hput s (hnone s hs hhead)
  | some head =>
    rw [hhead] at hput
    have hloop := hitem.map (Code.loop x head.source head.params) hput
    obtain ⟨c, s', new, hc, hrun, hcode⟩ :=
      Emits.after (f := fun _ => _) (hnote head) hloop _ (hmark s hs (by rw [hhead]; rfl))
    dsimp only
    rw [if_neg fun h => hopen s hs (contains_iff_mem.mp h)]
    exact ⟨c, s', new, hc, (Run.mark hx s .loop).trans hrun, hcode⟩

theorem repeated_emits : Emits body region pre (repeated tags x el item) Q :=
  looped_emits hx hopen hmark hnone hitem hput fun _ _ => by split <;> rfl

end

theorem repeated_emits_of_put (tags : TagTable)
    (hput : ∀ s, pre s → el.loop.isSome → (x, .loop) ∈ s.done)
    (hitem : Emits body region pre item P) : Emits body region pre (repeated tags x el item) P := by
  intro s hs
  unfold repeated
  rw [run_looped]
  cases hhead : el.loop with
  | none => exact hitem s hs
  | some head =>
    dsimp only
    rw [if_pos (contains_iff_mem.mpr (hput s hs (by rw [hhead]; rfl)))]
    exact hitem s hs

/-- Code is moved into a body, and a use of the body stands in its place. -/
theorem hoist_emits (hx : region x)
    (hpre : ∀ s, pre s → pre' { s with done := (x, .once) :: (x, .hoist) :: s.done })
    (hitem : Emits body region pre' item P)
    (huse : ∀ later new code, P later new code → body later.bodies code ∧
      ∀ i, later.bodies[i]? = some code → Q later (new ++ [code]) (.hoisted x i el.marks.inLoop)) :
    Emits body region pre (hoist x el item) Q := by
  intro s hs
  obtain ⟨c, s', new, hc, hrun, hcode⟩ := hitem _ (hpre s hs)
  have hmarks : Run body region s [] { s with done := (x, .once) :: (x, .hoist) :: s.done } :=
    (Run.mark hx s .hoist).trans (Run.mark hx _ .once)
  have hpush : Run body region s' [c] { s' with hoisted := s'.hoisted ++ [c] } := by
    refine ⟨rfl, fun code hmem bodies hlater => ?_, fun _ _ hmem => .inl hmem⟩
    rw [mem_singleton.mp hmem]
    exact (huse ⟨bodies, _⟩ new c
      (hcode ⟨bodies, _⟩ ((prefix_append _ _).trans hlater) (List.Subset.refl _))).1
  rw [run_hoist]
  refine ⟨.hoisted x s'.hoisted.length el.marks.inLoop, { s' with hoisted := s'.hoisted ++ [c] },
    new ++ [c], (result_bind_ok hc).trans (result_bind_ok (result_pushBody c s')),
    (hmarks.trans hrun).trans hpush, fun later hlater herrs => ?_⟩
  rw [errors_bind hc, append_subset] at herrs
  have hcode' := hcode later ((prefix_append _ _).trans hlater) herrs.1
  refine (huse later new c hcode').2 _ ?_
  obtain ⟨rest, hrest⟩ := hlater
  rw [← hrest]
  simp

theorem renderedOnce_emits
    (hhoist : el.marks.inLoop = false → Emits body region pre (hoist x el item) P)
    (hroot : el.marks.inLoop → Emits body region pre (hoistRoot x el item) P)
    (honce : ∀ later new code number key, P later new code → P later new (.once code number key)) :
    Emits body region pre (renderedOnce a x el item) P := by
  unfold renderedOnce
  cases hmark : el.marks.inLoop with
  | false => exact hhoist hmark
  | true =>
    rw [Bool.not_true, if_neg Bool.false_ne_true]
    cases loopKey? a x with
    | none => exact .after (fun _ => rfl) (hroot hmark)
    | some key =>
      intro s hs
      obtain ⟨c, s', new, hc, hrun, hcode⟩ := hroot hmark s hs
      refine ⟨.once c s'.onceCount key, { s' with onceCount := s'.onceCount + 1 }, new,
        (result_bind_ok hc).trans (result_bind_ok (result_nextOnce s')),
        ⟨hrun.hoisted, hrun.bodies, hrun.done⟩, fun later hlater herrs => ?_⟩
      rw [errors_bind hc, append_subset] at herrs
      exact honce _ _ _ _ _ (hcode later hlater herrs.1)

theorem conditional_emits (hx : region x) (hopen : ∀ s, pre s → (x, .condition) ∉ s.done)
    (hmark : ∀ s, pre s → pre' { s with done := (x, .condition) :: s.done })
    (hchain : el.ifExp.isSome → Emits body region pre' chain P)
    (hotherwise : el.ifExp = none → Emits body region pre item P) :
    Emits body region pre (conditional x el chain item) P := by
  intro s hs
  have hpend : (!s.done.contains (x, .condition)) := by simpa using hopen s hs
  rw [run_conditional, hpend, Bool.and_true]
  split
  · next hif =>
    obtain ⟨c, s', new, hc, hrun, hcode⟩ := hchain hif _ (hmark s hs)
    exact ⟨c, s', new, hc, (Run.mark hx s .condition).trans hrun, hcode⟩
  · next hif => exact hotherwise (Option.not_isSome_iff_eq_none.mp hif) s hs

theorem conditional_emits_of_done (hdone : ∀ s, pre s → (x, .condition) ∈ s.done)
    (hotherwise : Emits body region pre item P) :
    Emits body region pre (conditional x el chain item) P := by
  intro s hs
  rw [run_conditional, contains_iff_mem.mpr (hdone s hs), Bool.not_true, Bool.and_false]
  exact hotherwise s hs

theorem onceWrapped_emits {tags : TagTable} (hx : region x)
    (hmark : ∀ s, pre s → pre' { s with done := (x, .once) :: s.done })
    (h : Emits body region pre'
      (conditional x el chain (renderedOnce a x el (repeated tags x el code))) P) :
    Emits body region pre (onceWrapped tags a x el chain code) P := by
  intro s hs
  obtain ⟨c, s', new, hc, hrun, hcode⟩ := h _ (hmark s hs)
  exact ⟨c, s', new, hc, (Run.mark hx s .once).trans hrun, hcode⟩

/-! ## An element that is rendered once -/

/-- Nothing is put around an element yet but what comes before its loop and its hoist. -/
structure Unput (x : NodeId) (under : NodeId → Prop) (s : GenState) : Prop where
  fresh : Fresh under s
  loop : (x, .loop) ∉ s.done
  hoist : (x, .hoist) ∉ s.done

/-- The loop of an element is put around it, and it was hoisted if it is a static root. -/
structure Put (x : NodeId) (el : Element) (under : NodeId → Prop) (s : GenState) : Prop where
  fresh : Fresh under s
  loop : el.loop.isSome → (x, .loop) ∈ s.done
  hoist : el.marks.root → (x, .hoist) ∈ s.done

theorem Unput.mark {w : Wrapper} (h : Unput x under s) (hx : ¬ under x) (hloop : w ≠ .loop)
    (hhoist : w ≠ .hoist) : Unput x under { s with done := (x, w) :: s.done } := by
  have hother {w' : Wrapper} (hne : w ≠ w') (hmem : (x, w') ∉ s.done) :
      (x, w') ∉ (x, w) :: s.done := by
    rw [mem_cons, not_or]
    exact ⟨fun heq => hne (Prod.mk.inj heq).2.symm, hmem⟩
  exact ⟨h.fresh.mark hx w, hother hloop h.loop, hother hhoist h.hoist⟩

theorem Put.mark (h : Put x el under s) (hx : ¬ under x) (w : Wrapper) :
    Put x el under { s with done := (x, w) :: s.done } :=
  ⟨h.fresh.mark hx w, fun hloop => mem_cons_of_mem _ (h.loop hloop),
    fun hroot => mem_cons_of_mem _ (h.hoist hroot)⟩

theorem Put.not_pending (h : Put x el under s) :
    (el.marks.root && !s.done.contains (x, .hoist)) = false := by
  cases hroot : el.marks.root with
  | false => rfl
  | true =>
    rw [contains_iff_mem.mpr (h.hoist hroot)]
    rfl

/-- A step for the code of an element inside its wrappers. -/
abbrev EmitsBare (l : Layout) (x : NodeId) (under region : NodeId → Prop) (code : Gen Code) :
    Prop :=
  Emits (l.body x) region (Fresh under) code (l.bare x)

variable (h : Site a x el under region) (hl : l.Holds a x el) (tags : TagTable)
  (hcode : EmitsBare l x under region code)

include h hl hcode

/-- An element to be rendered once whose loop is still to be put: it is hoisted with its loop, or
has its loop inside those around it. -/
theorem renderedOnce_unput (hslot : ¬ a.IsSlot x) (honce : el.once) :
    Emits (l.body x) region (Unput x under) (renderedOnce a x el (repeated tags x el code))
      (l.node false x) := by
  have hopened {P : Fact}
      (hput : ∀ later new c, l.bare x later new c → P later new (putLoop x el c)) :
      Emits (l.body x) region (fun s => Fresh under s ∧ (x, .loop) ∉ s.done)
        (repeated tags x el code) P :=
    repeated_emits tags h.here (fun _ hs => hs.2) (fun _ hs _ => hs.1.mark h.outside .loop)
      (fun _ hs _ => hs.1) hcode hput
  have hhoist (hcut : el.marks.root ∨ el.marks.inLoop = false) :
      Emits (l.body x) region (Unput x under) (hoist x el (repeated tags x el code))
        (l.node false x) := by
    refine hoist_emits h.here (fun s hs => ⟨?_, ?_⟩)
      (hopened (P := fun later new c => ∃ bare, l.bare x later new bare ∧ putLoop x el bare = c)
        fun _ _ c hbare => ⟨c, hbare, rfl⟩) ?_
    · rintro later new _ ⟨c, hbare, rfl⟩
      exact hl.hoist hslot (hcut.imp (fun hroot => ⟨hroot, hl.ofBare hbare⟩)
        fun hmark => ⟨rfl, honce, hmark, hbare⟩)
    · exact (hs.fresh.mark h.outside .hoist).mark h.outside .once
    · simp [hs.loop]
  refine renderedOnce_emits (fun hmark => hhoist (.inr hmark)) (fun _ s hs => ?_)
    fun _ _ _ _ _ => hl.nodeOnce
  have hpend : (!s.done.contains (x, .hoist)) := by simpa using hs.hoist
  rw [run_hoistRoot, hpend]
  cases hroot : el.marks.root with
  | true => exact hhoist (.inl hroot) s hs
  | false =>
    exact hopened (fun _ _ _ hbare => hl.plain hslot hroot (hl.ofBare hbare)) s ⟨hs.fresh, hs.loop⟩

/-- An element to be rendered once whose loop is put: it may be hoisted out of that. -/
theorem renderedOnce_put (honce : el.once)
    (hcut : (el.marks.root ∧ el.ifExp.isSome) ∨ a.IsSlot x) :
    Emits (l.body x) region (Put x el under) (renderedOnce a x el (repeated tags x el code))
      (l.self false x) := by
  have hrepeated : Emits (l.body x) region (Put x el under) (repeated tags x el code) (l.bare x) :=
    repeated_emits_of_put tags (fun _ hs => hs.loop) (hcode.strengthen fun _ hs => hs.fresh)
  refine renderedOnce_emits (fun hmark => ?_) (fun _ s hs => ?_) fun _ _ _ _ _ => hl.selfOnce
  · exact hoist_emits h.here (fun s hs => (hs.mark h.outside .hoist).mark h.outside .once) hrepeated
      fun _ _ _ => hl.alone honce hmark hcut
  · rw [run_hoistRoot, hs.not_pending]
    exact hrepeated.weaken (fun _ _ _ => hl.ofBare) s hs

/-! ## An element in its own chain -/

theorem self_unput (hslot : ¬ a.IsSlot x) (honce : el.once) :
    Emits (l.body x) region (fun s => Unput x under s ∧ (x, .condition) ∈ s.done)
      (branchWrapped tags a x el code code) (l.node false x) := by
  have hcondl : Emits (l.body x) region (fun s => Unput x under s ∧ (x, .condition) ∈ s.done)
      (conditional x el code (renderedOnce a x el (repeated tags x el code))) (l.node false x) :=
    conditional_emits_of_done (fun _ hs => hs.2)
      ((renderedOnce_unput h hl tags hcode hslot honce).strengthen fun _ hs => hs.1)
  unfold branchWrapped
  rw [if_pos honce]
  refine onceWrapped_emits h.here (fun s hs => ⟨?_, mem_cons_of_mem _ hs.2⟩) hcondl
  exact hs.1.mark h.outside (by decide) (by decide)

theorem self_put (hfirst : LoopFirst a x el) (hsome : el.ifExp.isSome) :
    Emits (l.body x) region (fun s => Put x el under s ∧ (x, .condition) ∈ s.done)
      (branchWrapped tags a x el code code) (l.self false x) := by
  have hcondl {item : Gen Code} {P : Fact}
      (hitem : Emits (l.body x) region (Put x el under) item P) :
      Emits (l.body x) region (fun s => Put x el under s ∧ (x, .condition) ∈ s.done)
        (conditional x el code item) P :=
    conditional_emits_of_done (fun _ hs => hs.2) (hitem.strengthen fun _ hs => hs.1)
  unfold branchWrapped
  split
  · next honce =>
    have hcut : (el.marks.root ∧ el.ifExp.isSome) ∨ a.IsSlot x := by
      rcases hfirst with hslot | honce' | ⟨hroot, -⟩
      · exact .inr hslot
      · rw [honce] at honce'
        cases honce'
      · exact .inl ⟨hroot, hsome⟩
    exact onceWrapped_emits h.here (fun s hs => ⟨hs.1.mark h.outside .once, mem_cons_of_mem _ hs.2⟩)
      (hcondl (renderedOnce_put h hl tags hcode honce hcut))
  · next honce =>
    intro s hs
    rw [run_wrapped, hs.1.not_pending, Bool.eq_false_iff.mpr honce]
    exact (repeated_emits_of_put tags (fun _ hs => hs.1.loop)
      (hcondl (hcode.strengthen fun _ hs => hs.fresh))).weaken (fun _ _ _ => hl.ofBare) s hs

omit h hl hcode

/-! ## All wrappers -/

/-- The chain of an element, in the two situations in which it is written. -/
structure EmitsChain (l : Layout) (a : Ast) (x : NodeId) (el : Element)
    (under region : NodeId → Prop) (chain : Gen Code) : Prop where
  unput : ¬ a.IsSlot x → el.once → el.marks.root = false ∨ a.IsBranch x → el.ifExp.isSome →
    Emits (l.body x) region (fun s => Unput x under s ∧ (x, .condition) ∈ s.done) chain
      (l.node true x)
  put : LoopFirst a x el → el.ifExp.isSome →
    Emits (l.body x) region (fun s => Put x el under s ∧ (x, .condition) ∈ s.done) chain
      (l.self true x)

variable (hchain : EmitsChain l a x el under region chain)

include h hl hcode hchain

theorem onceWrapped_unput (hslot : ¬ a.IsSlot x) (honce : el.once)
    (hright : el.marks.root = false ∨ a.IsBranch x) :
    Emits (l.body x) region (fun s => Unput x under s ∧ (x, .condition) ∉ s.done)
      (onceWrapped tags a x el chain code) (l.node true x) := by
  have hcondl : Emits (l.body x) region (fun s => Unput x under s ∧ (x, .condition) ∉ s.done)
      (conditional x el chain (renderedOnce a x el (repeated tags x el code))) (l.node true x) :=
    conditional_emits h.here (fun _ hs => hs.2)
      (fun _ hs => ⟨hs.1.mark h.outside (by decide) (by decide), mem_cons_self⟩)
      (hchain.unput hslot honce hright)
      fun hnone => ((renderedOnce_unput h hl tags hcode hslot honce).strengthen
        fun _ hs => hs.1).weaken fun _ _ _ => (hl.lone hnone).2
  refine onceWrapped_emits h.here (fun s hs => ⟨?_, by simp [hs.2]⟩) hcondl
  exact hs.1.mark h.outside (by decide) (by decide)

theorem item_put (hfirst : LoopFirst a x el) :
    Emits (l.body x) region (fun s => Put x el under s ∧ (x, .condition) ∉ s.done)
      (conditional x el chain code) (l.self true x) :=
  conditional_emits h.here (fun _ hs => hs.2)
    (fun _ hs => ⟨hs.1.mark h.outside .condition, mem_cons_self⟩) (hchain.put hfirst)
    fun hnone => (hcode.strengthen fun _ hs => hs.1.fresh).weaken fun _ _ _ hbare =>
      (hl.lone hnone).1 (hl.ofBare hbare)

theorem inner_emits (hfirst : LoopFirst a x el)
    (hput : ∀ later new c, l.self true x later new c → P later new (putLoop x el c)) :
    Emits (l.body x) region (fun s => Fresh under s ∧ (x, .loop) ∉ s.done ∧
        (el.marks.root → (x, .hoist) ∈ s.done) ∧ (x, .condition) ∉ s.done)
      (repeated tags x el (conditional x el chain code)) P := by
  refine repeated_emits tags h.here (fun _ hs => hs.2.1) (fun s hs _ => ⟨?_, ?_⟩)
    (fun s hs hnone => ⟨?_, hs.2.2.2⟩) (item_put h hl hcode hchain hfirst) hput
  · exact ⟨hs.1.mark h.outside .loop, fun _ => mem_cons_self,
      fun hroot => mem_cons_of_mem _ (hs.2.2.1 hroot)⟩
  · simp [hs.2.2.2]
  · refine ⟨hs.1, fun hsome => ?_, hs.2.2.1⟩
    rw [hnone] at hsome
    cases hsome

theorem wrapped_emits (hslot : ¬ a.IsSlot x) (hentry : ¬ a.IsBranch x ∨ el.once = false) :
    Emits (l.body x) region (fun s => Fresh under s ∧ ∀ w, (x, w) ∉ s.done)
      (wrapped tags a x el chain code) (l.node true x) := by
  rintro s ⟨hs, hnone⟩
  have hpend (w : Wrapper) : (!s.done.contains (x, w)) := by simpa using hnone w
  rw [run_wrapped, hpend .hoist, hpend .once, Bool.and_true, Bool.and_true]
  split
  · next hroot =>
    -- a root takes its chain with it, out of all loops around it
    have hfirst : LoopFirst a x el := .inr (hentry.symm.imp_right fun hbr => ⟨hroot, hbr⟩)
    refine hoist_emits h.here
      (fun s (hs : Fresh under s ∧ ∀ w, (x, w) ∉ s.done) => ⟨?_, ?_, fun _ => ?_, ?_⟩)
      (inner_emits h hl tags hcode hchain hfirst
        (P := fun later new c => ∃ self, l.self true x later new self ∧ putLoop x el self = c)
        fun _ _ c hself => ⟨c, hself, rfl⟩) ?_ s ⟨hs, hnone⟩
    · rintro later new _ ⟨c, hself, rfl⟩
      exact hl.hoist hslot (.inl ⟨hroot, hself⟩)
    · exact (hs.1.mark h.outside .hoist).mark h.outside .once
    · simp [hs.2]
    · simp
    · simp [hs.2]
  · next hroot =>
    have hroot : el.marks.root = false := by simpa using hroot
    split
    · next honce =>
      exact onceWrapped_unput h hl tags hcode hchain hslot honce (.inl hroot) s
        ⟨⟨hs, hnone .loop, hnone .hoist⟩, hnone .condition⟩
    · next honce =>
      refine inner_emits h hl tags hcode hchain (.inr (.inl (by simpa using honce)))
        (fun _ _ _ => hl.plain hslot hroot) s ⟨hs, hnone .loop, fun hroot' => ?_, hnone .condition⟩
      rw [hroot] at hroot'
      cases hroot'

theorem branchWrapped_emits (hslot : ¬ a.IsSlot x) (hbr : a.IsBranch x) :
    Emits (l.body x) region (fun s => Fresh under s ∧ ∀ w, (x, w) ∉ s.done)
      (branchWrapped tags a x el chain code) (l.node true x) := by
  unfold branchWrapped
  split
  · next honce =>
    exact (onceWrapped_unput h hl tags hcode hchain hslot honce (.inr hbr)).strengthen
      fun _ hs => ⟨⟨hs.1, hs.2 .loop, hs.2 .hoist⟩, hs.2 .condition⟩
  · next honce => exact wrapped_emits h hl tags hcode hchain hslot (.inr (by simpa using honce))

/-- What a scoped slot shows that is no template is inside the loop of the slot. -/
theorem wrapped_put (hslot : a.IsSlot x) : Emits (l.body x) region
      (fun s => Put x el under s ∧ (x, .once) ∉ s.done ∧ (x, .condition) ∉ s.done)
      (wrapped tags a x el chain code) (l.self true x) := by
  have hfirst : LoopFirst a x el := .inl hslot
  have hroot : el.marks.root = false :=
    Bool.eq_false_iff.mpr fun hroot => h.notSlot hroot hslot
  rintro s ⟨hs, honce, hcond⟩
  have hpend : (!s.done.contains (x, .once)) := by simpa using honce
  rw [run_wrapped, hroot, hpend, Bool.false_and, Bool.and_true, if_neg Bool.false_ne_true]
  split
  · next honce =>
    have hcondl : Emits (l.body x) region (fun s => Put x el under s ∧ (x, .condition) ∉ s.done)
        (conditional x el chain (renderedOnce a x el (repeated tags x el code)))
        (l.self true x) :=
      conditional_emits h.here (fun _ hs => hs.2)
        (fun s hs => ⟨hs.1.mark h.outside .condition, mem_cons_self⟩) (hchain.put hfirst)
        fun hnone => ((renderedOnce_put h hl tags hcode honce (.inr hslot)).strengthen
          fun _ hs => hs.1).weaken fun _ _ _ => (hl.lone hnone).1
    exact onceWrapped_emits h.here (fun s (hs : Put x el under s ∧ (x, .condition) ∉ s.done) =>
        ⟨hs.1.mark h.outside .once, by simp [hs.2]⟩) hcondl s ⟨hs, hcond⟩
  · exact repeated_emits_of_put tags (fun _ hs => hs.1.loop) (item_put h hl hcode hchain hfirst) s
      ⟨hs, hcond⟩

omit hcode hchain

/-- A scoped slot has its loop around its callback. What it shows is inside of that. -/
theorem scopedSlot_emits (key : String) (hslot : a.IsSlot x) (hbody : Emits (l.body x) region
      (fun s => Put x el under s ∧ (x, .once) ∉ s.done ∧ (x, .condition) ∉ s.done)
      (slotBody x el children element) (l.self true x)) :
    Emits (l.body x) region (fun s => Fresh under s ∧ ∀ w, (x, w) ∉ s.done)
      (scopedSlot key x el children element) (l.node true x) := by
  have hroot : el.marks.root = false :=
    Bool.eq_false_iff.mpr fun hroot => h.notSlot hroot hslot
  have hcall : Emits (l.body x) region
      (fun s => Put x el under s ∧ (x, .once) ∉ s.done ∧ (x, .condition) ∉ s.done)
      (do return Code.scopedSlot x key (el.slotScope.getD "") (← slotBody x el children element))
      fun later new c => ∃ self, l.self true x later new self ∧
        Code.scopedSlot x key (el.slotScope.getD "") self = c :=
    hbody.map _ fun _ _ c hself => ⟨c, hself, rfl⟩
  refine looped_emits h.here (fun s hs => hs.2 .loop) (fun s hs hsome => ?_)
    (fun s hs hnone => ?_) hcall ?_ fun _ _ => rfl
  · refine ⟨⟨hs.1.mark h.outside .loop, fun _ => mem_cons_self, fun hroot' => ?_⟩, ?_, ?_⟩
    · rw [hroot] at hroot'
      cases hroot'
    · simp [hs.2]
    · simp [hs.2]
  · refine ⟨⟨hs.1, fun hsome => ?_, fun hroot' => ?_⟩, hs.2 .once, hs.2 .condition⟩
    · rw [hnone] at hsome
      cases hsome
    · rw [hroot] at hroot'
      cases hroot'
  · rintro later new _ ⟨c, hself, rfl⟩
    exact hl.slot hslot hself

omit h

theorem slotTemplate_emits (hslot : a.IsSlot x) (htag : el.tag = "template")
    (hkids : Emits (l.body x) region (Fresh under) children (Made l.Enters el.children)) :
    Emits (l.body x) region
      (fun s => Put x el under s ∧ (x, .once) ∉ s.done ∧ (x, .condition) ∉ s.done)
      (slotBody x el children element) (l.self true x) := by
  have hcall : ¬ a.MakesCall x el := fun hcall => hcall.1 ⟨htag, .inl hslot⟩
  unfold slotBody
  rw [if_pos htag]
  refine (hkids.strengthen fun s hs => hs.1.fresh).map _ fun _ _ codes hcodes =>
    hl.template hslot htag (hl.ofBare (hl.element (filledBy_children hcall) ?_ ?_))
  · exact hcodes.around fun hm => by rw [flatMap_singleton, hm.childrenValue codes "undefined"]
  · exact fun hdata => absurd hdata.1 hcall

end Wrappers

/-! ## Nodes and what they link to -/

section Tree

variable {o : Options} {l : Layout} {a : Ast} {root x : NodeId} {el : Element} {body : BodyFact}
  {P : Fact}

def Suits (a : Ast) (x : NodeId) : Entry → Prop
  | .child => ¬ a.IsSlot x ∧ ¬ a.IsBranch x
  | .branch => ¬ a.IsSlot x ∧ a.IsBranch x
  | .slot _ => a.IsSlot x ∧ ¬ a.IsBranch x

def Under (a : Ast) (nodes : List NodeId) (y : NodeId) : Prop := ∃ c ∈ nodes, a.Below c y

/-- Different nodes that one element links to have nothing in common below them. -/
theorem under_apart (hwf : a.WellFormed) {nodes' : List NodeId} (hlinks : nodes ⊆ a.links x)
    (hlinks' : nodes' ⊆ a.links x) (hne : ∀ c ∈ nodes, ∀ d ∈ nodes', c ≠ d) (y : NodeId)
    (hy : Under a nodes y) : ¬ Under a nodes' y := by
  obtain ⟨c, hc, hy⟩ := hy
  rintro ⟨d, hd, hy'⟩
  exact hwf.below_apart (hlinks hc) (hlinks' hd) (hne c hc d hd) hy hy'

theorem under_apart_head (hwf : a.WellFormed)
    (hlinks : c :: nodes ⊆ a.links x) (hnodup : (c :: nodes).Nodup) (y : NodeId)
    (hy : a.Below c y) : ¬ Under a nodes y := by
  have hsingle : Under a [c] y := ⟨c, mem_singleton_self c, hy⟩
  refine under_apart hwf (x := x) ?_ ?_ ?_ y hsingle
  · intro d hd
    rw [mem_singleton.mp hd]
    exact hlinks mem_cons_self
  · exact fun d hd => hlinks (mem_cons_of_mem _ hd)
  · intro d hd e he heq
    rw [mem_singleton.mp hd] at heq
    exact (nodup_cons.mp hnodup).1 (heq ▸ he)

theorem under_cons (y : NodeId) (hy : Under a nodes y) : Under a (c :: nodes) y := by
  obtain ⟨d, hd, hy⟩ := hy
  exact ⟨d, mem_cons_of_mem _ hd, hy⟩

theorem below_of_under (hel : a.element? x = some el)
    (hlinks : nodes ⊆ el.links) (y : NodeId) (hy : Under a nodes y) : a.Below x y := by
  obtain ⟨c, hc, hy⟩ := hy
  refine .head ?_ hy
  rw [links_eq hel]
  exact hlinks hc

theorem not_under_self (hwf : a.WellFormed) (hel : a.element? x = some el)
    (hlinks : nodes ⊆ el.links) : ¬ Under a nodes x := by
  rintro ⟨c, hc, hbelow⟩
  refine hwf.not_below_link ?_ hbelow
  rw [links_eq hel]
  exact hlinks hc

theorem under_children (hy : Under a el.children y) : Under a (el.children ++ el.slotNodes) y :=
  hy.imp fun _ hc => ⟨mem_append_left _ hc.1, hc.2⟩

theorem under_slots (hy : Under a el.slotNodes y) : Under a (el.children ++ el.slotNodes) y :=
  hy.imp fun _ hc => ⟨mem_append_right _ hc.1, hc.2⟩

theorem under_front (hy : Under a (el.children ++ el.slotNodes) y) : Under a el.links y := by
  obtain ⟨c, hc, hy⟩ := hy
  exact ⟨c, mem_append_left _ hc, hy⟩

theorem not_under_front (hwf : a.WellFormed) (hel : a.element? x = some el) :
    ¬ Under a (el.children ++ el.slotNodes) x :=
  not_under_self hwf hel (subset_append_left ..)

theorem mem_links_of_child (hel : a.element? x = some el) : el.children ⊆ a.links x := by
  intro c hc
  rw [links_eq hel]
  exact Element.child_link hc

theorem mem_links_of_slot (hel : a.element? x = some el) : el.slotNodes ⊆ a.links x := by
  intro c hc
  rw [links_eq hel]
  exact Element.slot_link hc

theorem mem_links_of_branch (hel : a.element? x = some el) : el.branchNodes ⊆ a.links x := by
  intro c hc
  rw [links_eq hel]
  exact Element.branch_link hc

theorem front_apart (hwf : a.WellFormed) (hel : a.element? x = some el) (y : NodeId)
    (hy : Under a (el.children ++ el.slotNodes) y) : ¬ Under a el.branchNodes y :=
  under_apart hwf (append_subset.mpr ⟨mem_links_of_child hel, mem_links_of_slot hel⟩)
    (mem_links_of_branch hel) (nodup_append.mp (hwf.fits x el hel).linkedOnce).2.2 y hy

theorem suits_of_unlinked (h : ∀ i, root ∉ a.links i) : Suits a root .child := by
  constructor
  · rintro ⟨p, el, hel, hslot⟩
    exact h p (mem_links_of_slot hel hslot)
  · rintro ⟨p, el, hel, hbr⟩
    exact h p (mem_links_of_branch hel hbr)

abbrev branchOutlines (a : Ast) (x : NodeId) (conditions : List Condition) : List Outline :=
  conditions.map fun c => if c.block = x then .node x [] [] [] else a.outline c.block

theorem exists_conditions (hwf : a.WellFormed) (hel : a.element? x = some el)
    (hsome : el.ifExp.isSome) :
    ∃ exp rest, el.conditions = ⟨some exp, x⟩ :: rest ∧ el.branchNodes = rest.map (·.block) := by
  obtain ⟨exp, hexp⟩ := Option.isSome_iff_exists.mp hsome
  have hchain := (hwf.fits x el hel).chain
  rw [hexp] at hchain
  obtain ⟨rest, hrest⟩ := head?_eq_some_iff.mp hchain
  refine ⟨exp, rest, hrest, ?_⟩
  rw [Element.branchNodes, hrest]
  rfl

theorem chainCode_self :
    chainCode o a x self (⟨some exp, x⟩ :: rest) (branchOutlines a x (⟨some exp, x⟩ :: rest)) = (do
      let first ← self
      let others ← chainCode o a x self rest (branchOutlines a x rest)
      return .condition x x exp first others) := by
  rw [branchOutlines, map_cons, chainCode, if_pos rfl]

theorem chainCode_last (hne : block ≠ x) :
    chainCode o a x self (⟨none, block⟩ :: rest) (branchOutlines a x (⟨none, block⟩ :: rest)) =
      nodeCode o a .branch (a.outline block) >>= pure := by
  rewrite [branchOutlines, map_cons, if_neg hne, chainCode, if_neg hne]
  rfl

theorem chainCode_more (hne : block ≠ x) :
    chainCode o a x self (⟨some exp, block⟩ :: rest)
        (branchOutlines a x (⟨some exp, block⟩ :: rest)) = (do
      let code ← nodeCode o a .branch (a.outline block)
      let others ← chainCode o a x self rest (branchOutlines a x rest)
      return .condition x block exp code others) := by
  rewrite [branchOutlines, map_cons, if_neg hne, chainCode, if_neg hne]
  rfl

/-- The code of a node that is entered, with a fact for it and one for the bodies hoisted from it.
It only concerns what is below the node. -/
abbrev EmitsAt (o : Options) (a : Ast) (body : BodyFact) (P : Fact) (entry : Entry) (c : NodeId) :
    Prop :=
  Emits body (a.Below c) (Fresh (a.Below c)) (nodeCode o a entry (a.outline c)) P

theorem EmitsAt.cons {α β : Type} (hwf : a.WellFormed)
    (h : EmitsAt o a body P entry c) (hlinks : c :: nodes ⊆ a.links x)
    (hnodup : (c :: nodes).Nodup) {rest : Gen α} {post : Post α} {post' : Post β}
    (hrest : Emits body (Under a nodes) (Fresh (Under a nodes)) rest post) (k : Code → α → β)
    (hk : ∀ later new new' code r, P later new code → post later new' r →
      post' later (new ++ new') (k code r)) :
    Emits body (Under a (c :: nodes)) (Fresh (Under a (c :: nodes))) (do
        let code ← nodeCode o a entry (a.outline c)
        let r ← rest
        return k code r) post' :=
  .both (h.strengthen fun _ hs y w hy => hs y w ⟨c, mem_cons_self, hy⟩) hrest
    (fun _ hs y w hy => hs y w (under_cons y hy)) (fun _ hy => ⟨c, mem_cons_self, hy⟩) under_cons
    (under_apart_head hwf hlinks hnodup) k hk

theorem made_cons {enters : NodeId → Fact} (later : Later)
    (new new' : List Code) (code : Code) (codes : List Code) (h : enters c later new code)
    (hrest : Made enters nodes later new' codes) :
    Made enters (c :: nodes) later (new ++ new') (code :: codes) :=
  Made.append ⟨[code], by simpa using Fills.cons h .nil, fun _ => rfl⟩ hrest

section

variable {enters : NodeId → Fact} (hwf : a.WellFormed)

include hwf

theorem nodeCodes_emits (hlinks : nodes ⊆ a.links x) (hnodup : nodes.Nodup)
    (hnodes : ∀ c ∈ nodes, EmitsAt o a body (enters c) .child c) :
    Emits body (Under a nodes) (Fresh (Under a nodes)) (nodeCodes o a (nodes.map a.outline))
      (Made enters nodes) := by
  induction nodes with
  | nil => exact .pure fun _ => .nil
  | cons c rest ih =>
    have hoth := ih (fun d hd => hlinks (mem_cons_of_mem _ hd)) hnodup.of_cons
      fun d hd => hnodes d (mem_cons_of_mem _ hd)
    exact EmitsAt.cons hwf (hnodes c mem_cons_self) hlinks hnodup hoth _ made_cons

theorem slotCodes_emits (slots : List (String × NodeId)) (hlinks : slots.map (·.2) ⊆ a.links x)
    (hnodup : (slots.map (·.2)).Nodup)
    (hnodes : ∀ slot ∈ slots, EmitsAt o a body (enters slot.2) (.slot slot.1) slot.2) :
    Emits body (Under a (slots.map (·.2))) (Fresh (Under a (slots.map (·.2))))
      (slotCodes o a slots (slots.map fun slot => a.outline slot.2))
      (Made enters (slots.map (·.2))) := by
  induction slots with
  | nil => exact .pure fun _ => .nil
  | cons slot rest ih =>
    have hoth := ih (fun d hd => hlinks (mem_cons_of_mem _ hd)) hnodup.of_cons
      fun d hd => hnodes d (mem_cons_of_mem _ hd)
    exact EmitsAt.cons hwf (hnodes slot mem_cons_self) hlinks hnodup hoth _ made_cons

end

/-! ## The code of a node -/

section Element

variable (hwf : a.WellFormed) (hel : a.element? x = some el) (hl : l.Holds a x el)

include hel hl

theorem EmitsAt.entered (hc : c ∈ el.children ∨ c ∈ el.slotNodes)
    (h : EmitsAt o a (l.body c) (l.node true c) entry c) :
    EmitsAt o a (l.body x) (l.Enters c) entry c := by
  have hlink : c ∈ a.links x := by
    rw [links_eq hel]
    exact Element.mem_links.mpr (.inl hc)
  exact h.mono (fun _ hs => hs) (fun _ _ => hl.lower hlink) (fun _ hy => hy) fun _ _ _ => .node

include hwf

theorem bareCode_emits (ho : o.WebModules) (hslot : ¬ (a.IsSlot x ∧ el.tag = "template"))
    (hkids : ∀ c ∈ el.children, EmitsAt o a (l.body c) (l.node true c) .child c)
    (hslots : ∀ slot ∈ el.scopedSlots,
      EmitsAt o a (l.body slot.2) (l.node true slot.2) (.slot slot.1) slot.2) :
    EmitsBare l x (Under a (el.children ++ el.slotNodes)) (Under a (el.children ++ el.slotNodes))
      (bareCode o a x el (nodeCodes o a (el.children.map a.outline))
        (slotCodes o a el.scopedSlots (el.scopedSlots.map fun slot => a.outline slot.2))
        (inlineTemplate a el (firstCode o a (el.children.map a.outline)))) := by
  have hchildLinks := mem_links_of_child hel
  have hslotLinks := mem_links_of_slot hel
  obtain ⟨hfront, -, -⟩ := nodup_append.mp (hwf.fits x el hel).linkedOnce
  obtain ⟨hchildrenNodup, hslotsNodup, hne⟩ := nodup_append.mp hfront
  have hfirst (c : NodeId) (hc : c ∈ el.children.head?) :
      EmitsAt o a (l.body c) (l.node true c) .child c ∧
        firstCode o a (el.children.map a.outline) = nodeCode o a .child (a.outline c) := by
    obtain ⟨rest, hlist⟩ := head?_eq_some_iff.mp hc
    exact ⟨hkids c (mem_of_mem_head? hc), by rw [hlist]; rfl⟩
  exact .bareCode (slotCodes_emits hwf _ hslotLinks hslotsNodup fun slot hslot =>
      EmitsAt.entered hel hl (.inr (List.mem_map_of_mem hslot)) (hslots slot hslot))
    (.inlineTemplate (fun c hc => (hfirst c hc).2 ▸ (hfirst c hc).1) fun _ _ _ _ _ => .inline) ho
    (nodeCodes_emits hwf hchildLinks hchildrenNodup fun c hc =>
      EmitsAt.entered hel hl (.inl hc) (hkids c hc))
    (fun _ => under_children) (fun _ => under_slots)
    (under_apart hwf hslotLinks hchildLinks fun c hc d hd => (hne d hd c hc).symm)
    hslot fun _ _ _ _ => hl.element

theorem branches_emits (self : Gen Code) (conditions : List Condition)
    (hbrs : conditions.map (·.block) <+ el.branchNodes)
    (hnodes : ∀ c ∈ el.branchNodes, EmitsAt o a (l.body c) (l.node true c) .branch c) :
    Emits (l.body x) (Under a (conditions.map (·.block)))
      (Fresh (Under a (conditions.map (·.block))))
      (chainCode o a x self conditions (branchOutlines a x conditions))
      (l.beside x conditions) := by
  induction conditions with
  | nil => exact .pure fun _ => hl.ending
  | cons c rest ih =>
    obtain ⟨exp, block⟩ := c
    have hlinks := List.Subset.trans hbrs.subset (mem_links_of_branch hel)
    have hnodup := hbrs.nodup (nodup_append.mp (hwf.fits x el hel).linkedOnce).2.1
    have hblock : block ∈ el.branchNodes := hbrs.subset mem_cons_self
    have hne : block ≠ x := Nat.ne_of_gt (hwf.lt_of_mem_links (hlinks mem_cons_self)).1
    have hfirst : EmitsAt o a (l.body x) (l.node true block) .branch block :=
      (hnodes block hblock).mono (fun _ hs => hs)
        (fun _ _ => hl.lower (mem_links_of_branch hel hblock)) (fun _ hy => hy) fun _ _ _ h => h
    cases exp with
    | none =>
      rw [chainCode_last hne]
      exact (hfirst.widen fun y hy => ⟨block, mem_cons_self, hy⟩).map (fun code => code)
        fun _ _ _ => hl.last hblock
    | some exp =>
      rw [chainCode_more hne]
      exact EmitsAt.cons hwf hfirst hlinks hnodup (ih ((sublist_cons_self _ _).trans hbrs))
        (Code.condition x block exp) fun _ _ _ _ _ => hl.further hbrs hne

/-- The chain of an element: its own code comes first, then the other branches. -/
theorem chainCode_emits (hsome : el.ifExp.isSome) {pre : GenState → Prop}
    (hself : Emits (l.body x) (fun y => y = x ∨ Under a (el.children ++ el.slotNodes) y) pre self P)
    {Q : Fact}
    (hchain : ∀ later new new' exp code rest code', el.conditions = ⟨some exp, x⟩ :: rest →
      P later new code → l.beside x rest later new' code' →
      Q later (new ++ new') (.condition x x exp code code'))
    (hfresh : ∀ s, pre s → Fresh (Under a el.links) s)
    (hnodes : ∀ c ∈ el.branchNodes, EmitsAt o a (l.body c) (l.node true c) .branch c) :
    Emits (l.body x) (a.Below x) pre
      (chainCode o a x self el.conditions (branchOutlines a x el.conditions)) Q := by
  have hbranchLinks : el.branchNodes ⊆ el.links := fun c hc => Element.branch_link hc
  obtain ⟨exp, rest, hconds, hrest⟩ := exists_conditions hwf hel hsome
  have hoth := branches_emits hwf hel hl self rest (hrest ▸ Sublist.refl _) hnodes
  rw [← hrest] at hoth
  rw [hconds, chainCode_self]
  refine .both hself hoth (fun s hs y w hy => ?_) ?_ (below_of_under hel hbranchLinks) ?_ _
    fun _ _ _ _ _ => hchain _ _ _ _ _ _ _ hconds
  · obtain ⟨c, hc, hbelow⟩ := hy
    exact hfresh s hs y w ⟨c, hbranchLinks hc, hbelow⟩
  · rintro y (rfl | hy)
    · exact .refl
    · exact below_of_under hel (fun _ hc => hc) y (under_front hy)
  · rintro y (rfl | hy)
    · exact not_under_self hwf hel hbranchLinks
    · exact front_apart hwf hel y hy

theorem ownChain_emits (hroots : ∀ y, a.IsRoot y → ¬ a.IsSlot y)
    (hslot : ¬ (a.IsSlot x ∧ el.tag = "template")) {code : Gen Code}
    (hcode : EmitsBare l x (Under a (el.children ++ el.slotNodes))
      (Under a (el.children ++ el.slotNodes)) code)
    (hbrs : ∀ c ∈ el.branchNodes, EmitsAt o a (l.body c) (l.node true c) .branch c) :
    EmitsChain l a x el (Under a el.links) (a.Below x)
      (chainCode o a x (branchWrapped o.tags a x el code code) el.conditions
        (branchOutlines a x el.conditions)) := by
  have hsite : Site a x el (Under a (el.children ++ el.slotNodes))
      (fun y => y = x ∨ Under a (el.children ++ el.slotNodes) y) :=
    ⟨fun hroot => hroots x ⟨el, hel, hroot⟩, not_under_front hwf hel, .inl rfl⟩
  have hcode : EmitsBare l x (Under a (el.children ++ el.slotNodes))
      (fun y => y = x ∨ Under a (el.children ++ el.slotNodes) y) code :=
    hcode.mono (fun _ hs => hs) (fun _ _ hc => hc) (fun _ hy => .inr hy) fun _ _ _ hc => hc
  have hfront {s : GenState} (hs : Fresh (Under a el.links) s) :
      Fresh (Under a (el.children ++ el.slotNodes)) s :=
    fun y w hy => hs y w (under_front hy)
  constructor
  · intro hnot honce hright hsome
    have hself := self_unput hsite hl o.tags hcode hnot honce
    exact chainCode_emits hwf hel hl hsome
      (hself.strengthen fun s hs => ⟨⟨hfront hs.1.fresh, hs.1.loop, hs.1.hoist⟩, hs.2⟩)
      (fun _ _ _ _ _ _ _ => hl.nodeChain hnot honce hright) (fun _ hs => hs.1.fresh) hbrs
  · intro hfirst hsome
    have hself := self_put hsite hl o.tags hcode hfirst hsome
    exact chainCode_emits hwf hel hl hsome
      (hself.strengthen fun s hs => ⟨⟨hfront hs.1.fresh, hs.1.loop, hs.1.hoist⟩, hs.2⟩)
      (fun _ _ _ _ _ _ _ => hl.selfChain hfirst hslot) (fun _ hs => hs.1.fresh) hbrs

theorem element_emits (ho : o.WebModules) (hroots : ∀ y, a.IsRoot y → ¬ a.IsSlot y)
    (hlinked : ∀ c ∈ a.links x, ∀ entry, Suits a c entry →
      EmitsAt o a (l.body c) (l.node true c) entry c)
    (entry : Entry) (hentry : Suits a x entry) :
    EmitsAt o a (l.body x) (l.node true x) entry x := by
  have hkids (c : NodeId) (hc : c ∈ el.children) :
      EmitsAt o a (l.body c) (l.node true c) .child c :=
    hlinked c (mem_links_of_child hel hc) .child
      ⟨Ast.not_isSlot hwf hel (.inl hc), not_isBranch hwf hel (.inl hc)⟩
  have hslots (slot : String × NodeId) (hslot : slot ∈ el.scopedSlots) :
      EmitsAt o a (l.body slot.2) (l.node true slot.2) (.slot slot.1) slot.2 := by
    have hc : slot.2 ∈ el.slotNodes := List.mem_map_of_mem hslot
    exact hlinked slot.2 (mem_links_of_slot hel hc) (.slot slot.1)
      ⟨⟨x, el, hel, hc⟩, not_isBranch hwf hel (.inr hc)⟩
  have hbrs (c : NodeId) (hc : c ∈ el.branchNodes) :
      EmitsAt o a (l.body c) (l.node true c) .branch c :=
    hlinked c (mem_links_of_branch hel hc) .branch
      ⟨Ast.not_isSlot hwf hel (.inr hc), x, el, hel, hc⟩
  have hunder (y : NodeId) (hy : Under a el.links y) : a.Below x y :=
    below_of_under hel (fun _ hc => hc) y hy
  have hsite : Site a x el (Under a el.links) (a.Below x) :=
    ⟨fun hroot => hroots x ⟨el, hel, hroot⟩, not_under_self hwf hel fun _ hc => hc, .refl⟩
  -- at first nothing is recorded about the element
  have hready (s : GenState) (hs : Fresh (a.Below x) s) :
      Fresh (Under a el.links) s ∧ ∀ w, (x, w) ∉ s.done :=
    ⟨fun y w hy => hs y w (hunder y hy), fun w => hs x w .refl⟩
  have hbare (hslot : ¬ (a.IsSlot x ∧ el.tag = "template")) :=
    bareCode_emits hwf hel hl ho hslot hkids hslots
  have hchain (hslot : ¬ (a.IsSlot x ∧ el.tag = "template")) :=
    ownChain_emits hwf hel hl hroots hslot (hbare hslot) hbrs
  have hcode (hslot : ¬ (a.IsSlot x ∧ el.tag = "template")) :
      EmitsBare l x (Under a el.links) (a.Below x) _ :=
    (hbare hslot).mono (fun s hs y w hy => hs y w (under_front hy)) (fun _ _ hc => hc)
      (fun y hy => hunder y (under_front hy)) fun _ _ _ hc => hc
  unfold EmitsAt
  rw [hwf.acyclic.outline_eq hel, nodeCode, element?_eq_some_iff.mp hel]
  cases entry with
  | child =>
    have hslot : ¬ (a.IsSlot x ∧ el.tag = "template") := fun h => hentry.1 h.1
    exact (wrapped_emits hsite hl o.tags (hcode hslot) (hchain hslot) hentry.1
      (.inl hentry.2)).strengthen hready
  | branch =>
    have hslot : ¬ (a.IsSlot x ∧ el.tag = "template") := fun h => hentry.1 h.1
    exact (branchWrapped_emits hsite hl o.tags (hcode hslot) (hchain hslot) hentry.1
      hentry.2).strengthen hready
  | slot key =>
    refine (scopedSlot_emits hsite hl key hentry.1 ?_).strengthen hready
    by_cases htag : el.tag = "template"
    · have hchildUnder (y : NodeId) (hy : Under a el.children y) : Under a el.links y :=
        under_front (under_children hy)
      have hnodup := (nodup_append.mp (nodup_append.mp (hwf.fits x el hel).linkedOnce).1).1
      have hcodes := nodeCodes_emits hwf (mem_links_of_child hel) hnodup fun c hc =>
        EmitsAt.entered hel hl (.inl hc) (hkids c hc)
      exact slotTemplate_emits hl hentry.1 htag (hcodes.mono
        (fun s hs y w hy => hs y w (hchildUnder y hy)) (fun _ _ hc => hc)
        (fun y hy => hunder y (hchildUnder y hy)) fun _ _ _ hc => hc)
    · have hslot : ¬ (a.IsSlot x ∧ el.tag = "template") := fun h => htag h.2
      rw [slotBody, if_neg htag]
      exact wrapped_put hsite hl o.tags (hcode hslot) (hchain hslot) hentry.1

end Element

section

variable (ho : o.WebModules) (hwf : a.WellFormed) (hroots : ∀ y, a.IsRoot y → ¬ a.IsSlot y)
  (hl : ∀ x el, a.Below root x → a.element? x = some el → l.Holds a x el)
  (htext : ∀ x, a.element? x = none → ∀ later source, l.node true x later [] (.text source))

include ho hwf hroots hl htext

/-- All code of a tree has the facts of a layout that holds for its elements. -/
theorem nodeCode_emits (hbelow : a.Below root x) (entry : Entry)
    (hentry : Suits a x entry) : EmitsAt o a (l.body x) (l.node true x) entry x := by
  induction x using hwf.induct generalizing entry with
  | step x ih =>
    cases hel : a.element? x with
    | some el =>
      exact element_emits hwf hel (hl x el hbelow hel) ho hroots
        (fun c hc entry hentry => ih c hc (.tail hbelow hc) entry hentry) entry hentry
    | none =>
      unfold EmitsAt
      rw [outline_of_not_element hel, nodeCode]
      cases hkind : a.kind? x with
      | none => exact .pure fun _ => htext x hel _ _
      | some kind =>
        cases kind with
        | element el =>
          rw [element?_eq_some_iff.mpr hkind] at hel
          cases hel
        | text content tokens => exact .pure fun _ => htext x hel _ _
        | comment content => exact .pure fun _ => htext x hel _ _

theorem generate_emits (hroot : a.root = some root) (hunl : ∀ i, root ∉ a.links i) :
    ∃ bodies, (generate o a).result = .ok bodies ∧
      l.node true root ⟨bodies.hoisted, (generate o a).notes.errors⟩ bodies.hoisted bodies.main ∧
      ∀ code ∈ bodies.hoisted, l.body root bodies.hoisted code := by
  obtain ⟨main, s, new, hmain, hrun, hnode⟩ := nodeCode_emits ho hwf hroots hl htext .refl .child
    (suits_of_unlinked hunl) {} fun _ _ _ hmem => by cases hmem
  obtain rfl : s.hoisted = new := hrun.hoisted
  refine ⟨⟨main, s.hoisted⟩, ?_, hnode ⟨_, _⟩ prefix_rfl ?_,
    fun code hcode => hrun.bodies code hcode _ prefix_rfl⟩
  · rw [result_generate hroot, result, hmain]
    rfl
  · unfold generate
    rw [hroot]
    exact subset_append_left _ _

end

end Tree

end Gen

end TemplateCompiler
