import Mathlib.Data.List.Nodup
import TemplateCompiler.Proofs.Linking
import TemplateCompiler.Proofs.Rendering
import TemplateCompiler.Proofs.StaticContent

/-!
# What a template without errors is compiled to

Two results meet here. If nothing is reported while a template is read, each of its elements is
linked, the root or replaced (`Linking`). And the code of a tree has one piece for each element that
is rendered from the root (`Rendering`). What remains is to say when a link is a place in the code.
It is, apart from two cases: a branch behind one without a condition is not reached
(`Ast.BehindElse`), and what would go into a data object is left out if there is none
(`Ast.WithoutData`).

`compile_elements_once` puts this together: away from these two cases, a template about which
nothing is reported has one piece of code for each element, except for those that are or stand in a
scoped slot which has been replaced.
-/

namespace TemplateCompiler

open Markup List Option Element Text

/-! ## Links without a place in the code -/

theorem Condition.mem_reached {x : NodeId} {chain : List Condition} (hx : x ∈ chain.map (·.block))
    (h : ∀ before last after, chain = before ++ last :: after → last.exp = none →
      x ∉ after.map (·.block)) : x ∈ Condition.reached chain := by
  induction chain with
  | nil => cases hx
  | cons c rest ih =>
    rcases mem_cons.mp hx with rfl | hx
    · exact mem_cons_self
    · have hsome : c.exp.isSome := by
        rw [isSome_iff_ne_none]
        exact fun hnone => h [] c rest rfl hnone hx
      refine mem_cons_of_mem _ ?_
      rw [if_pos hsome]
      refine ih hx fun before last after heq => h (c :: before) last after ?_
      rw [heq, cons_append]

namespace Ast

variable {a a' : Ast} {done : List Signal} {loose : List NodeId} {root p x y : NodeId}

/-- The branch stands in a chain behind one that has no condition. -/
def BehindElse (a : Ast) (x : NodeId) : Prop :=
  ∃ p el before last after, a.element? p = some el ∧ el.conditions = before ++ last :: after ∧
    last.exp = none ∧ x ∈ after.map (·.block)

/-- The node would go into the data object of an element that has none: it is a scoped slot of the
element, or in its inline template. -/
def WithoutData (a : Ast) (x : NodeId) : Prop :=
  ∃ p el, a.element? p = some el ∧ ¬ a.HasData p el ∧
    (x ∈ el.slotNodes ∨ (x ∈ el.children ∧ a.MakesCall p el ∧ el.inlineTemplate))

theorem renders_of_mem_links (h : a.Accounted done loose) (hx : x ∈ a.links p)
    (hsound : a.InlineSound p) (helse : ¬ a.BehindElse x) (hdata : ¬ a.WithoutData x) :
    a.Renders p x := by
  obtain ⟨el, hel, hx⟩ := exists_element_of_mem_links hx
  rcases mem_links.mp hx with (hchild | hslot) | hbr
  · by_cases hinl : a.MakesCall p el ∧ el.inlineTemplate
    · have hhas : a.HasData p el := by
        by_contra hnot
        exact hdata ⟨p, el, hel, hnot, .inr ⟨hchild, hinl⟩⟩
      -- the inline template is one element, so the child is the first one
      obtain ⟨only, honly⟩ := length_eq_one_iff.mp (hsound el hel hhas hinl.2).1
      rw [honly] at hchild
      refine .inline hel ?_ hhas hinl.2
      rw [honly, mem_singleton.mp hchild]
      rfl
    · exact .child hel hchild hinl
  · refine .slot hel hslot ?_
    by_contra hnot
    exact hdata ⟨p, el, hel, hnot, .inl hslot⟩
  · refine .branch hel (Condition.mem_reached hbr fun before last after heq hnone hafter => ?_) ?_
    · cases hconds : el.conditions with
      | nil => simp [branchNodes, hconds] at hbr
      | cons first rest =>
        refine helse ⟨p, el, first :: before, last, after, hel, ?_, hnone, hafter⟩
        rw [hconds, tail_cons] at heq
        rw [hconds, heq, cons_append]
    · rintro ⟨hslot, htag⟩
      rw [h.slotChains p el hel htag (.inr hslot)] at hbr
      cases hbr

/-- At most one node that nothing links to is above a node. -/
theorem WellFormed.eq_of_unlinked (hwf : a.WellFormed) (hroot : ∀ i, root ∉ a.links i)
    (hy : ∀ i, y ∉ a.links i) (hrootx : a.Below root x) (hyx : a.Below y x) : root = y := by
  induction hrootx with
  | refl =>
    rcases Relation.ReflTransGen.cases_tail hyx with heq | ⟨c, -, hc⟩
    · exact heq.symm ▸ rfl
    · exact absurd hc (hroot c)
  | tail _ hlink ih =>
    rcases Relation.ReflTransGen.cases_tail hyx with heq | ⟨c, hyc, hc⟩
    · subst heq
      exact absurd hlink (hy _)
    · exact ih (hwf.owner _ _ _ hc hlink ▸ hyc)

/-- In a tree whose elements are accounted for, the elements that are rendered are those that are
not and do not stand in a replaced slot. -/
theorem rendered_iff_not_replaced (hwf : a.WellFormed) (h : a.Accounted done [])
    (hroot : a.root = some root) (hunlinked : ∀ i, root ∉ a.links i)
    (hpar : a.parent? root = none) (hsound : a.SoundBelow root) (hx : (a.element? x).isSome)
    (hclear : ∀ y, a.Below y x → ¬ a.BehindElse y ∧ ¬ a.WithoutData y) :
    a.Rendered root x ↔ ∀ y, a.Below y x → ¬ a.Replaced y := by
  constructor
  · intro hrendered y hy hreplaced
    obtain rfl := hwf.eq_of_unlinked hunlinked hreplaced.unlinked hrendered.below hy
    obtain ⟨_, p, _, _, _, _, hp, _⟩ := hreplaced.outdated
    rw [hpar] at hp
    cases hp
  · intro hkept
    -- up the tree, which ends at the root because no element on the way has been replaced
    induction x using Nat.strongRecOn with
    | ind x ih =>
      have hlinked {p : NodeId} (hp : x ∈ a.links p) : a.Rendered root x := by
        obtain ⟨el, hel, -⟩ := exists_element_of_mem_links hp
        have habove (y : NodeId) (hy : a.Below y p) : a.Below y x := .tail hy hp
        have hrendered := ih p (hwf.lt_of_mem_links hp).1 (isSome_of_eq_some hel)
          (fun y hy => hclear y (habove y hy)) fun y hy => hkept y (habove y hy)
        refine ⟨hx, hrendered.2.tail ?_⟩
        exact renders_of_mem_links h hp (hsound p hrendered) (hclear x .refl).1 (hclear x .refl).2
      rcases h.placed x hx with hloose | hr | ⟨p, hp⟩ | hout
      · cases hloose
      · cases hroot.symm.trans hr
        exact ⟨hx, .refl⟩
      · exact hlinked hp
      · by_cases hp : ∃ p, x ∈ a.links p
        · exact hlinked hp.choose_spec
        · exact absurd ⟨fun i hi => hp ⟨i, hi⟩, hout⟩ (hkept x .refl)

theorem Accounted.of_unmarked (hsame : a'.unmarked = a.unmarked) (h : a.Accounted done loose) :
    a'.Accounted done loose := by
  have hsplit {b b' : Ast} (hsame : b'.unmarked = b.unmarked) {y : NodeId} {el : Element}
      (hy : b'.element? y = some el) :
      ∃ el' marks, b.element? y = some el' ∧ el = el'.withMarks marks := by
    obtain ⟨el', hel', heq⟩ := element?_of_unmarked hsame hy
    exact ⟨el', el.marks, hel', heq⟩
  have hlinks (y : NodeId) : a'.links y = a.links y := by
    rw [← links_unmarked, hsame, links_unmarked]
  have hpar (y : NodeId) : a'.parent? y = a.parent? y := by
    rw [← parent?_unmarked, hsame, parent?_unmarked]
  have hroot : a'.root = a.root := by
    show a'.unmarked.root = a.unmarked.root
    rw [hsame]
  refine ⟨fun y hy => ?_, fun p el hp slot hslot => ?_, fun y el hy htag hslot => ?_,
    fun y el hy => ?_, fun tag attrs unary span hmem => ?_⟩
  · obtain ⟨el', hel'⟩ := isSome_iff_exists.mp hy
    obtain ⟨el, marks, hel, rfl⟩ := hsplit hsame hel'
    rcases h.placed y (isSome_of_eq_some hel) with hy | hr | ⟨p, hp⟩ | hout
    · exact .inl hy
    · exact .inr (.inl (hroot.trans hr))
    · exact .inr (.inr (.inl ⟨p, hlinks p ▸ hp⟩))
    · obtain ⟨elx, p, parent, z, hx, hscope, hpx, hp, hz, hlt⟩ := hout
      obtain ⟨elx', _, hx', rfl⟩ := hsplit hsame.symm hx
      obtain ⟨parent', _, hp', rfl⟩ := hsplit hsame.symm hp
      exact .inr (.inr (.inr ⟨elx', p, parent', z, hx', hscope, (hpar y).trans hpx, hp', hz, hlt⟩))
  · obtain ⟨el', _, hp', rfl⟩ := hsplit hsame hp
    obtain ⟨elx, hx, hscope, hkey⟩ := h.slotKeys p el' hp' slot hslot
    obtain ⟨elx', _, hx', rfl⟩ := hsplit hsame.symm hx
    exact ⟨elx', hx', hscope, hkey⟩
  · obtain ⟨el', _, hy', rfl⟩ := hsplit hsame hy
    exact h.slotChains y el' hy' htag (hslot.imp_right (isSlot_of_unmarked hsame.symm))
  · obtain ⟨el', _, hy', rfl⟩ := hsplit hsame hy
    exact h.allowed y el' hy'
  · obtain ⟨y, el, hy, htag, hspan⟩ := h.started tag attrs unary span hmem
    obtain ⟨el', _, hy', rfl⟩ := hsplit hsame.symm hy
    exact ⟨y, el', hy', htag, hspan⟩

end Ast

/-! ## Whole templates -/

/-- If nothing is reported about a template, then nothing is while it is read, it has a root, and
nothing is while its code is generated. -/
theorem quiet_compileTree {o : Options} {source : String} {b : Builder}
    (hb : (Builder.signals o source (read o.tags o.comments source) {}).result = .ok b)
    (hquiet : (compileTree o source).notes.errors = []) :
    (Builder.signals o source (read o.tags o.comments source) {}).notes.errors = [] ∧
      (b.ast.root = none → b.rootReported) ∧
      (generate o (b.ast.optimize o)).notes.errors = [] := by
  unfold compileTree at hquiet
  rw [Outcome.notes_bind (result_optimizedTree o source hb), Diagnostics.errors_append,
    append_eq_nil_iff] at hquiet
  obtain ⟨htree, hcode⟩ := hquiet
  unfold optimizedTree at htree
  rw [map_eq_pure_bind, Outcome.notes_bind (result_parse o source hb), Diagnostics.errors_append,
    append_eq_nil_iff] at htree
  replace htree := htree.1
  unfold parse at htree
  rw [Outcome.notes_bind hb, Diagnostics.errors_append, append_eq_nil_iff] at htree
  refine ⟨htree.1, fun hnone => ?_, hcode⟩
  have hreport := htree.2
  by_contra hfirst
  rw [hnone, Bool.not_eq_true] at *
  rw [hfirst] at hreport
  cases hreport

/-- Every template is compiled. If no error is reported, then each start tag has its element in the
tree, and no element is in the code twice. An element is in the code exactly once if it is not a
scoped slot that has been replaced and does not stand in one, and else not at all. Left open are
elements at or above which there is a branch behind one without a condition, or something that would
go into a data object that is not there. -/
theorem compile_elements_once (o : Options) (ho : o.UsesWeb) (template : String) :
    ∃ tree bodies out, (optimizedTree o (Text.trim template)).result = .ok tree ∧
      (generate o tree).result = .ok bodies ∧ compile o template = .ok out ∧
      out.mainBody = bodies.main.renderBody ∧
      out.staticBodies = bodies.hoisted.map Code.renderBody ∧
      (out.errors = [] → (∀ tag attrs unary span, Signal.event (.opened tag attrs unary span) ∈
            read o.tags o.comments (Text.trim template) →
          ∃ x el, tree.element? x = some el ∧ el.tag = tag ∧ el.span = span) ∧
        ∀ x, (tree.element? x).isSome → bodies.elements.count x ≤ 1 ∧
          ((∀ y, tree.Below y x → ¬ tree.BehindElse y ∧ ¬ tree.WithoutData y) →
            (bodies.elements.count x = 1 ↔ ∀ y, tree.Below y x → ¬ tree.Replaced y))) := by
  have hread := Builder.signals_read_accounted ho (trim template)
  obtain ⟨b, hb, hkeeps, -⟩ := Builder.signals_read ho (trim template)
  have htree := result_optimizedTree o (trim template) hb
  have hroot := Ast.root_optimize o b.ast
  have hwf := hkeeps.tree.toWellFormed
  have hwf' := hwf.of_unmarked (Ast.unmarked_optimize o b.ast)
  -- the output has the bodies, and its errors are all that has been reported
  have hcompile {bodies : Bodies} (hbodies : (generate o (b.ast.optimize o)).result = .ok bodies) :
      compile o template = .ok (.ofBodies (trim template) bodies
        (compileTree o (trim template)).notes) := by
    have hresult : (compileTree o (trim template)).result = .ok bodies := by
      rw [compileTree, Outcome.result_bind, htree]
      exact hbodies
    unfold compile
    dsimp only
    rw [hresult]
    rfl
  have hquiet {bodies : Bodies} (herr : (Output.ofBodies (trim template) bodies
      (compileTree o (trim template)).notes).errors = []) :=
    quiet_compileTree hb (map_eq_nil_iff.mp herr)
  cases hr : b.ast.root with
  | none =>
    have hbodies : (generate o (b.ast.optimize o)).result = .ok ⟨.text "_c(\"div\")", []⟩ := by
      rw [generate, hroot, hr]
      rfl
    refine ⟨_, _, _, htree, hbodies, hcompile hbodies, rfl, rfl, fun herr => ?_⟩
    -- a template without a root is reported
    obtain ⟨hsilent, hreported, -⟩ := hquiet herr
    rw [(hread b hb hsilent).2] at hreported
    cases hreported hr
  | some root =>
    obtain rfl : root = 0 := hkeeps.tree.rootFirst root hr
    have hunlinked (i : NodeId) : 0 ∉ (b.ast.optimize o).links i := fun hlink =>
      absurd (hwf'.lt_of_mem_links hlink).1 (Nat.not_lt_zero i)
    have hinit (id : NodeId) (el : Element) (hel : b.ast.element? id = some el) :
        el.marks.root = false := by rw [(hkeeps.tree.origin id el hel).marks]
    have hwalked := Ast.walked_optimize (o := o) hwf hr hwf.parent?_zero
    obtain ⟨bodies, hbodies, hlists, hsound⟩ := generate_rendered ho.modules hwf'
      (fun y hy => hwalked.not_isSlot hinit hy) (hroot.trans hr) hunlinked
    refine ⟨_, bodies, _, htree, hbodies, hcompile hbodies, rfl, rfl, fun herr => ?_⟩
    obtain ⟨hsilent, -, hcode⟩ := hquiet herr
    have haccounted := (hread b hb hsilent).1.of_unmarked (Ast.unmarked_optimize o b.ast)
    refine ⟨haccounted.started, fun x hx => ⟨nodup_iff_count_le_one.mp hlists.nodup x, ?_⟩⟩
    intro hclear
    rw [← Ast.rendered_iff_not_replaced hwf' haccounted (hroot.trans hr) hunlinked hwf'.parent?_zero
      (hsound hcode) hx hclear, ← hlists.mem]
    exact ⟨fun hone => count_pos_iff.mp (hone ▸ Nat.one_pos),
      fun hmem => count_eq_one_of_mem hlists.nodup hmem⟩

/-- The element has no scoped slots, is none, has no inline template, and only the last branch of
its chain may be without a condition. -/
def Element.isPlain (el : Element) : Bool :=
  el.conditions.dropLast.all (·.exp.isSome) && el.scopedSlots.isEmpty && el.slotScope.isNone &&
    !el.inlineTemplate

/-- In a tree of such elements there is none of the cases that keep an element out of the code. -/
theorem Ast.clear_of_isPlain {a : Ast}
    (h : (List.range a.nodes.size).all fun id => (a.element? id).all isPlain) (y : NodeId) :
    (¬ a.BehindElse y ∧ ¬ a.WithoutData y) ∧ ¬ a.Replaced y := by
  have hplain {id : NodeId} {el : Element} (hel : a.element? id = some el) :
      ((el.conditions.dropLast.all (·.exp.isSome) ∧ el.scopedSlots = []) ∧ el.slotScope = none) ∧
        el.inlineTemplate = false := by
    have hid := List.all_eq_true.mp h id (mem_range.mpr (Ast.lt_size_of_element? hel))
    rw [hel, all_some] at hid
    simpa only [isPlain, Bool.and_eq_true, List.isEmpty_iff, isNone_iff_eq_none,
      Bool.not_eq_true'] using hid
  refine ⟨⟨?_, ?_⟩, ?_⟩
  · rintro ⟨p, el, before, last, after, hel, hconds, hlast, hafter⟩
    have hsome := (hplain hel).1.1.1
    rw [hconds, dropLast_append_cons, all_append, Bool.and_eq_true] at hsome
    cases after with
    | nil => cases hafter
    | cons c after =>
      have hsome := List.all_eq_true.mp hsome.2 last mem_cons_self
      rw [hlast] at hsome
      cases hsome
  · rintro ⟨p, el, hel, -, hslot | ⟨-, -, hinl⟩⟩
    · rw [slotNodes, (hplain hel).1.1.2] at hslot
      cases hslot
    · rw [(hplain hel).2] at hinl
      cases hinl
  · rintro ⟨-, el, p, parent, z, hel, hscope, -⟩
    rw [(hplain hel).1.2] at hscope
    cases hscope

/-- A chain, about which nothing is reported: each of its elements is in the code once. -/
theorem compile_elements_once_chain :
    Web.options.UsesWeb ∧ ∃ (tree : Ast) (bodies : Bodies) (out : Output),
      (optimizedTree Web.options (Text.trim "<p r-if=a>x</p><i r-else/>")).result = .ok tree ∧
      (generate Web.options tree).result = .ok bodies ∧
      compile Web.options "<p r-if=a>x</p><i r-else/>" = .ok out ∧ out.errors = [] ∧
      ∀ x, (tree.element? x).isSome → bodies.elements.count x = 1 := by
  obtain ⟨tree, bodies, out, htree, hbodies, hout, -, -, honce⟩ :=
    compile_elements_once Web.options Web.usesWeb_options "<p r-if=a>x</p><i r-else/>"
  have hquiet := List.isEmpty_iff.mp (check_ok hout (·.errors.isEmpty) (by decide +kernel))
  have hclear := Ast.clear_of_isPlain (check_ok htree (fun tree =>
    (List.range tree.nodes.size).all fun id => (tree.element? id).all isPlain) (by decide +kernel))
  exact ⟨Web.usesWeb_options, tree, bodies, out, htree, hbodies, hout, hquiet, fun x hx =>
    (((honce hquiet).2 x hx).2 fun y _ => (hclear y).1).mpr fun y _ => (hclear y).2⟩

/-- Two scoped slots of one name: the first one is in the tree, but not in the code, and nothing is
reported. -/
theorem replaced_slot_not_in_code : ∃ (tree : Ast) (bodies : Bodies) (out : Output),
      (optimizedTree Web.options (Text.trim
        "<my-list><b slot-scope=\"p\">x</b><i slot-scope=\"q\">y</i></my-list>")).result =
          .ok tree ∧
      (generate Web.options tree).result = .ok bodies ∧
      compile Web.options "<my-list><b slot-scope=\"p\">x</b><i slot-scope=\"q\">y</i></my-list>" =
        .ok out ∧
      out.errors = [] ∧ (tree.element? 1).isSome ∧ bodies.elements.count 1 = 0 := by
  have hcheck : ((optimizedTree Web.options (trim
      "<my-list><b slot-scope=\"p\">x</b><i slot-scope=\"q\">y</i></my-list>")).result.toOption.any
        fun tree => (tree.element? 1).isSome && ((generate Web.options tree).result.toOption.any
          (·.elements.count 1 = 0))) = true := by decide +kernel
  have hquiet : (compile Web.options
      "<my-list><b slot-scope=\"p\">x</b><i slot-scope=\"q\">y</i></my-list>").toOption.any
        (·.errors.isEmpty) = true := by decide +kernel
  obtain ⟨tree, htree, hcheck⟩ := exists_ok_of_any hcheck
  rw [Bool.and_eq_true] at hcheck
  obtain ⟨bodies, hbodies, hcount⟩ := exists_ok_of_any hcheck.2
  obtain ⟨out, hout, herrors⟩ := exists_ok_of_any hquiet
  exact ⟨tree, bodies, out, htree, hbodies, hout, List.isEmpty_iff.mp herrors, hcheck.1,
    of_decide_eq_true hcount⟩

end TemplateCompiler
