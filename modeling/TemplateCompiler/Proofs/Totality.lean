import TemplateCompiler.Compile
import TemplateCompiler.Proofs.IndexedBuilding
import TemplateCompiler.Proofs.MarkedTrees
import TemplateCompiler.Proofs.Reentry
import TemplateCompiler.Proofs.SlicedAttributes
import TemplateCompiler.Proofs.SlicedMarkup
import TemplateCompiler.Proofs.Writing

/-!
# Every template is compiled

A compiler that works on one buffer and one array can stop for reasons that have nothing to do with
a template: a slice that is not there, a number without a node, a node that is not what is expected.
`Checked.compile` puts together the scanner that takes slices of the source and the passes that look
up nodes by their number, and gives up at the first such failure. With the extensions of the web it
never does, and gives the output that `compile` gives (`compile_total`).

The readers of attributes and texts have no part in this, because they are not given slices of the
source. None of them misses a slice on any text at all (`Sliced.Readers`), apart from the one for
style data, which depends on how static styles are written.
-/

namespace TemplateCompiler

open Markup Ast

/-! ## Compiling with checks -/

namespace Checked

open Indexed

def parse (o : Options) (source : String) : Step Ast := do
  let signals ← found (Sliced.read o.tags o.comments source.toList)
  let b ← Indexed.signals o source signals {}
  if b.ast.root.isNone && !b.rootReported then Noted.error .noRoot none
  return b.ast

def compileTree (o : Options) (source : String) : Step Bodies := do
  let tree ← parse o source
  let marked ← found (tree.optimizeInPlace o)
  let bodies ← found (Reentrant.generate? o marked)
  bodies

def compile (o : Options) (template : String) : Option (Except HookFailure Output) :=
  let source := Text.trim template
  let compiled := (compileTree o source).run
  match compiled.result with
  | .error failure => some (.error failure)
  | .ok none => none
  | .ok (some bodies) => some (.ok (.ofBodies source bodies compiled.notes))

end Checked

/-- No reader of attributes or texts misses a slice, whatever it reads. -/
structure Sliced.Readers (o : Options) : Prop where
  references : ∀ text, Sliced.decode text = some (Text.decodeChars text)
  filters : ∀ exp, Sliced.filterChain exp = some (FilterChain.parse exp)
  interpolations : ∀ text,
    Sliced.interpolation o.delimiters text = some (Interpolation.parse? o.delimiters text)
  iterators : ∀ source names, Sliced.iterators source names = some (LoopHead.ofNames source names)
  modifiers : ∀ name, Sliced.modifiers name = some (Element.splitModifiers name)
  styles : ∀ text, Sliced.style text = some (Web.parseStyle text)
  paths : ∀ value, Sliced.modelPath value = some (ModelPath.parse value)
  assignments : ∀ value assigned,
    Sliced.assignment value assigned = some (ModelPath.assignment value assigned)

theorem Sliced.readers (o : Options) : Sliced.Readers o where
  references := Sliced.decode_eq
  filters := Sliced.filterChain_eq
  interpolations := Sliced.interpolation_eq o.delimiters
  iterators := Sliced.iterators_eq
  modifiers := Sliced.modifiers_eq
  styles := Sliced.style_eq
  paths := Sliced.modelPath_eq
  assignments := Sliced.assignment_eq

/-! ## Nothing is missing -/

variable {o : Options}

section

variable (ho : o.UsesWeb)

include ho

theorem Checked.parse_agrees (source : String) :
    Indexed.Agrees (Checked.parse o source) (TemplateCompiler.parse o source) := by
  refine .bindFound (Sliced.read_eq o.tags o.comments source) ?_
  refine .bind (Indexed.signals_agrees ho (Builder.keeps_empty o) source (List.Subset.refl _))
    (Builder.signals_read ho source) fun b _ => ?_
  split
  · exact .bindLift (.pure _)
  · exact .pure _

theorem ensures_generate (tree : Ast) : (generate o tree).Ensures fun _ => True :=
  (generate_omits ho.modules (p := fun _ => false) rfl rfl tree).2

theorem Checked.compileTree_agrees (source : String) :
    Indexed.Agrees (Checked.compileTree o source) (TemplateCompiler.compileTree o source) := by
  have hcompile : TemplateCompiler.compileTree o source =
      TemplateCompiler.parse o source >>= fun tree => generate o (tree.optimize o) := by
    unfold TemplateCompiler.compileTree optimizedTree
    simp
  rw [hcompile]
  refine .bind (Checked.parse_agrees ho source) (ensures_parse ho source)
    fun tree ⟨hwf, hroot, _⟩ => ?_
  have hmarked : tree.optimizeInPlace o = some (tree.optimize o) :=
    optimizeInPlace_eq hwf.acyclic (fun _ _ hx => (hwf.lt_of_mem_links hx).2)
      fun r hr => lt_size_of_isSome (hroot r hr)
  obtain ⟨bodies, hbodies, -⟩ := ensures_generate ho (tree.optimize o)
  have hcode := Reentrant.generate?_eq (hwf.ascending_optimize o) (hwf.connected_optimize o hroot)
    hbodies
  exact .bindFound hmarked (.bindFound hcode (.lift _))

theorem ensures_compileTree (source : String) : (compileTree o source).Ensures fun _ => True := by
  unfold compileTree optimizedTree
  simp only [map_eq_pure_bind, bind_assoc, pure_bind]
  exact (ensures_parse ho source).bind fun tree _ => ensures_generate ho _

/-- Once code has been generated, there is output, and checks change nothing about it. -/
theorem Checked.compile_eq {template : String} {bodies : Bodies}
    (h : (TemplateCompiler.compileTree o (Text.trim template)).result = .ok bodies) :
    ∃ out, TemplateCompiler.compile o template = .ok out ∧
      Checked.compile o template = some (.ok out) := by
  have hrun : (Checked.compileTree o (Text.trim template)).run =
      some <$> TemplateCompiler.compileTree o (Text.trim template) :=
    Checked.compileTree_agrees ho _
  have hnotes : (some <$> TemplateCompiler.compileTree o (Text.trim template)).notes =
      (TemplateCompiler.compileTree o (Text.trim template)).notes := by
    rw [map_eq_pure_bind, Outcome.notes_bind h, Outcome.notes_pure, Diagnostics.append_empty]
  refine ⟨.ofBodies (Text.trim template) bodies
    (TemplateCompiler.compileTree o (Text.trim template)).notes, ?_, ?_⟩
  · unfold TemplateCompiler.compile
    dsimp only
    rw [h]
    rfl
  · unfold Checked.compile
    dsimp only
    rw [hrun, hnotes, Outcome.result_map, h]
    rfl

end

/-- Every template is compiled, and nothing is ever missing on the way: no slice of the source and
of what is read from it, no node that is looked up, and no element where one is expected. -/
theorem compile_total (o : Options) (ho : o.UsesWeb) (template : String) :
    (∃ out, compile o template = .ok out ∧ Checked.compile o template = some (.ok out)) ∧
      Sliced.Readers o ∧
      ∃ tree, (optimizedTree o (Text.trim template)).result = .ok tree ∧
        ∀ id el, tree.element? id = some el → Sliced.styleData el = some (Web.styleData el) := by
  obtain ⟨tree, htree, hwf, hroot, hstyle⟩ := ensures_parse ho (Text.trim template)
  have hunmarked := unmarked_optimize o tree
  have hmarked : (optimizedTree o (Text.trim template)).result = .ok (tree.optimize o) := by
    rw [optimizedTree, Outcome.result_map, htree]
    rfl
  refine ⟨?_, Sliced.readers o, _, hmarked, fun id el hel => ?_⟩
  · obtain ⟨bodies, hbodies, -⟩ := ensures_generate ho (tree.optimize o)
    have hcompiled : (compileTree o (Text.trim template)).result = .ok bodies := by
      rw [compileTree, Outcome.result_bind, hmarked]
      exact hbodies
    exact Checked.compile_eq ho hcompiled
  · obtain ⟨el₀, hel₀, heq⟩ := element?_of_unmarked hunmarked hel
    refine Sliced.styleData_eq fun text htext => hstyle id el₀ hel₀ text ?_
    rwa [heq] at htext

/-- Tags and filters that are left open, and characters of several bytes. -/
theorem compile_total_unfinished :
    Options.UsesWeb { Web.options with delimiters := some ("⟦", "⟧"), directivePrefix := "v-" } ∧
      ∃ out, compile { Web.options with delimiters := some ("⟦", "⟧"), directivePrefix := "v-" }
          "<ü><p v-if=\"é\" style=\"top:0\">⟦a | f(⟧ é</p><i v-else-if='x'" = .ok out ∧
        Checked.compile { Web.options with delimiters := some ("⟦", "⟧"), directivePrefix := "v-" }
          "<ü><p v-if=\"é\" style=\"top:0\">⟦a | f(⟧ é</p><i v-else-if='x'" = some (.ok out) :=
  have hweb : Options.UsesWeb
      { Web.options with delimiters := some ("⟦", "⟧"), directivePrefix := "v-" } :=
    ⟨Web.usesWeb_options.modules, Web.usesWeb_options.directives⟩
  ⟨hweb, (compile_total _ hweb _).1⟩

end TemplateCompiler
