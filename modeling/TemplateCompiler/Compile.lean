import TemplateCompiler.Output
import TemplateCompiler.Render.Generate
import TemplateCompiler.Template.Builder
import TemplateCompiler.Template.Static

/-!
# Compiling a template

Reads a template into a tree, marks what is static, and generates its code. Only an extension can
make it fail: a template with errors still has output.
-/

namespace TemplateCompiler

def optimizedTree (o : Options) (source : String) : Outcome Ast :=
  (Ast.optimize o ·) <$> parse o source

def compileTree (o : Options) (source : String) : Outcome Bodies := do
  generate o (← optimizedTree o source)

/-- The code of a template, with the reports made on the way as they are shown. -/
def Output.ofBodies (source : String) (bodies : Bodies) (notes : Diagnostics) : Output where
  mainBody := bodies.main.renderBody
  staticBodies := bodies.hoisted.map Code.renderBody
  errors := notes.errorTexts source
  tips := notes.tipTexts source

/-- Compiles a template. White space around it is no part of it. -/
def compile (o : Options) (template : String) : Except HookFailure Output :=
  let source := Text.trim template
  let compiled := compileTree o source
  compiled.result.map fun bodies => .ofBodies source bodies compiled.notes

/-- Once there is code, there is output. -/
theorem compile_of_result {o : Options} {template : String} {bodies : Bodies}
    (h : (compileTree o (Text.trim template)).result = .ok bodies) :
    compile o template =
      .ok (.ofBodies (Text.trim template) bodies (compileTree o (Text.trim template)).notes) := by
  unfold compile
  dsimp only
  rw [h]
  rfl

end TemplateCompiler
