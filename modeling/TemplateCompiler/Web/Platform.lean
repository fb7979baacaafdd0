import TemplateCompiler.Extension.BaseDirectives
import TemplateCompiler.Web.InputTypeModule
import TemplateCompiler.Web.ModelDirective
import TemplateCompiler.Web.StyleModule
import TemplateCompiler.Web.Tags

/-!
# The web platform

The options for templates that render to a page: its tags, its modules and its directives.
-/

namespace TemplateCompiler.Web

/-- Sets the content of an element from markup. -/
def htmlDirective : DirectiveHandler := fun _ el dir =>
  match dir.value with
  | some value => pure (el.addProp "innerHTML" ("_s(" ++ value ++ ")"), false)
  | none => pure (el, false)

/-- The modules of the web; their data entries stand in this order. -/
def modules : List Module := [classModule, styleModule, inputTypeModule]

def directives : Dict DirectiveHandler :=
  (baseDirectives.insert "model" modelDirective).insert "html" htmlDirective

def settings : Settings where
  tags := tagTable
  mustUseProp := mustUseProp

def options : Options := { settings with modules, directives }

end TemplateCompiler.Web
