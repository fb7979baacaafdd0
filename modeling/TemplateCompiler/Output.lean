import TemplateCompiler.Render.Code

/-!
# Output

What compiling a template produces, and the two forms it is written in: a module that exports the
render functions, and JSON.
-/

namespace TemplateCompiler

/-- The bodies of the render functions, and the errors and tips as they are shown. -/
structure Output where
  mainBody : String := ""
  staticBodies : List String := []
  errors : List String := []
  tips : List String := []
  deriving DecidableEq, Inhabited

namespace Output

def texts (items : List String) : Json := .array (items.map .string)

def toJson (o : Output) : String :=
  (Json.object [("mainBody", .string o.mainBody), ("staticBodies", texts o.staticBodies),
    ("errors", texts o.errors), ("tips", texts o.tips)]).pretty ""

def function (body : String) : String := "function()" ++ braced body

def toModule (o : Output) : String :=
  let statics := o.staticBodies.map fun body => "  " ++ function body
  "export const render = " ++ function o.mainBody ++ ";\nexport const staticRenderFns = [" ++
    (if statics.isEmpty then "" else "\n" ++ String.intercalate ",\n" statics ++ "\n") ++ "];\n"

end Output

end TemplateCompiler
