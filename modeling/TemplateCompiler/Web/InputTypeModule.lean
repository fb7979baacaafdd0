import TemplateCompiler.Extension.Basic

/-!
# Inputs of a computed type

An input whose type is computed, and whose value is bound both ways, is replaced by a chain of a
checkbox, a radio button and an input of any other type, so that each gets the code it needs.
-/

namespace TemplateCompiler.Web

def computedType? (directivePrefix : String) (el : Element) : Option String :=
  match (el.attr? ":type").or (el.attr? (directivePrefix ++ "bind:type")) with
  | some value => some (FilterChain.parse value)
  | none =>
    if el.hasAttr "type" then none
    else (el.attr? (directivePrefix ++ "bind")).map fun object => "(" ++ object ++ ").type"

/-- The chain for an input with the given code for its type. -/
def typeBranches (directivePrefix type : String) (el : Element) : List Branch :=
  let condition := el.attr? (directivePrefix ++ "if")
  let guarded (name : String) : String :=
    "(" ++ type ++ ")==='" ++ name ++ "'" ++ condition.elim "" fun c => "&&(" ++ c ++ ")"
  let stripped := [":type", directivePrefix ++ "bind:type", directivePrefix ++ "if",
    directivePrefix ++ "else", directivePrefix ++ "else-if"]
  let kept := el.pending.filter fun a => !stripped.contains a.name
  [{ attrs := kept ++ [{ name := "type", value := "checkbox" }],
     condition := some (guarded "checkbox") },
   { attrs := kept ++ [{ name := "type", value := "radio" }], condition := some (guarded "radio") },
   { attrs := kept ++ [{ name := ":type", value := type }], condition }]

def chainLink (directivePrefix : String) (el : Element) : ChainLink :=
  if el.hasAttr (directivePrefix ++ "else") then .otherwise
  else
    match el.attr? (directivePrefix ++ "else-if") with
    | some exp => .elseIf exp
    | none => .none

def expandInputType? (directivePrefix : String) (el : Element) : Option Expansion :=
  if el.tag ≠ "input" ∨ ¬ el.hasAttr (directivePrefix ++ "model") then none
  else
    (computedType? directivePrefix el).map fun type =>
      { branches := typeBranches directivePrefix type el, link := chainLink directivePrefix el }

def inputTypeModule : Module where
  expand s el := pure (expandInputType? s.directivePrefix el)

end TemplateCompiler.Web
