import TemplateCompiler.Extension.Basic

/-!
# Class attributes

Takes the plain and the bound class of an element and merges them into one entry of its data object.
-/

namespace TemplateCompiler.Web

/-- Takes the plain value of an attribute, with a tip if it holds an interpolation. -/
def takePlain (s : Settings) (name : String) (el : Element) : Noted (Option String × Element) := do
  let (value, el) := el.take name
  if let some text := value then
    if (Interpolation.parse? s.delimiters text).isSome then
      Noted.tip (.interpolatedAttribute name text (s.directive "bind") name) el.span
  return (value, el)

def keepClass (plain : Option String) (el : Element) : Element :=
  match plain with
  | some text => if text = "" then el else { el with staticClass := some (Text.literal text) }
  | none => el

def takeBoundClass (s : Settings) (el : Element) : Element :=
  match el.takeBound "class" s.directivePrefix with
  | (some code, el) => { el with classBinding := some code }
  | (none, el) => el

def takeClass (s : Settings) (el : Element) : Noted Element := do
  let plain ← takePlain s "class" el
  return takeBoundClass s (keepClass plain.1 plain.2)

def classData (el : Element) : String :=
  let key := if el.tag.toList.contains '-' then "class" else "className"
  match el.staticClass, el.classBinding with
  | some plain, some bound => key ++ ":_rc(" ++ bound ++ "," ++ plain ++ "),"
  | none, some bound => key ++ ":_rc(" ++ bound ++ "),"
  | some plain, none => key ++ ":" ++ plain ++ ","
  | none, none => ""

def classModule : Module where
  transform s el := takeClass s el
  data el := pure (classData el)

end TemplateCompiler.Web
