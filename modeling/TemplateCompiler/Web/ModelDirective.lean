import TemplateCompiler.Expression.ModelPath
import TemplateCompiler.Extension.Basic

/-!
# Two-way binding

The directive that binds a form control or a component to a path, in both directions. A form control
gets a property and a listener and is also known to the directive at run time; a component only gets
the property and the listener.
-/

namespace TemplateCompiler.Web

def asNumber (number : Bool) (code : String) : String :=
  if number then "_n(" ++ code ++ ")" else code

/-- Binds a component: a `value` property, and a listener for its `change` event. -/
def bindComponent (el : Element) (value : String) (trim number : Bool) : Element :=
  let received :=
    if trim then "(typeof $$v === 'string'? $$v.trim(): $$v)" else "$$v"
  let assigned := ModelPath.assignment value (asNumber number received)
  (el.addProp "value" ("(" ++ value ++ ")")).addHandler "change"
    ("function ($$v) " ++ braced assigned) none true

/-- Binds a checkbox, to a flag or to the presence of its value in a list. -/
def bindCheckbox (s : Settings) (el : Element) (value : String) (number : Bool) : Element :=
  let (own, el) := el.takeValue "value" s.directivePrefix
  let (whenTrue, el) := el.takeValue "true-value" s.directivePrefix
  let (whenFalse, el) := el.takeValue "false-value" s.directivePrefix
  let own := own.getD "null"
  let whenTrue := whenTrue.getD "true"
  let whenFalse := whenFalse.getD "false"
  let flag :=
    if whenTrue = "true" then ":(" ++ value ++ ")"
    else ":_q(" ++ value ++ "," ++ whenTrue ++ ")"
  let checked :=
    "Array.isArray(" ++ value ++ ")?_i(" ++ value ++ "," ++ own ++ ")>-1" ++ flag
  let add := ModelPath.assignment value "$$a.concat([$$v])"
  let remove := ModelPath.assignment value "$$a.slice(0,$$i).concat($$a.slice($$i+1))"
  let toggle :=
    "if($$el.checked)" ++ braced ("$$i<0&&(" ++ add ++ ")") ++ "else" ++
      braced ("$$i>-1&&(" ++ remove ++ ")")
  let code :=
    "var $$a=" ++ value ++ ",$$el=$event.target,$$c=$$el.checked?(" ++ whenTrue ++ "):(" ++
      whenFalse ++ ");if(Array.isArray($$a))" ++
      braced ("var $$v=" ++ asNumber number own ++ ",$$i=_i($$a,$$v);" ++ toggle) ++ "else" ++
      braced (ModelPath.assignment value "$$c")
  (el.addProp "checked" checked).addHandler "change" code none true

/-- Binds a radio button, which is checked when its value is the bound one. -/
def bindRadio (s : Settings) (el : Element) (value : String) (number : Bool) : Element :=
  let (own, el) := el.takeValue "value" s.directivePrefix
  let own := asNumber number (own.getD "null")
  (el.addProp "checked" ("_q(" ++ value ++ "," ++ own ++ ")")).addHandler "change"
    (ModelPath.assignment value own) none true

/-- Binds a selection: to the chosen value, or to the list of them if several may be chosen. -/
def bindSelect (el : Element) (value : String) (number : Bool) : Element :=
  let selected :=
    "Array.prototype.filter.call($event.target.options,function(o)" ++
      braced "return o.selected" ++ ").map(function(o)" ++
      braced ("var val = \"_value\" in o ? o._value : o.value;return " ++ asNumber number "val") ++
      ")"
  let assigned :=
    ModelPath.assignment value "$event.target.multiple ? $$selectedVal : $$selectedVal[0]"
  el.addHandler "change" ("var $$selectedVal = " ++ selected ++ "; " ++ assigned) none true

/-- The binding of `value` that a text control has beside the two-way one. -/
def ownValueBinding? (s : Settings) (el : Element) : Option (String × String) :=
  let bound (name : String) : Option (String × String) := (el.attr? name).map fun v => (name, v)
  (bound ":value").or (bound (s.directive "bind:value"))

def bindText (s : Settings) (el : Element) (dir : Directive) (value : String) : Noted Element := do
  let typeBound := el.hasAttr ":type" || el.hasAttr (s.directive "bind:type")
  if let some (binding, bound) := ownValueBinding? s el then
    unless typeBound do
      Noted.error (.valueConflict binding bound s.directivePrefix) dir.span
  let number := dir.hasModifier "number"
  let trim := dir.hasModifier "trim"
  let composing := !dir.hasModifier "lazy" && el.attr? "type" ≠ some "range"
  let typed := if trim then "$event.target.value.trim()" else "$event.target.value"
  let assigned := ModelPath.assignment value (asNumber number typed)
  let code := if composing then "if($event.target.composing)return;" ++ assigned else assigned
  let el := (el.addProp "value" ("(" ++ value ++ ")")).addHandler "change" code none true
  return if trim || number then el.addHandler "blur" "$forceUpdate()" else el

/-- Reports a file input, whose value cannot be set. -/
def reportFile (s : Settings) (el : Element) (dir : Directive) : Noted Unit :=
  if el.tag = "input" && el.attr? "type" = some "file" then
    Noted.error (.fileModel el.tag (dir.value.getD "") s.directivePrefix) dir.span
  else pure ()

/-- Binds an element both ways, as its kind asks for. -/
def bindControl (s : Settings) (el : Element) (dir : Directive) : Noted (Element × Bool) := do
  let value := dir.value.getD ""
  let number := dir.hasModifier "number"
  let trim := dir.hasModifier "trim"
  let type? := el.attr? "type"
  if el.component.isSome then return (bindComponent el value trim number, false)
  else if el.tag = "select" then return (bindSelect el value number, true)
  else if el.tag = "input" && type? = some "checkbox" then
    return (bindCheckbox s el value number, true)
  else if el.tag = "input" && type? = some "radio" then return (bindRadio s el value number, true)
  else if el.tag = "input" || el.tag = "textarea" then return (← bindText s el dir value, true)
  else if !s.tags.isReserved el.tag then return (bindComponent el value trim number, false)
  else
    Noted.error (.unsupportedModel el.tag value s.directivePrefix) dir.span
    return (el, true)

def bindModel (s : Settings) (el : Element) (dir : Directive) : Noted (Element × Bool) := do
  reportFile s el dir
  bindControl s el dir

def modelDirective : DirectiveHandler := fun s el dir => bindModel s el dir

end TemplateCompiler.Web
