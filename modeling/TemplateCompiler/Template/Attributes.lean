import TemplateCompiler.Expression.ModelPath
import TemplateCompiler.Template.Structure

/-!
# The meaning of attributes

What the attributes of an element say once its content is known: its key, reference, slot and
component, then bindings, listeners and directives. Extensions run in between: modules before the
bindings, and directive handlers last.
-/

namespace TemplateCompiler.Element

open Text

/-! ## Key, reference, slot and component -/

def takeKey (s : Settings) (el : Element) : Noted Element :=
  match el.takeValue "key" s.directivePrefix with
  | (some key, el) => do
    if el.tag = "template" then Noted.error .keyedTemplate el.span
    return { el with key := some key }
  | (none, el) => pure el

def takeRef (s : Settings) (above : List Element) (el : Element) : Element :=
  match el.takeValue "ref" s.directivePrefix with
  | (some ref, el) =>
    { el with ref := some ref, refInLoop := el.loop.isSome || above.any (·.loop.isSome) }
  | (none, el) => el

def takeOutlet (s : Settings) (el : Element) : Noted Element := do
  let (name, el) := el.takeValue "name" s.directivePrefix
  if el.key.isSome then Noted.error .keyedSlot el.span
  return { el with slotName := name }

def takeScope (s : Settings) (el : Element) : Noted Element := do
  if el.tag = "template" then
    match el.take "scope" with
    | (some scope, el) =>
      Noted.tip .scopeDeprecated el.span
      return { el with slotScope := some scope }
    | (none, el) =>
      let (scope, el) := el.take "slot-scope"
      return { el with slotScope := scope }
  else
    let (scope, el) := el.take "slot-scope"
    if scope.isSome && el.hasAttr (s.directive "for") then
      Noted.tip (.ambiguousSlotScope (s.directive "for") el.tag) el.span
    return { el with slotScope := scope }

def takeTarget (s : Settings) (el : Element) : Element :=
  match el.takeValue "slot" s.directivePrefix with
  | (some target, el) =>
    let target := if target = "\"\"" then "\"default\"" else target
    let el :=
      if el.tag ≠ "template" ∧ el.slotScope.isNone then el.addAttr "slot" target else el
    { el with slotTarget := some target }
  | (none, el) => el

def takeSlot (s : Settings) (el : Element) : Noted Element := do
  if el.tag = "slot" then el.takeOutlet s
  else
    let el ← el.takeScope s
    return el.takeTarget s

def takeComponent (s : Settings) (el : Element) : Element :=
  let (component, el) := el.takeValue "is" s.directivePrefix
  let el := match component with
    | some code => { el with component := some code }
    | none => el
  let (inlined, el) := el.takeFlag "inline-template"
  if inlined then { el with inlineTemplate := true } else el

/-! ## Bindings, listeners and directives -/

/-- The name of a directive and its modifiers. Dots inside a bracketed argument do not count. -/
def splitModifiers (rawName : List Char) : List Char × Option (List String) :=
  let (front, back) := match cutLast? ']' rawName with
    | some (before, after) => (before ++ [']'], after)
    | none => ([], rawName)
  match cut? ['.'] back with
  | none => (rawName, none)
  | some (name, modifiers) =>
    let pieces := splitAt '.' modifiers
    (front ++ name,
      some (((pieces.1 :: pieces.2).filter fun p => !p.isEmpty).map String.ofList))

def computedArgument? (name : List Char) : Option (List Char) :=
  if name.head? = some '[' ∧ name.tail.getLast? = some ']' then some name.tail.dropLast else none

/-- The name after a mark such as `:`, or after the directive it is short for. -/
def stripEither? (short : Char) (long name : List Char) : Option (List Char) :=
  (List.isPrefixOf? [short] name).or (long.isPrefixOf? name)

/-- The name that a fixed binding is made under, as its modifiers say. -/
def boundName (modifiers : List String) (name : String) : String :=
  let name :=
    if modifiers.contains "prop" then
      let camel := camelize name
      if camel = "innerHtml" then "innerHTML" else camel
    else name
  if modifiers.contains "camel" then camelize name else name

/-- Adds the listener that writes a bound value back. -/
def addSync (el : Element) (name value : String) (dynamic : Bool) : Element :=
  let sync := ModelPath.assignment value "$event"
  if dynamic then el.addHandler ("\"update:\"+(" ++ name ++ ")") sync none false true
  else el.addHandler ("update:" ++ camelize name) sync

def addBinding (s : Settings) (el : Element) (attr : Attr) (name : List Char)
    (modifiers : List String) : Noted Element :=
  if isBlank attr.value then do
    Noted.error (.valueMissing attr.name) attr.span
    return el
  else
    let value := FilterChain.parse attr.value
    let argument := computedArgument? name
    let dynamic := argument.isSome
    let name := match argument with
      | some code => String.ofList code
      | none => boundName modifiers (String.ofList name)
    let el := if modifiers.contains "sync" then el.addSync name value dynamic else el
    let asProp := modifiers.contains "prop" ||
      (el.component.isNone && s.mustUseProp el.tag (el.attr? "type") name)
    pure (if asProp then el.addProp name value dynamic else el.addAttr name value dynamic)

def dropModifier (attr : Attr) (ignored : String) (modifiers : List String) :
    Noted (List String) := do
  if modifiers.contains ignored then
    Noted.tip (.ignoredModifier ignored attr.name) attr.span
  return modifiers.filter (· ≠ ignored)

def listenerModifiers (attr : Attr) : Option (List String) → Noted (Option (List String))
  | none => pure none
  | some modifiers => do
    let modifiers ← dropModifier attr "native" modifiers
    let modifiers ← dropModifier attr "passive" modifiers
    return some modifiers

def addListener (el : Element) (attr : Attr) (name : List Char)
    (modifiers : Option (List String)) : Noted Element := do
  let modifiers ← listenerModifiers attr modifiers
  match computedArgument? name with
  | some code => return el.addHandler (String.ofList code) attr.value modifiers false true
  | none => return el.addHandler (String.ofList name) attr.value modifiers

/-- A directive as written: its name and argument follow the prefix. -/
def directiveOf (s : Settings) (attr : Attr) (name : List Char) (modifiers : List String) :
    Directive :=
  let bare := (s.directivePrefix.toList.isPrefixOf? name).getD name
  let (dirName, argument) := match cut? [':'] bare with
    | some (dirName, argument) =>
      (dirName, some (match computedArgument? argument with
        | some code => Argument.computed (String.ofList code)
        | none => Argument.fixed (String.ofList argument)))
    | none => (bare, none)
  { name := String.ofList dirName
    rawName := attr.name
    value := if attr.value = "" then none else some attr.value
    argument
    modifiers
    needsRuntime := true
    span := attr.span }

def isLoopName (above : List Element) (el : Element) (value : String) : Bool :=
  (el :: above).any fun e => e.loop.any (·.binder = value)

/-- Adds a directive. A two-way binding needs a value, which should not be the name of a loop. -/
def addWrittenDirective (s : Settings) (above : List Element) (el : Element) (attr : Attr)
    (directive : Directive) : Noted Element := do
  if directive.name = "model" then
    if isBlank attr.value then
      Noted.error (.valueMissing attr.name) attr.span
      return el
    if isLoopName above el attr.value then
      Noted.error (.modelOfLoopName el.tag attr.value (s.directive "model") (s.directive "for"))
        attr.span
  return el.addDirective directive

def addPlain (s : Settings) (el : Element) (attr : Attr) : Noted Element := do
  if (Interpolation.parse? s.delimiters attr.value).isSome then
    Noted.tip (.interpolatedAttribute attr.name attr.value (s.directive "bind") "id") attr.span
  let el := el.addAttr attr.name (literal attr.value)
  return if el.component.isNone && attr.name = "muted" &&
      s.mustUseProp el.tag (el.attr? "type") "muted" then el.addProp "muted" "true"
    else el

/-- Whether an attribute is a directive or the short form of one. -/
def isDirectiveName (s : Settings) (name : List Char) : Bool :=
  s.directivePrefix.toList.isPrefixOf name || name.head? = some '@' || name.head? = some ':'

def addAttribute (s : Settings) (above : List Element) (el : Element) (attr : Attr) :
    Noted Element :=
  let rawName := attr.name.toList
  if !isDirectiveName s rawName then el.addPlain s attr
  else
    let el := { el with hasBindings := true }
    let (name, modifiers) := splitModifiers rawName
    match stripEither? ':' (s.directive "bind:").toList name with
    | some name => el.addBinding s attr name (modifiers.getD [])
    | none =>
      match stripEither? '@' (s.directive "on:").toList name with
      | some name => el.addListener attr name modifiers
      | none => el.addWrittenDirective s above attr (directiveOf s attr name (modifiers.getD []))

def addAttributes (s : Settings) (above : List Element) : List Attr → Element → Noted Element
  | [], el => pure el
  | attr :: rest, el => do
    let el ← el.addAttribute s above attr
    addAttributes s above rest el

/-! ## Extensions -/

def transformAll (s : Settings) : List Module → Element → Outcome Element
  | [], el => pure el
  | m :: rest, el => do
    let el ← m.transform s el
    transformAll s rest el

def runHandler (o : Options) (el : Element) (directive : Directive) :
    Outcome (Element × Directive) :=
  match o.directives.get? directive.name with
  | some handler => do
    let (el, needsRuntime) ← handler o.toSettings el directive
    return (el, { directive with needsRuntime })
  | none => do
    Noted.tip (.unhandledDirective directive.rawName) directive.span
    return (el, { directive with needsRuntime := true })

def runHandlers (o : Options) : List Directive → Element → Outcome (Element × List Directive)
  | [], el => pure (el, [])
  | directive :: rest, el => do
    let (el, handled) ← el.runHandler o directive
    let (el, others) ← runHandlers o rest el
    return (el, handled :: others)

/-- Runs the handlers of all directives of an element. Directives that handlers add come last. -/
def handleDirectives (o : Options) (el : Element) : Outcome Element := do
  let (el, handled) ← runHandlers o el.directives { el with directives := [] }
  return { el with directives := handled ++ el.directives }

/-- Gives all attributes of an element their meaning; `above` are the elements around it. -/
def process (o : Options) (above : List Element) (el : Element) : Outcome Element := do
  let s := o.toSettings
  let el ← el.takeKey s
  let el :=
    { el with plain := el.key.isNone && el.scopedSlots.isEmpty && el.pending.isEmpty }
  let el := el.takeRef s above
  let el ← el.takeSlot s
  let el := el.takeComponent s
  let el ← transformAll s o.modules el
  let el ← addAttributes s above el.pending el
  let el ← el.handleDirectives o
  return { el with processed := true }

end TemplateCompiler.Element
