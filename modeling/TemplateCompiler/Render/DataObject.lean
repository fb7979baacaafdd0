import TemplateCompiler.Extension.Basic
import TemplateCompiler.Render.ListenerCode

/-!
# Data objects

The object that tells the runtime about an element: its directives, key, reference, attributes,
properties and listeners, what the modules add, and its slots.
-/

namespace TemplateCompiler

namespace DataObject

def bindingKey (b : Binding) : String :=
  if b.dynamic then "[" ++ b.name ++ "]" else Text.literal b.name

def bindingEntries (bindings : List Binding) : String :=
  String.intercalate ","
    (bindings.map fun b => bindingKey b ++ ":" ++ Text.escapeSeparators b.value)

def directiveValue : Option String → String
  | some value => ",value:(" ++ value ++ "),expression:" ++ Text.literal value
  | none => ""

def directiveArgument : Option Argument → String
  | some (.fixed name) => ",arg:" ++ Text.literal name
  | some (.computed code) => ",arg:" ++ code
  | none => ""

def directiveModifiers (modifiers : List String) : String :=
  if modifiers.isEmpty then ""
  else
    ",modifiers:" ++
      (Json.object (modifiers.foldl (fun fields m => upsert fields m (Json.bool true)) [])).compact

def directiveCode (d : Directive) : String :=
  braced ("name:" ++ Text.literal d.name ++ ",rawName:" ++ Text.literal d.rawName ++
    directiveValue d.value ++ directiveArgument d.argument ++ directiveModifiers d.modifiers)

def directivesEntry (el : Element) : String :=
  let applied := el.directives.filter (·.needsRuntime)
  if applied.isEmpty then ""
  else "directives:[" ++ String.intercalate "," (applied.map directiveCode) ++ "],"

def refEntry (el : Element) : String :=
  match el.ref with
  | some ref => "ref:" ++ ref ++ "," ++ (if el.refInLoop then "refInFor:true," else "")
  | none => ""

/-- The entries that come before those of the modules, each with a comma after it. -/
def leadingEntries (el : Element) : String :=
  directivesEntry el ++ (el.key.elim "" fun key => "key:" ++ key ++ ",") ++ refEntry el ++
    (if el.pre then "pre:true," else "") ++
    (if el.attrs.isEmpty then "" else "attrs:" ++ braced (bindingEntries el.attrs) ++ ",") ++
    (if el.props.isEmpty then "" else bindingEntries el.props ++ ",")

def moduleEntries (el : Element) : List Module → Except HookFailure String
  | [] => .ok ""
  | m :: rest => do
    let first ← m.data el
    let others ← moduleEntries el rest
    return first ++ others

/-- The entries for the listeners and the slot that an element is meant for. -/
def trailingEntries (el : Element) : String :=
  (if el.listeners.isEmpty then "" else ListenerCode.entries el.listeners) ++
    match el.slotTarget with
    | some target => if el.slotScope.isNone then "slot:" ++ target ++ "," else ""
    | none => ""

def ownEntries (modules : List Module) (el : Element) : Except HookFailure String := do
  let extended ← moduleEntries el modules
  return leadingEntries el ++ extended ++ trailingEntries el

/-- A text without a comma at its end. -/
def dropComma (s : String) : String :=
  match s.toList.reverse with
  | ',' :: rest => .ofList rest.reverse
  | _ => s

/-- The object with an element's own entries followed by those for what is inside it. -/
def object (own : String) : List Code → Code
  | [] => braced (dropComma own)
  | inner => ("\x7b" ++ own : String) ++ Code.join "," inner ++ ("\x7d" : Code)

/-- The object merged with an object that is bound as a whole and with an object of listeners. -/
def merged (el : Element) (data : Code) : Code :=
  let data :=
    match el.boundObject with
    | some b =>
      ("_b(" : Code) ++ data ++
        (",'" ++ el.tag ++ "'," ++ b.value ++ "," ++ (if b.isProp then "true" else "false") ++
          (if b.isSync then ",true" else "") ++ ")" : String)
    | none => data
  match el.boundListeners with
  | some listeners => ("_g(" : Code) ++ data ++ ("," ++ listeners ++ ")" : String)
  | none => data

end DataObject

end TemplateCompiler
