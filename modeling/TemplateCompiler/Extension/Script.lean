import TemplateCompiler.Extension.Basic

/-!
# Scripted extensions

Modules and directive handlers that are described by data: what they add to an element, what they
report, and where they fail.
-/

namespace TemplateCompiler

/-- The hooks of a module. -/
inductive Hook where
  | expand
  | transform
  | data
  | code
  deriving DecidableEq, Inhabited

def Hook.name : Hook → String
  | .expand => "pre_transform_node"
  | .transform => "transform_node"
  | .data => "gen_data"
  | .code => "transform_code"

/-- A branch of a scripted expansion. -/
structure BranchScript where
  /-- Whether the pending attributes of the element come first. -/
  keep : Bool := false
  attrs : List Attr := []
  condition : Option String := none

/-- A scripted expansion. -/
structure ExpansionScript where
  branches : List BranchScript := []
  link : ChainLink := .none

/-- What a scripted module does. -/
structure ModuleScript where
  /-- The only tag that the module looks at. -/
  only : Option String := none
  staticKeys : List String := []
  failIn : Option Hook := none
  expansion : Option ExpansionScript := none
  extra : List (String × Json) := []
  tip : Option String := none
  data : String := ""
  /-- Whether the attachments of an element are entries of its data object. -/
  extraData : Bool := false
  wrap : Option (String × String) := none

namespace ModuleScript

/-- Runs a hook, unless the module does not look at the element or fails in the hook. -/
def guarded {α : Type} (m : ModuleScript) (hook : Hook) (el : Element) (idle : α)
    (run : Except HookFailure α) : Except HookFailure α :=
  if m.only.any (· ≠ el.tag) then .ok idle
  else if m.failIn = some hook then .error ⟨hook.name, "boom"⟩
  else run

def expansionOf (e : ExpansionScript) (el : Element) : Expansion where
  branches := e.branches.map fun b =>
    { attrs := (if b.keep then el.pending else []) ++ b.attrs, condition := b.condition }
  link := e.link

/-- The entries that a script adds to the data object of an element. -/
def dataOf (m : ModuleScript) (el : Element) : String :=
  m.data ++
    if m.extraData then
      String.join (el.extra.entries.map fun e => e.1 ++ ":" ++ e.2.compact ++ ",")
    else ""

def attach (m : ModuleScript) (el : Element) : Element :=
  { el with extra := m.extra.foldl (fun d e => d.insert e.1 e.2) el.extra }

def toModule (m : ModuleScript) : Module where
  staticKeys := m.staticKeys
  expand _ el := m.guarded .expand el none (.ok (m.expansion.map (expansionOf · el)))
  transform _ el := do
    let (el, active) ← m.guarded .transform el (el, false) (.ok (m.attach el, true))
    match m.tip.filter fun _ => active with
    | some message => Noted.tip (.other message) el.span
    | none => pure ()
    return el
  data el := m.guarded .data el "" (.ok (m.dataOf el))
  code el code := m.guarded .code el code
    (.ok (m.wrap.elim code fun w => (w.1 : Code) ++ code ++ (w.2 : Code)))

end ModuleScript

/-- What a scripted directive handler does. -/
structure DirectiveScript where
  name : String
  fail : Option String := none
  attr : Option (String × String) := none
  prop : Option (String × String) := none
  handler : Option (String × String) := none
  important : Bool := false
  /-- The name of a copy of the directive to add. -/
  directive : Option String := none
  /-- The key under which the directive is attached. -/
  extra : Option String := none
  error : Option String := none
  runtime : Bool := false

namespace DirectiveScript

def attachment (dir : Directive) : Json :=
  .object [("value", dir.value.elim .null .string),
    ("modifiers", .array (dir.modifiers.map .string))]

def change (d : DirectiveScript) (el : Element) (dir : Directive) : Element :=
  let el := d.attr.elim el fun a => el.addAttr a.1 a.2
  let el := d.prop.elim el fun p => el.addProp p.1 p.2
  let el := d.handler.elim el fun h =>
    el.addHandler h.1 h.2 (some dir.modifiers) d.important
  let el := d.directive.elim el fun name => el.addDirective { dir with name, rawName := name }
  d.extra.elim el fun key => { el with extra := el.extra.insert key (attachment dir) }

def toHandler (d : DirectiveScript) : DirectiveHandler := fun _ el dir => do
  match d.fail with
  | some cause => throw ⟨dir.name, cause⟩
  | none => pure ()
  match d.error with
  | some message => Noted.error (.other message) dir.span
  | none => pure ()
  return (d.change el dir, d.runtime)

end DirectiveScript

end TemplateCompiler
