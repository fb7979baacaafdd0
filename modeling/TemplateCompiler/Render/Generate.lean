import TemplateCompiler.Render.DataObject
import TemplateCompiler.Render.Wrapper
import TemplateCompiler.Template.Outline

/-!
# Code generation

Turns a template tree into the code that renders it. Each element is entered from its parent, from
a conditional chain or from the scoped slots of a component, is given its wrappers, and is then
written as a call of the runtime. The generator follows the outline of the tree, so it ends on every
tree.
-/

namespace TemplateCompiler

/-- The code of a template: its main body and the bodies hoisted out of it. -/
structure Bodies where
  main : Code
  hoisted : List Code := []
  deriving Inhabited

/-- Where the generator comes from when it enters an element. -/
inductive Entry where
  | child
  | branch
  | slot (key : String)
  deriving DecidableEq, Inhabited

namespace Gen

/-- Children as one value: a lone child as it is, several as a list. -/
def childrenValue? : List Code → Option Code
  | [] => none
  | [only] => some only
  | children => some (("[" : Code) ++ Code.join "," children ++ ("]" : Code))

/-- Whether an element has a single child that gives a flat list by itself. -/
def hasLoneLoop (a : Ast) (el : Element) : Bool :=
  match el.children with
  | [only] => (a.element? only).any fun c => c.loop.isSome && c.tag ≠ "template" && c.tag ≠ "slot"
  | _ => false

/-- Children as the last arguments of a call, with the normalization they need. -/
def childrenArguments (tags : TagTable) (a : Ast) (el : Element) (children : List Code) :
    List Code :=
  if children.isEmpty then []
  else if hasLoneLoop a el then children
  else [Code.join "," children ++ ((a.normalization tags el.children).suffix : Code)]

def slotAttributes (el : Element) : String :=
  braced (String.intercalate ","
    (el.attrs.map fun a => Text.literal (Text.camelize a.name) ++ ":" ++ a.value))

/-- The outlet of a slot. Arguments that are left out before others are null. -/
def slotCode (el : Element) (fallback : Option Code) : Code :=
  let attributes : Option Code := if el.attrs.isEmpty then none else some (slotAttributes el)
  let object : Option Code := el.boundObject.map fun b => .text b.value
  let arguments : List Code :=
    match object, attributes, fallback with
    | some o, _, _ => [fallback.getD "null", attributes.getD "null", o]
    | none, some a, _ => [fallback.getD "null", a]
    | none, none, some f => [f]
    | none, none, none => []
  let name : Code := el.slotName.getD "\"default\""
  ("_t(" : Code) ++ Code.join "," (name :: arguments) ++ (")" : Code)

def slotEntry (slots : List Code) : Code :=
  ("scopedSlots:_u([" : Code) ++ Code.join "," slots ++ ("])" : Code)

def tagEntries (el : Element) : List Code :=
  if el.component.isSome then [.text ("tag:" ++ Text.literal el.tag)] else []

def onlyIf (wanted : Bool) (step : Gen (List Code)) : Gen (List Code) :=
  if wanted then step else pure []

/-- The data object of an element, given the code of its scoped slots and of its inline template. -/
def dataCode (o : Options) (el : Element) (slots inline : Gen (List Code)) : Gen Code := do
  let own ← DataObject.ownEntries o.modules el
  let slotEntries ← onlyIf (!el.scopedSlots.isEmpty) (do return [slotEntry (← slots)])
  let inlineEntries ← onlyIf el.inlineTemplate inline
  return DataObject.merged el
    (DataObject.object own (slotEntries ++ tagEntries el ++ inlineEntries))

def changed (el : Element) (code : Code) : List Module → Except HookFailure Code
  | [] => .ok code
  | m :: rest => do changed el (← m.code el code) rest

/-- The call that makes an element. A plain element needs no data object. -/
def callCode (o : Options) (a : Ast) (el : Element) (children slots inline : Gen (List Code)) :
    Gen Code := do
  let data ← onlyIf (!(el.plain && el.component.isNone)) (do return [← dataCode o el slots inline])
  let arguments ←
    onlyIf (!el.inlineTemplate) (do return childrenArguments o.tags a el (← children))
  let callee : Code := el.component.getD ("'" ++ el.tag ++ "'")
  changed el
    (("_c(" : Code) ++ Code.join "," (callee :: data ++ arguments) ++ (")" : Code)) o.modules

def bareCode (o : Options) (a : Ast) (id : NodeId) (el : Element)
    (children slots inline : Gen (List Code)) : Gen Code := do
  if el.tag = "template" && el.slotTarget.isNone then
    let children ← children
    return .element id ((childrenValue? children).getD "_e()")
  else if el.tag = "slot" then
    let children ← children
    return .element id (slotCode el (childrenValue? children))
  else
    let code ← callCode o a el children slots inline
    return .element id code

/-- What a scoped slot shows: an element, or the content of a template under its condition. -/
def slotBody (id : NodeId) (el : Element) (children : Gen (List Code)) (element : Gen Code) :
    Gen Code := do
  if el.tag = "template" then
    let children ← children
    let value : Code := .element id ((childrenValue? children).getD "undefined")
    return el.ifExp.elim value fun exp => .condition id id exp value "undefined"
  else element

/-- The content of a scoped slot, inside its loop if it has one. -/
def scopedSlot (key : String) (id : NodeId) (el : Element) (children : Gen (List Code))
    (element : Gen Code) : Gen Code :=
  looped id el (fun _ => pure ()) do
    let body ← slotBody id el children element
    return .scopedSlot id key (el.slotScope.getD "") body

def startsWithElement (a : Ast) (el : Element) : Bool := (el.children.head?.bind a.element?).isSome

/-- Reports the content of an inline template unless it is one element. -/
def reportInline (a : Ast) (el : Element) : Noted Unit :=
  if el.children.length = 1 && startsWithElement a el then pure ()
  else Noted.error .inlineTemplateContent el.span

def inlineTemplate (a : Ast) (el : Element) (first : Gen Code) : Gen (List Code) := do
  reportInline a el
  onlyIf (startsWithElement a el) do
    let (code, bodies) ← isolated first
    return [.inlineTemplate code bodies]

mutual

def nodeCode (o : Options) (a : Ast) (entry : Entry) : Outline → Gen Code
  | .node id children slots branches =>
    match a.kind? id with
    | none => pure ""
    | some (.text content tokens _) =>
      pure (.text (tokens.elim (Text.literal content) Interpolation.toExpression))
    | some (.comment content _) => pure (.text ("_e(" ++ Text.literal content ++ ")"))
    | some (.element el) =>
      let childCodes := nodeCodes o a children
      let code :=
        bareCode o a id el childCodes (slotCodes o a el.scopedSlots slots)
          (inlineTemplate a el (firstCode o a children))
      let chain :=
        chainCode o a id (branchWrapped o.tags a id el code code) el.conditions branches
      match entry with
      | .child => wrapped o.tags a id el chain code
      | .branch => branchWrapped o.tags a id el chain code
      | .slot key => scopedSlot key id el childCodes (wrapped o.tags a id el chain code)

def nodeCodes (o : Options) (a : Ast) : List Outline → Gen (List Code)
  | [] => pure []
  | first :: rest => do
    let code ← nodeCode o a .child first
    let codes ← nodeCodes o a rest
    return code :: codes

def firstCode (o : Options) (a : Ast) : List Outline → Gen Code
  | [] => pure ""
  | first :: _ => nodeCode o a .child first

def slotCodes (o : Options) (a : Ast) : List (String × NodeId) → List Outline → Gen (List Code)
  | slot :: slots, outline :: outlines => do
    let code ← nodeCode o a (.slot slot.1) outline
    let codes ← slotCodes o a slots outlines
    return code :: codes
  | _, _ => pure []

/-- The rest of the conditional chain of an element, whose own code is `self`. -/
def chainCode (o : Options) (a : Ast) (id : NodeId) (self : Gen Code) :
    List Condition → List Outline → Gen Code
  | condition :: conditions, branch :: branches => do
    let code ← (if condition.block = id then self else nodeCode o a .branch branch)
    match condition.exp with
    | some exp =>
      let rest ← chainCode o a id self conditions branches
      return .condition id condition.block exp code rest
    | none => return code
  | _, _ => pure "_e()"

end

end Gen

def generate (o : Options) (a : Ast) : Outcome Bodies :=
  match a.root with
  | some root => do
    let (main, state) ← (Gen.nodeCode o a .child (a.outline root)).run {}
    return { main, hoisted := state.hoisted }
  | none => pure { main := "_c(\"div\")" }

end TemplateCompiler
