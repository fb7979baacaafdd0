import TemplateCompiler.Data.Dict
import TemplateCompiler.Data.Json
import TemplateCompiler.Expression.Interpolation
import TemplateCompiler.Expression.LoopHead
import TemplateCompiler.Markup.Basic
import TemplateCompiler.Markup.TagTable
import TemplateCompiler.Template.Listener

/-!
# Elements

An element of a template: the attributes it was written with, and what they mean. Attributes are
*pending* until something takes them; those still pending at the end become plain attributes,
bindings, listeners and directives. The source dictionary keeps every attribute as written.
-/

namespace TemplateCompiler

abbrev NodeId := Nat

/-- A name with the code of its value. A dynamic name is an expression. -/
structure Binding where
  name : String
  value : String
  dynamic : Bool := false
  deriving DecidableEq, Inhabited

/-- The argument of a directive: a fixed name, or an expression that computes it. -/
inductive Argument where
  | fixed (name : String)
  | computed (code : String)
  deriving DecidableEq, Inhabited

/-- A directive on an element. -/
structure Directive where
  name : String
  rawName : String
  value : Option String := none
  argument : Option Argument := none
  modifiers : List String := []
  /-- Whether the directive is also applied when the template runs. -/
  needsRuntime : Bool := false
  span : Span := {}
  deriving DecidableEq, Inhabited

def Directive.hasModifier (d : Directive) (name : String) : Bool := d.modifiers.contains name

/-- One branch of a conditional: its condition, none for a final `else`, and the element shown. -/
structure Condition where
  exp : Option String
  block : NodeId
  deriving DecidableEq, Inhabited

/-- An object whose entries are all bound to an element. -/
structure BoundObject where
  value : String
  isProp : Bool := false
  isSync : Bool := false
  deriving DecidableEq, Inhabited

/-- What is known about an element that never changes. -/
structure StaticMarks where
  /-- The element and all inside it render the same every time. -/
  isStatic : Bool := false
  /-- The element is rendered once, in a body of its own. -/
  root : Bool := false
  /-- The element stands inside a loop. -/
  inLoop : Bool := false
  deriving DecidableEq, Inhabited

/-- An element of a template. -/
structure Element where
  tag : String := ""
  /-- The attributes not yet taken, in source order. -/
  pending : List Attr := []
  /-- The last written value of every attribute. -/
  source : Dict String := {}
  children : List NodeId := []
  ns : Option Namespace := none
  attrs : List Binding := []
  props : List Binding := []
  listeners : List Listener := []
  directives : List Directive := []
  hasBindings : Bool := false
  /-- The element needs no data object. -/
  plain : Bool := false
  /-- The element and its content are taken as written. -/
  pre : Bool := false
  /-- The element must not be in a template. -/
  forbidden : Bool := false
  loop : Option LoopHead := none
  ifExp : Option String := none
  elseIf : Option String := none
  isElse : Bool := false
  /-- The branches of the conditional that the element starts; the first is the element itself. -/
  conditions : List Condition := []
  once : Bool := false
  key : Option String := none
  ref : Option String := none
  refInLoop : Bool := false
  slotName : Option String := none
  slotTarget : Option String := none
  slotScope : Option String := none
  scopedSlots : List (String × NodeId) := []
  /-- The component to use in place of the tag. -/
  component : Option String := none
  inlineTemplate : Bool := false
  staticClass : Option String := none
  classBinding : Option String := none
  staticStyle : Option String := none
  styleBinding : Option String := none
  /-- An object bound as a whole. -/
  boundObject : Option BoundObject := none
  /-- An object of listeners. -/
  boundListeners : Option String := none
  /-- What extensions have attached. -/
  extra : Dict Json := {}
  marks : StaticMarks := {}
  span : Span := {}
  /-- The attributes have been given their meaning. -/
  processed : Bool := false
  deriving Inhabited

namespace Element

def ofTag (tag : String) (attrs : List Attr) : Element :=
  { tag, pending := attrs, source := .ofList (attrs.map fun a => (a.name, a.value)) }

def attr? (el : Element) (name : String) : Option String := el.source.get? name

def hasAttr (el : Element) (name : String) : Bool := el.source.contains name

/-- Takes an attribute: its value, and the element where it is no longer pending. -/
def take (el : Element) (name : String) : Option String × Element :=
  match el.attr? name with
  | some value => (some value, { el with pending := el.pending.eraseP (·.name = name) })
  | none => (none, el)

/-- Takes an attribute and forgets that it was written. -/
def takeEntirely (el : Element) (name : String) : Option String × Element :=
  let taken := el.take name
  (taken.1, { taken.2 with source := taken.2.source.erase name })

/-- Takes the bound value of an attribute, written `:name` or with the binding directive. -/
def takeBound (el : Element) (name directivePrefix : String) : Option String × Element :=
  match el.take (":" ++ name) with
  | (some value, el) => (some (FilterChain.parse value), el)
  | (none, el) =>
    let taken := el.take (directivePrefix ++ "bind:" ++ name)
    (taken.1.map FilterChain.parse, taken.2)

/-- Takes the value of an attribute as code: bound, or else the literal of a plain one. -/
def takeValue (el : Element) (name directivePrefix : String) : Option String × Element :=
  match el.takeBound name directivePrefix with
  | (some value, el) => (some value, el)
  | (none, el) =>
    let taken := el.take name
    (taken.1.map Text.literal, taken.2)

/-- Adds an attribute as if it had been written last. -/
def addRaw (el : Element) (name value : String) : Element :=
  { el with source := el.source.insert name value, pending := el.pending ++ [{ name, value }] }

def addAttr (el : Element) (name value : String) (dynamic : Bool := false) : Element :=
  { el with attrs := el.attrs ++ [{ name, value, dynamic }], plain := false }

def addProp (el : Element) (name value : String) (dynamic : Bool := false) : Element :=
  { el with props := el.props ++ [{ name, value, dynamic }], plain := false }

def addDirective (el : Element) (directive : Directive) : Element :=
  { el with directives := el.directives ++ [directive], plain := false }

def addHandler (el : Element) (name value : String) (modifiers : Option (List String) := none)
    (important dynamic : Bool := false) : Element :=
  let (key, modifiers) := ListenerKey.ofDeclared name modifiers dynamic
  { el with
    listeners :=
      TemplateCompiler.addHandler key { value := Text.trim value, modifiers } important el.listeners
    plain := false }

end Element

end TemplateCompiler
