import TemplateCompiler.Template.Element

/-!
# Generated code

Code as the generator builds it: source text with its structure still visible where that matters,
namely which element a piece belongs to, where hoisted bodies are used, what is shown under a
condition, and which pieces run inside a callback. `Code.render` is the text of it.
-/

namespace TemplateCompiler

def braced (s : String) : String := "\x7b" ++ s ++ "\x7d"

/-- A piece of generated code. -/
inductive Code where
  | text (source : String)
  | append (first second : Code)
  /-- What is emitted for an element itself, inside whatever wraps it. -/
  | element (id : NodeId) (code : Code)
  /-- The use of the hoisted body `index`, which was made for the element `id`. -/
  | hoisted (id : NodeId) (index : Nat) (inLoop : Bool)
  /-- The list of an element `id` with a loop, rendered by calling back for each item. -/
  | loop (id : NodeId) (source params : String) (body : Code)
  /-- What is shown under a condition, and what is tried or shown otherwise. The condition is that
  of the element `block` in the chain that the element `chain` starts. -/
  | condition (chain block : NodeId) (exp : String) (shown otherwise : Code)
  /-- A node that is rendered once for each key of the loop around it. -/
  | once (body : Code) (number : Nat) (key : String)
  /-- The content of a scoped slot, which is the element `id`, called with its scope. -/
  | scopedSlot (id : NodeId) (key scope : String) (body : Code)
  /-- A template of its own with its own hoisted bodies. -/
  | inlineTemplate (body : Code) (bodies : List Code)
  deriving Inhabited

namespace Code

instance : Append Code := ⟨append⟩

instance : Coe String Code := ⟨text⟩

/-- A function body that returns the value of an expression in the scope of the component. -/
def returning (expression : String) : String := "with(this)" ++ braced ("return " ++ expression)

mutual

def render : Code → String
  | .text source => source
  | .append first second => first.render ++ second.render
  | .element _ code => code.render
  | .hoisted _ index inLoop => "_m(" ++ index.repr ++ (if inLoop then ",true" else "") ++ ")"
  | .loop _ source params body =>
    "_l((" ++ source ++ "),function(" ++ params ++ ")" ++ braced ("return " ++ body.render) ++ ")"
  | .condition _ _ exp shown otherwise =>
    "(" ++ exp ++ ")?" ++ shown.render ++ ":" ++ otherwise.render
  | .once body number key => "_o(" ++ body.render ++ "," ++ number.repr ++ "," ++ key ++ ")"
  | .scopedSlot _ key scope body =>
    braced ("key:" ++ key ++ ",fn:function(" ++ scope ++ ")" ++ braced ("return " ++ body.render))
  | .inlineTemplate body bodies =>
    "inlineTemplate:" ++
      braced ("render:function()" ++ braced (returning body.render) ++ ",staticRenderFns:[" ++
        String.intercalate "," (renderFunctions bodies) ++ "]")

/-- The functions that return the values of hoisted bodies. -/
def renderFunctions : List Code → List String
  | [] => []
  | body :: rest => ("function()" ++ braced (returning body.render)) :: renderFunctions rest

end

/-- The text of a function body that returns the value of the code. -/
def renderBody (code : Code) : String := returning code.render

/-- Pieces of code with a text between them. -/
def join (separator : String) : List Code → Code
  | [] => .text ""
  | [code] => code
  | code :: rest => code ++ (separator : Code) ++ join separator rest

end Code

end TemplateCompiler
