import TemplateCompiler.Text.Blank

/-!
# Listeners

The event handlers of an element, grouped by what they listen to. Groups stand in the order of their
first handler, and adding a handler never loses one.
-/

namespace TemplateCompiler

/-- The code that runs on an event. The modifiers are there, and possibly none, when the handler was
declared with modifiers. -/
structure Handler where
  value : String
  modifiers : Option (List String) := none
  deriving DecidableEq, Inhabited

/-- What a listener listens to. A dynamic name is an expression. -/
structure ListenerKey where
  name : String
  dynamic : Bool := false
  capture : Bool := false
  once : Bool := false
  deriving DecidableEq, Inhabited

/-- The handlers of one event. -/
structure Listener where
  key : ListenerKey
  handlers : List Handler := []
  deriving DecidableEq, Inhabited

/-- The event that a mouse button other than the main one fires instead of a click. -/
def ListenerKey.renameClick (name instead : String) (dynamic : Bool) : String :=
  if dynamic then "(" ++ name ++ ")==='click'?'" ++ instead ++ "':(" ++ name ++ ")"
  else if name = "click" then instead
  else name

/-- What a handler listens to, and the modifiers that remain its own: clicks of the right and middle
button are events of their own, and `capture` and `once` belong to the listener. -/
def ListenerKey.ofDeclared (name : String) (modifiers : Option (List String)) (dynamic : Bool) :
    ListenerKey × Option (List String) :=
  match modifiers with
  | none => ({ name, dynamic }, none)
  | some mods =>
    let right := mods.contains "right"
    let name' :=
      if right then renameClick name "contextmenu" dynamic
      else if mods.contains "middle" then renameClick name "mouseup" dynamic
      else name
    let kept := if right && !dynamic && name = "click" then mods.filter (· ≠ "right") else mods
    ({ name := name', dynamic, capture := kept.contains "capture", once := kept.contains "once" },
      some (kept.filter fun m => m ≠ "capture" && m ≠ "once"))

def addHandler (key : ListenerKey) (handler : Handler) (important : Bool) :
    List Listener → List Listener
  | [] => [{ key, handlers := [handler] }]
  | l :: rest =>
    if l.key = key then
      { l with handlers := if important then handler :: l.handlers else l.handlers ++ [handler] } ::
        rest
    else l :: addHandler key handler important rest

end TemplateCompiler
