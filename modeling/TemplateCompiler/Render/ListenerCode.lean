import TemplateCompiler.Expression.HandlerShape
import TemplateCompiler.Render.Code
import TemplateCompiler.Text.Word

/-!
# Code of listeners

The entries of a data object that attach listeners. The modifiers of a handler become guards before
its code: first the keys, then system keys and mouse buttons, then what stops the event, each group
in the order its modifiers were written.
-/

namespace TemplateCompiler.ListenerCode

open Text

def keyCodes : List (String × String) := [
  ("esc", "27"), ("tab", "9"), ("enter", "13"), ("space", "32"), ("up", "38"), ("left", "37"),
  ("right", "39"), ("down", "40"), ("delete", "[8,46]")]

def keyNames : List (String × String) := [
  ("esc", "\"Escape\""), ("tab", "\"Tab\""), ("enter", "\"Enter\""), ("space", "\" \""),
  ("up", "[\"Up\",\"ArrowUp\"]"), ("left", "[\"Left\",\"ArrowLeft\"]"),
  ("right", "[\"Right\",\"ArrowRight\"]"), ("down", "[\"Down\",\"ArrowDown\"]"),
  ("delete", "[\"Backspace\",\"Delete\"]")]

def systemKeys : List String := ["ctrl", "shift", "alt", "meta"]

/-- Leaves a handler when a condition holds. -/
def guardOn (condition : String) : String := "if(" ++ condition ++ ")return null;"

/-- Leaves a handler unless the event comes from a mouse button or from no button at all. -/
def buttonGuard (button : String) : String :=
  guardOn ("'button' in $event && $event.button !== " ++ button)

/-- The guard of a modifier that asks for a system key or a mouse button. -/
def systemGuard? (modifier : String) : Option String :=
  if systemKeys.contains modifier then some (guardOn ("!$event." ++ modifier ++ "Key"))
  else if modifier = "left" then some (buttonGuard "0")
  else if modifier = "middle" then some (buttonGuard "1")
  else if modifier = "right" then some (buttonGuard "2")
  else none

/-- The statement of a modifier that stops the event. -/
def propagationGuard? (modifier : String) : Option String :=
  if modifier = "stop" then some "$event.stopPropagation();"
  else if modifier = "prevent" then some "$event.preventDefault();"
  else if modifier = "self" then some (guardOn "$event.target !== $event.currentTarget")
  else none

def keyTest (key : String) : String :=
  match (word? 10 key.toList).filter (· ≠ 0) with
  | some code => "$event.keyCode!==" ++ code.repr
  | none =>
    "_k($event.keyCode," ++ literal key ++ "," ++ (keyCodes.lookup key).getD "undefined" ++
      ",$event.key," ++ (keyNames.lookup key).getD "undefined" ++ ")"

def keyGuard (keys : List String) : String :=
  if keys.isEmpty then ""
  else guardOn ("!('button' in $event)&&" ++ String.intercalate "&&" (keys.map keyTest))

/-- Whether a modifier names a key to listen to. The arrow keys share their names with buttons. -/
def isKey (modifier : String) : Bool :=
  (propagationGuard? modifier).isNone &&
    if (systemGuard? modifier).isSome then (keyCodes.lookup modifier).isSome
    else modifier ≠ "exact"

/-- The guard against the system keys that are not among the modifiers. -/
def exactGuard (modifiers : List String) : String :=
  let others := systemKeys.filter (!modifiers.contains ·)
  if others.isEmpty then ""
  else guardOn (String.intercalate "||" (others.map fun k => "$event." ++ k ++ "Key"))

/-- The guard that a modifier adds among those for system keys and buttons. -/
def systemPart (modifiers : List String) (modifier : String) : String :=
  if (propagationGuard? modifier).isSome then ""
  else if modifier = "exact" then exactGuard modifiers
  else (systemGuard? modifier).getD ""

/-- The statement that a modifier adds among those that stop the event. -/
def propagationPart (modifier : String) : String := (propagationGuard? modifier).getD ""

def guards (modifiers : List String) : String :=
  keyGuard (modifiers.filter isKey) ++ String.join (modifiers.map (systemPart modifiers)) ++
    String.join (modifiers.map propagationPart)

def eventFunction (body : String) : String := "function($event)" ++ braced body

def handlerCode (handler : Handler) : String :=
  let value := handler.value
  match handler.modifiers with
  | none =>
    if HandlerShape.isMethodPath value || HandlerShape.isFunction value then value
    else eventFunction value
  | some modifiers =>
    let call :=
      if HandlerShape.isMethodPath value then "return " ++ value ++ "($event)"
      else if HandlerShape.isFunction value then "return (" ++ value ++ ")($event)"
      else value
    eventFunction (guards modifiers ++ call)

/-- The part of a key that says when the listener runs. -/
def keyPhase (key : ListenerKey) : String :=
  (if key.capture then "Capture" else "") ++ (if key.once then "Once" else "")

/-- The key of a listener in the data object: `on` and the name, or a computed key. -/
def keyCode (key : ListenerKey) : String :=
  if key.dynamic then
    "[_ek(" ++ key.name ++ (if keyPhase key = "" then "" else "," ++ literal (keyPhase key)) ++ ")]"
  else literal ("on" ++ capitalize (camelize key.name) ++ keyPhase key)

def handlersCode : List Handler → String
  | [] => "function()" ++ braced ""
  | [handler] => handlerCode handler
  | handlers => "_p(" ++ String.intercalate "," (handlers.map handlerCode) ++ ")"

def entry (listener : Listener) : String :=
  keyCode listener.key ++ ":" ++ handlersCode listener.handlers ++ ","

def entries (listeners : List Listener) : String := String.join (listeners.map entry)

end TemplateCompiler.ListenerCode
