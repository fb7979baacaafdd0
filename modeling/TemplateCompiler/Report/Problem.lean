import TemplateCompiler.Markup.Signal

/-!
# Problems and advice

What can be wrong with a template, and what its author is told without it being wrong. Each cause
has one wording.
-/

namespace TemplateCompiler

/-- Why a template has an error. Names of directives are given as they are written, with their
prefix. -/
inductive Problem where
  | markup (warning : Markup.Warning)
  | duplicateAttribute (name : String)
  | sideEffectTag (tag : String)
  | valueMissing (directive : String)
  | invalidLoop (exp : String)
  | keyedTemplate
  | keyedSlot
  | modelOfLoopName (tag value model loop : String)
  | rootOfManyNodes (tag : String)
  | rootLoops (loop : String)
  | manyRoots
  | noRoot
  | onlyText
  | textOutsideRoot (text : String)
  | textBetweenBranches (text ifName elseName : String)
  | branchWithoutIf (branch tag ifName : String)
  | listenersWithModifiers
  | fileModel (tag value directivePrefix : String)
  | unsupportedModel (tag value directivePrefix : String)
  | valueConflict (binding bound directivePrefix : String)
  | onceWithoutKey
  | inlineTemplateContent
  | other (message : String)
  deriving DecidableEq, Inhabited

def Problem.message : Problem → String
  | .markup warning => warning.message
  | .duplicateAttribute name => "duplicate attribute: " ++ name
  | .sideEffectTag tag =>
    "Templates should only be responsible for mapping the state to the UI. Avoid placing tags " ++
      "with side-effects in your templates, such as <" ++ tag ++ ">, as they will not be parsed."
  | .valueMissing directive => "Directive " ++ directive ++ " requires a value."
  | .invalidLoop exp => "Invalid r-for expression: " ++ exp
  | .keyedTemplate => "<template> cannot be keyed. Place the key on real elements instead."
  | .keyedSlot =>
    "`key` does not work on <slot> because slots are abstract outlets and can possibly expand " ++
      "into multiple elements. Use the key on a wrapping element instead."
  | .modelOfLoopName tag value model loop =>
    "<" ++ tag ++ " " ++ model ++ "=\"" ++ value ++ "\">: You are binding " ++ model ++
      " directly to a " ++ loop ++ " iteration alias. This will not be able to modify the " ++
      loop ++ " source array because writing to the alias is like modifying a function local " ++
      "variable. " ++
      "Consider using an array of objects and use " ++ model ++ " on an object property instead."
  | .rootOfManyNodes tag =>
    "Cannot use <" ++ tag ++ "> as component root element because it may contain multiple nodes."
  | .rootLoops loop =>
    "Cannot use " ++ loop ++
      " on stateful component root element because it renders multiple elements."
  | .manyRoots =>
    "Component template should contain exactly one root element. If you are using r-if on " ++
      "multiple elements, use r-else-if to chain them instead."
  | .noRoot => "Component template requires a root element."
  | .onlyText => "Component template requires a root element, rather than just text."
  | .textOutsideRoot text => "text \"" ++ text ++ "\" outside the template root will be ignored."
  | .textBetweenBranches text ifName elseName =>
    "text \"" ++ text ++ "\" between " ++ ifName ++ " and " ++ elseName ++ "(-if) will be ignored."
  | .branchWithoutIf branch tag ifName =>
    branch ++ " used on element <" ++ tag ++ "> without corresponding " ++ ifName ++ "."
  | .listenersWithModifiers => "r-on without argument does not support modifiers."
  | .fileModel tag value directivePrefix =>
    "<" ++ tag ++ " " ++ directivePrefix ++ "model=\"" ++ value ++
      "\" type=\"file\">:\nFile inputs are read only. Use a " ++ directivePrefix ++
      "on:change listener instead."
  | .unsupportedModel tag value directivePrefix =>
    "<" ++ tag ++ " " ++ directivePrefix ++ "model=\"" ++ value ++ "\">: " ++ directivePrefix ++
      "model is not supported on this element type. If you are working with contenteditable, " ++
      "it's recommended to wrap a library dedicated for that purpose inside a custom component."
  | .valueConflict binding bound directivePrefix =>
    binding ++ "=\"" ++ bound ++ "\" conflicts with " ++ directivePrefix ++
      "model on the same element because the latter already expands to a value binding internally"
  | .onceWithoutKey => "r-once can only be used inside r-for that is keyed."
  | .inlineTemplateContent => "Inline-template components must have exactly one child element."
  | .other message => message

/-- Something an author is told about a template that compiles. -/
inductive Advice where
  | scopeDeprecated
  | ambiguousSlotScope (loop tag : String)
  | ignoredModifier (modifier rawName : String)
  /-- An interpolation in the value of a plain attribute; `shown` is the attribute of the
  example. -/
  | interpolatedAttribute (name value bind shown : String)
  | unhandledDirective (rawName : String)
  | componentListWithoutKey (tag binder source : String)
  | other (message : String)
  deriving DecidableEq, Inhabited

def Advice.message : Advice → String
  | .scopeDeprecated =>
    "the \"scope\" attribute for scoped slots have been deprecated and replaced by " ++
      "\"slot-scope\". The new \"slot-scope\" attribute can also be used on plain elements in " ++
      "addition to <template>."
  | .ambiguousSlotScope loop tag =>
    "Ambiguous combined usage of slot-scope and " ++ loop ++ " on <" ++ tag ++ "> (" ++ loop ++
      " takes higher priority). Use a wrapper <template> for the scoped slot to make it clearer."
  | .ignoredModifier modifier rawName =>
    "The ." ++ modifier ++ " modifier on " ++ rawName ++ " has no effect and was ignored."
  | .interpolatedAttribute name value bind shown =>
    name ++ "=\"" ++ value ++ "\": Interpolation inside attributes has been removed. Use " ++
      bind ++
      " or the colon shorthand instead. For example, instead of <div " ++ shown ++
      "=\"\x7b\x7b val \x7d\x7d\">, use <div :" ++ shown ++ "=\"val\">."
  | .unhandledDirective rawName =>
    "Directive \"" ++ rawName ++ "\" has no compile-time handler and is left to the runtime."
  | .componentListWithoutKey tag binder source =>
    "<" ++ tag ++ " r-for=\"" ++ binder ++ " in " ++ source ++
      "\">: component lists rendered with r-for should have explicit keys."
  | .other message => message

end TemplateCompiler
