import TemplateCompiler.Render.Code
import TemplateCompiler.Report.Diagnostics

/-!
# Settings and extensions

How a template is compiled: the settings, the modules that see every element, and the handlers of
directives. Extensions see the settings and one element at a time, may report problems, and are the
only part of the compiler that can fail.
-/

namespace TemplateCompiler

/-- What becomes of white space between tags. -/
inductive WhitespaceMode where
  /-- A run of white space becomes one space. -/
  | preserve
  /-- A run with a line break goes away, and white space in text becomes single spaces. -/
  | condense
  deriving DecidableEq, Inhabited

/-- The settings of a compilation. -/
structure Settings where
  delimiters : Option (String × String) := none
  whitespace : WhitespaceMode := .preserve
  comments : Bool := false
  directivePrefix : String := "r-"
  tags : TagTable := {}
  /-- Whether an attribute of a tag, given its type attribute, is bound as a property. -/
  mustUseProp : String → Option String → String → Bool := fun _ _ _ => false

def Settings.directive (s : Settings) (name : String) : String := s.directivePrefix ++ name

/-- How a chain of conditions made by an extension continues one before it. -/
inductive ChainLink where
  | none
  | elseIf (exp : String)
  | otherwise
  deriving DecidableEq, Inhabited

/-- One element of an expansion: its attributes and the condition it is shown under. -/
structure Branch where
  attrs : List Attr
  condition : Option String
  deriving DecidableEq, Inhabited

/-- The conditional chain that takes the place of an element. Only the first branch keeps a loop. -/
structure Expansion where
  branches : List Branch
  link : ChainLink := .none
  deriving DecidableEq, Inhabited

/-- An extension that sees every element. A hook that is left out does nothing. -/
structure Module where
  /-- Attachments that do not keep an element from being static. -/
  staticKeys : List String := []
  /-- Runs on a new element and may expand it. -/
  expand : Settings → Element → Outcome (Option Expansion) := fun _ _ => pure none
  /-- Runs before the attributes of an element are given their meaning. -/
  transform : Settings → Element → Outcome Element := fun _ el => pure el
  /-- Entries for the data object of an element, each with a comma after it. -/
  data : Element → Except HookFailure String := fun _ => pure ""
  /-- Changes the code of an element. -/
  code : Element → Code → Except HookFailure Code := fun _ code => pure code

/-- What a directive does to its element, and whether it is still applied at run time. -/
abbrev DirectiveHandler := Settings → Element → Directive → Outcome (Element × Bool)

/-- Settings with extensions. -/
structure Options extends Settings where
  modules : List Module := []
  directives : Dict DirectiveHandler := {}

/-- Whether an attachment does not keep an element from being static. -/
def Options.isStaticKey (o : Options) (key : String) : Bool :=
  o.modules.any fun m => m.staticKeys.contains key

end TemplateCompiler
