import TemplateCompiler.Build.Basic

/-!
# The command line

The arguments of the program and what they ask for. An option that takes a value is followed by it,
or has it after an equals sign; every option stands at most once; after two dashes alone there are
no more options.
-/

namespace TemplateCompiler

/-- The arguments of a build, as far as they have been read. -/
structure BuildArguments where
  input : Option String := none
  outDir : Option String := none
  emit : Option EmitMode := none
  config : Option String := none
  comments : Bool := false
  whitespace : Option WhitespaceMode := none
  allowErrors : Bool := false
  deriving DecidableEq, Inhabited

/-- What a command line asks for. -/
inductive Command where
  | version
  | build (arguments : BuildArguments) (request : BuildRequest)
  deriving DecidableEq, Inhabited

namespace BuildArguments

def once {α : Type} (before : Option α) (now : Option α) : Option (Option α) :=
  match before, now with
  | none, some value => some (some value)
  | _, _ => none

def path? (text : String) : Option String := if text = "" then none else some text

def setInput (a : BuildArguments) (text : String) : Option BuildArguments :=
  (once a.input (path? text)).map fun input => { a with input }

def setSwitch? (a : BuildArguments) : String → Option BuildArguments
  | "comments" => if a.comments then none else some { a with comments := true }
  | "allow-errors" => if a.allowErrors then none else some { a with allowErrors := true }
  | _ => none

def setValue? (a : BuildArguments) (name value : String) : Option BuildArguments :=
  match name with
  | "out-dir" => (once a.outDir (path? value)).map fun outDir => { a with outDir }
  | "emit" => (once a.emit (EmitMode.ofName? value)).map fun emit => { a with emit }
  | "config" => (once a.config (path? value)).map fun config => { a with config }
  | "whitespace" =>
    (once a.whitespace (WhitespaceMode.ofName? value)).map fun whitespace => { a with whitespace }
  | _ => none

def isSwitch (name : String) : Bool := ["comments", "allow-errors"].contains name

/-- Whether an argument can only be an option. A dash alone is a plain argument. -/
def isHyphenated (argument : String) : Bool :=
  argument.toList.head? = some '-' && argument ≠ "-"

/-- The name of a long option and the value written after an equals sign. -/
def longOption? (argument : String) : Option (String × Option String) :=
  match "--".toList.isPrefixOf? argument.toList with
  | none => none
  | some rest =>
    match Text.cut? ['='] rest with
    | some (name, value) => some (.ofList name, some (.ofList value))
    | none => some (.ofList rest, none)

def takePlain (a : BuildArguments) : List String → Option BuildArguments
  | [] => some a
  | text :: rest => (a.setInput text).bind fun a => a.takePlain rest

def takeAll (a : BuildArguments) : List String → Option BuildArguments
  | [] => some a
  | argument :: rest =>
    if argument = "--" then a.takePlain rest
    else
      match longOption? argument with
      | some (name, some value) => (a.setValue? name value).bind fun a => a.takeAll rest
      | some (name, none) =>
        if isSwitch name then (a.setSwitch? name).bind fun a => a.takeAll rest
        else
          match rest with
          | [] => none
          | value :: rest =>
            if isHyphenated value then none
            else (a.setValue? name value).bind fun a => a.takeAll rest
      | none =>
        if isHyphenated argument then none
        else (a.setInput argument).bind fun a => a.takeAll rest

def request? (a : BuildArguments) : Option BuildRequest :=
  a.input.map fun input => { input, outDir := a.outDir, emit := a.emit.getD .module }

/-- The configuration with the options of the command line, which win over those of a file. -/
def configure (a : BuildArguments) (config : Config) : Config :=
  { config with
    comments := config.comments || a.comments
    allowErrors := config.allowErrors || a.allowErrors
    whitespace := a.whitespace.getD config.whitespace }

end BuildArguments

namespace Command

/-- What the arguments ask for, if they are right. -/
def parse? : List String → Option Command
  | [] => none
  | first :: rest =>
    if first = "--version" || "-V".toList.isPrefixOf first.toList then some .version
    else if first = "build" then
      (BuildArguments.takeAll {} rest).bind fun a => a.request?.map (.build a)
    else none

def versionText : String := "rdom 0.1.1"

def usageText : String := "Usage: rdom build [OPTIONS] <INPUT>"

section

variable {m : Type → Type} [Monad m]

def runBuild (h : Host m) (a : BuildArguments) (r : BuildRequest) :
    ExceptT BuildError m String := do
  let config ←
    match a.config with
    | some path => Config.load h path
    | none => pure {}
  TemplateCompiler.build h (a.configure config) r

/-- Runs the program and gives its exit code: 2 when the arguments are wrong, 1 when the build
fails. -/
def run (h : Host m) (arguments : List String) : m Nat := do
  match parse? arguments with
  | none =>
    h.report usageText
    return 2
  | some .version =>
    h.print versionText
    return 0
  | some (.build a r) =>
    match ← (runBuild h a r).run with
    | .ok _ => return 0
    | .error e =>
      h.report ("Error: " ++ e.message)
      return 1

end

end Command

end TemplateCompiler
