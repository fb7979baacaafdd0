import TemplateCompiler.Build.Config
import TemplateCompiler.Build.Host
import TemplateCompiler.Compile

/-!
# Building

Compiles a template file into an output directory. Tips and errors of the template are reported
line by line; a template with errors is only written out when that is allowed.
-/

namespace TemplateCompiler

/-- The form in which output is written. -/
inductive EmitMode where
  | module
  | json
  deriving DecidableEq, Inhabited

namespace EmitMode

def ofName? : String → Option EmitMode
  | "module" => some .module
  | "json" => some .json
  | _ => none

def fileExtension : EmitMode → String
  | .module => "js"
  | .json => "json"

def render : EmitMode → Output → String
  | .module, output => output.toModule
  | .json, output => output.toJson

end EmitMode

/-- Why a build fails. -/
inductive BuildError where
  | unreadable (path : String)
  | malformedConfig (path : String)
  | hookFailed (path : String) (failure : HookFailure)
  | templateErrors (path : String) (count : Nat)
  | directoryNotMade (path : String)
  | unwritable (path : String)
  deriving DecidableEq, Inhabited

def BuildError.message : BuildError → String
  | .unreadable path => "failed to read " ++ path
  | .malformedConfig path => "failed to parse " ++ path
  | .hookFailed path _ => "failed to compile " ++ path
  | .templateErrors path count => path ++ " has " ++ count.repr ++ " template error(s)"
  | .directoryNotMade path => "failed to create " ++ path
  | .unwritable path => "failed to write " ++ path

/-- What to build, and where to. -/
structure BuildRequest where
  input : String
  outDir : Option String := none
  emit : EmitMode := .module
  deriving DecidableEq, Inhabited

/-- The directory that is written to unless another is given. -/
def defaultOutDir : String := "target/rdom-gen"

section

variable {m : Type → Type} [Monad m]

def Host.readFile (h : Host m) (path : String) : ExceptT BuildError m String := do
  match ← h.read path with
  | some text => return text
  | none => throw (.unreadable path)

/-- Reads a configuration file. -/
def Config.load (h : Host m) (path : String) : ExceptT BuildError m Config := do
  let text ← h.readFile path
  match Config.parse? text with
  | some config => return config
  | none => throw (.malformedConfig path)

def Host.reportAll (h : Host m) (word : String) : List String → m Unit
  | [] => pure ()
  | line :: rest => do
    h.report (word ++ ": " ++ line)
    h.reportAll word rest

/-- Writes a file into a directory, which is made if it is missing. -/
def Host.deliver (h : Host m) (directory file content : String) : ExceptT BuildError m String := do
  unless ← h.makeDirectories directory do throw (.directoryNotMade directory)
  let path := Path.join directory file
  unless ← h.write path content do throw (.unwritable path)
  return path

/-- Builds a template file and gives the path of the result. -/
def build (h : Host m) (config : Config) (r : BuildRequest) : ExceptT BuildError m String := do
  let template ← h.readFile r.input
  match compile config.options template with
  | .error failure => throw (.hookFailed r.input failure)
  | .ok output =>
    h.reportAll "tip" output.tips
    h.reportAll "error" output.errors
    if !output.errors.isEmpty && !config.allowErrors then
      throw (.templateErrors r.input output.errors.length)
    let path ← h.deliver (r.outDir.getD defaultOutDir)
      (Path.stem r.input ++ "." ++ r.emit.fileExtension) (r.emit.render output)
    h.print ("Generated: " ++ path)
    return path

end

end TemplateCompiler
