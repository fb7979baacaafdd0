import TemplateCompiler.Data.JsonText
import TemplateCompiler.Web.Platform

/-!
# Build configuration

The options file of a build. It is a JSON object whose keys may all be left out, or the list of the
values in the order of the keys. Other keys are passed over; a known key stands at most once.
-/

namespace TemplateCompiler

/-- The options of a build. -/
structure Config where
  comments : Bool := false
  whitespace : WhitespaceMode := .preserve
  delimiters : Option (String × String) := none
  directivePrefix : Option String := none
  /-- Whether a template with errors is written out too. -/
  allowErrors : Bool := false
  deriving DecidableEq, Inhabited

def WhitespaceMode.ofName? : String → Option WhitespaceMode
  | "preserve" => some .preserve
  | "condense" => some .condense
  | _ => none

namespace Config

open Json

abbrev Reader (α : Type) := List Char → Option (α × List Char)

def readBool : Reader Bool := fun cs =>
  match constant? (skipSpace cs) with
  | some (.bool b, rest) => some (b, rest)
  | _ => none

def readText : Reader String := fun cs => string? (skipSpace cs)

/-- Reads `null` as nothing, and anything else as a value. -/
def readOptional {α : Type} (read : Reader α) : Reader (Option α) := fun cs =>
  match word? "null" (skipSpace cs) with
  | some rest => some (none, rest)
  | none => (read cs).map fun p => (some p.1, p.2)

def skipMark (mark : Char) (cs : List Char) : Option (List Char) :=
  [mark].isPrefixOf? (skipSpace cs)

/-- Reads a list of two texts. -/
def readPair : Reader (String × String) := fun cs => do
  let cs ← skipMark '[' cs
  let (first, cs) ← readText cs
  let cs ← skipMark ',' cs
  let (second, cs) ← readText cs
  let cs ← skipMark ']' cs
  return ((first, second), cs)

/-- Reads a mode of white space: its name, or an object that has it as the key of `null`. -/
def readWhitespace : Reader WhitespaceMode := fun cs =>
  match skipMark '\x7b' cs with
  | none => do
    let (name, cs) ← readText cs
    return (← WhitespaceMode.ofName? name, cs)
  | some cs => do
    let (name, cs) ← readText cs
    let cs ← skipMark ':' cs
    let cs ← word? "null" (skipSpace cs)
    let cs ← skipMark '\x7d' cs
    return (← WhitespaceMode.ofName? name, cs)

def keys : List String := ["comments", "whitespace", "delimiters", "directivePrefix", "allowErrors"]

/-- Reads the value of a key. The value of an unknown key is skipped. -/
def readField (config : Config) (key : String) : Reader Config := fun cs =>
  match key with
  | "comments" => (readBool cs).map fun p => ({ config with comments := p.1 }, p.2)
  | "whitespace" => (readWhitespace cs).map fun p => ({ config with whitespace := p.1 }, p.2)
  | "delimiters" =>
    (readOptional readPair cs).map fun p => ({ config with delimiters := p.1 }, p.2)
  | "directivePrefix" =>
    (readOptional readText cs).map fun p => ({ config with directivePrefix := p.1 }, p.2)
  | "allowErrors" => (readBool cs).map fun p => ({ config with allowErrors := p.1 }, p.2)
  | _ => (skip? cs).map fun rest => (config, rest)

/-- Reads the rest of a list, whose values belong to the given keys. -/
def readItems (config : Config) : List String → Reader Config
  | [], _ => none
  | key :: keys, cs => do
    let (config, cs) ← readField config key cs
    match skipSpace cs with
    | ',' :: cs => readItems config keys cs
    | ']' :: cs => some (config, cs)
    | _ => none

/-- Reads the rest of an object, in at most `fuel` fields. The keys in `seen` stand before. -/
def readFields (config : Config) (seen : List String) : Nat → Reader Config
  | 0, _ => none
  | fuel + 1, cs => do
    let (key, cs) ← readText cs
    let cs ← skipMark ':' cs
    if keys.contains key && seen.contains key then none
    else
      let (config, cs) ← readField config key cs
      match skipSpace cs with
      | ',' :: cs => readFields config (key :: seen) fuel cs
      | '\x7d' :: cs => some (config, cs)
      | _ => none

/-- Reads a configuration. A text has fewer fields than characters. -/
def readConfig : Reader Config := fun cs =>
  match skipSpace cs with
  | '[' :: cs =>
    match skipMark ']' cs with
    | some cs => some ({}, cs)
    | none => readItems {} keys cs
  | '\x7b' :: cs =>
    match skipMark '\x7d' cs with
    | some cs => some ({}, cs)
    | none => readFields {} [] (cs.length + 1) cs
  | _ => none

/-- The configuration that a text holds, with nothing after it. -/
def parse? (text : String) : Option Config :=
  match readConfig text.toList with
  | some (config, rest) => if (skipSpace rest).isEmpty then some config else none
  | none => none

def options (config : Config) : Options :=
  { Web.options with
    comments := config.comments
    whitespace := config.whitespace
    delimiters := config.delimiters.or Web.options.delimiters
    directivePrefix := config.directivePrefix.getD Web.options.directivePrefix }

end Config

end TemplateCompiler
