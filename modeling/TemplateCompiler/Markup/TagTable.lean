import TemplateCompiler.Text.Case

/-!
# Tag tables

What a platform knows about its tags: which stand alone, which may be left open, whose content is
not markup, and which belong to it at all.
-/

namespace TemplateCompiler

/-- A foreign namespace that an element may belong to. -/
inductive Namespace where
  | svg
  | math
  deriving DecidableEq, Inhabited

def Namespace.name : Namespace → String
  | .svg => "svg"
  | .math => "math"

/-- The classes of tags of a platform. -/
structure TagTable where
  /-- Whether the nesting rules of HTML close tags implicitly. -/
  expectHtml : Bool := false
  /-- Tags without content and end tag. -/
  unary : List String := []
  /-- Tags whose end tag may be left out. -/
  leftOpen : List String := []
  /-- Tags that end a paragraph. -/
  nonPhrasing : List String := []
  /-- Tags whose content is not read as markup. -/
  rawText : List String := ["script", "style", "textarea"]
  /-- Tags of the platform; any other may be a component. -/
  reserved : List String := []
  /-- Tags that keep the white space of their content. -/
  pre : List String := []
  /-- The namespace that a tag opens. -/
  namespaceOf : String → Option Namespace := fun _ => none

instance : Inhabited TagTable := ⟨{}⟩

namespace TagTable

/-- Whether a tag has neither content nor end tag. -/
def isUnary (t : TagTable) (tag : String) : Bool := t.unary.contains tag

def mayBeLeftOpen (t : TagTable) (tag : String) : Bool := t.leftOpen.contains tag

def isNonPhrasing (t : TagTable) (tag : String) : Bool := t.nonPhrasing.contains tag

/-- Whether the content of a tag is not read as markup. -/
def isRawText (t : TagTable) (tag : String) : Bool := t.rawText.contains (Text.asciiLower tag)

def isReserved (t : TagTable) (tag : String) : Bool := t.reserved.contains tag

/-- Whether a tag keeps the white space of its content. -/
def isPre (t : TagTable) (tag : String) : Bool := t.pre.contains tag

end TagTable

end TemplateCompiler
