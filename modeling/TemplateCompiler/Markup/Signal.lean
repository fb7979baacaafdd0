import TemplateCompiler.Markup.Basic

/-!
# Markup signals

What reading markup yields, in document order: events for tags, text and comments, and warnings
about markup that does not nest.
-/

namespace TemplateCompiler.Markup

/-- Something met in the markup. A unary tag is opened and never closed. -/
inductive Event where
  | opened (tag : String) (attrs : List Attr) (unary : Bool) (span : Span)
  | closed (tag : String) (span : Span)
  | text (content : String) (span : Span)
  | comment (content : String) (span : Span)
  deriving DecidableEq, Inhabited

/-- A fault of the markup that reading it gets past. -/
inductive Warning where
  | malformedTag (rest : String)
  | missingEndTag (tag : String)
  | unmatchedEndTag (tag : String)
  deriving DecidableEq, Inhabited

def Warning.message : Warning → String
  | .malformedTag rest => "Mal-formatted tag at end of template: \"" ++ rest ++ "\""
  | .missingEndTag tag => "tag <" ++ tag ++ "> has no matching end tag."
  | .unmatchedEndTag tag => "Unmatched end tag </" ++ tag ++ ">."

/-- An event or a warning. -/
inductive Signal where
  | event (event : Event)
  | warning (warning : Warning) (span : Span)
  deriving DecidableEq, Inhabited

def Signal.event? : Signal → Option Event
  | .event e => some e
  | .warning _ _ => none

end TemplateCompiler.Markup
