import TemplateCompiler.Markup.Scanner

/-!
# Reading markup into a sink

A sink takes the signals of a template one at a time, while the template is read. It may refuse an
event, and then nothing more is read. Warnings are only noted.

A sink acts in a monad of its own, so refusing is failing there, and what the sink has taken so far
is whatever that monad keeps. How far a piece of the source reaches does not depend on the sink;
which tags are open after it is known once the sink has taken what the piece gives.
-/

namespace TemplateCompiler.Markup

open Text

/-- Takes what is met in the markup. -/
structure Sink (m : Type → Type) where
  event : Event → m Unit
  warn : Warning → Span → m Unit

namespace Sink

variable {m : Type → Type} [Monad m] (sink : Sink m)

def take : Signal → m Unit
  | .event e => sink.event e
  | .warning w span => sink.warn w span

/-- Closes one tag. A tag whose end tag is missing is reported, unless it may be left open. -/
def close (t : TagTable) (span : Span) (missing : Bool) (o : OpenTag) : m Unit := do
  if missing && !t.mayBeLeftOpen o.key then sink.warn (.missingEndTag o.tag) o.span
  sink.event (.closed o.tag span)

/-- Closes tags without end tags, innermost first. -/
def closeAll (t : TagTable) (span : Span) (stack : List OpenTag) : m Unit :=
  stack.forM (sink.close t span true)

/-- Takes an end tag that no open tag matches. -/
def unmatched (name : String) (span : Span) : m Unit := do
  if asciiLower name = "br" then sink.event (.opened name [] true span)
  else if asciiLower name = "p" then
    sink.event (.opened name [] false span)
    sink.event (.closed name span)
  else sink.warn (.unmatchedEndTag name) span

def closeTag (t : TagTable) (name : String) (span : Span) (stack : List OpenTag) :
    m (List OpenTag) :=
  match stack.dropWhile (·.key ≠ asciiLower name) with
  | target :: outer => do
    sink.closeAll t span (stack.takeWhile (·.key ≠ asciiLower name))
    sink.close t span false target
    return outer
  | [] => do
    sink.unmatched name span
    return stack

/-- Closes what a start tag of the given name ends implicitly. -/
def closeImplied (t : TagTable) (name : String) (span : Span) (stack : List OpenTag) :
    m (List OpenTag) :=
  let key := asciiLower name
  if !t.expectHtml then pure stack
  else
    let outOfParagraph :=
      if innermost? stack = some "p" && t.isNonPhrasing key then sink.closeTag t "p" span stack
      else pure stack
    outOfParagraph >>= fun stack =>
      if t.mayBeLeftOpen key && innermost? stack = some key then sink.closeTag t name span stack
      else pure stack

def openTag (t : TagTable) (s : StartTag) (span : Span) (stack : List OpenTag) :
    m (List OpenTag) := do
  let stack ← sink.closeImplied t s.tag span stack
  let unary := t.isUnary (asciiLower s.tag) || s.selfClosing
  sink.event (.opened s.tag s.attrs unary span)
  return if unary then stack else ⟨s.tag, span⟩ :: stack

def text (content : List Char) (start : Nat) : m Unit :=
  if content.isEmpty then pure ()
  else sink.event (.text (String.ofList content) ⟨start, start + byteLength content⟩)

end Sink

/-- A piece of the source: the cursor past it, and how a sink takes it, with the tags that are open
then. -/
structure Reading (m : Type → Type) where
  cursor : Cursor
  stack : m (List OpenTag)

namespace Scanner

variable {m : Type → Type} [Monad m] (sink : Sink m)

def feedComment? (comments : Bool) (s : Scanner) : Option (Reading m) :=
  (cut? "-->".toList s.cursor.rest).map fun p =>
    let after := s.cursor.past (p.1 ++ "-->".toList) p.2
    ⟨after, do
      if comments then
        sink.event (.comment (String.ofList (p.1.drop 4)) ⟨s.cursor.offset, after.offset⟩)
      return s.stack⟩

def feedCdata? (s : Scanner) : Option (Reading m) :=
  (cut? "]]>".toList s.cursor.rest).map fun p =>
    ⟨s.cursor.past (p.1 ++ "]]>".toList) p.2, do
      sink.text (p.1.drop 9) (s.cursor.offset + 9)
      return s.stack⟩

/-- Passes over everything up to and including a mark. -/
def passTo? (mark : List Char) (s : Scanner) : Option (Reading m) :=
  (cut? mark s.cursor.rest).map fun p => ⟨s.cursor.past (p.1 ++ mark) p.2, pure s.stack⟩

def feedEnd? (t : TagTable) (s : Scanner) : Option (Reading m) :=
  (endTag? s.cursor.rest).map fun p =>
    let after := s.cursor.past ('<' :: '/' :: p.1 ++ p.2.1 ++ ['>']) p.2.2
    ⟨after, sink.closeTag t (String.ofList p.1) ⟨s.cursor.offset, after.offset⟩ s.stack⟩

def feedStart? (t : TagTable) (s : Scanner) : Option (Reading m) :=
  (startTag? s.cursor).map fun tag =>
    ⟨if dropsNewline tag.tag && tag.cursor.rest.head? = some '\n' then
        tag.cursor.past ['\n'] tag.cursor.rest.tail
      else tag.cursor,
     sink.openTag t tag ⟨s.cursor.offset, tag.cursor.offset⟩ s.stack⟩

def feedConstruct? (t : TagTable) (comments : Bool) (s : Scanner) : Option (Reading m) :=
  let ahead := s.cursor.rest
  if "<!--".toList.isPrefixOf ahead then s.feedComment? sink comments
  else if "<![CDATA[".toList.isPrefixOf ahead then s.feedCdata? sink
  else if "<![".toList.isPrefixOf ahead then s.passTo? "]>".toList
  else if (ahead.take 10).map Char.toLower = "<!doctype ".toList then s.passTo? ['>']
  else if "</".toList.isPrefixOf ahead then s.feedEnd? sink t
  else if ahead.head? = some '<' then s.feedStart? sink t
  else none

/-- Feeds the raw content of the innermost open tag. -/
def feedRaw (t : TagTable) (tag : String) (s : Scanner) : Reading m :=
  let found := (rawEnd? tag s.cursor.rest).getD (s.cursor.rest, [], [])
  let skipped := if dropsNewline tag && found.1.head? = some '\n' then ['\n'] else []
  let textEnd := s.cursor.past found.1 found.2.2
  let after := textEnd.past found.2.1 found.2.2
  ⟨after, do
    sink.text (found.1.drop skipped.length) (s.cursor.offset + byteLength skipped)
    if found.2.1.isEmpty then return s.stack
    else sink.closeTag t tag ⟨textEnd.offset, after.offset⟩ s.stack⟩

/-- Feeds text up to the next construct, or all that is left. -/
def feedText (s : Scanner) : Reading m :=
  let run := textRun s.cursor.rest
  if run.1.isEmpty then
    let after := s.cursor.past s.cursor.rest []
    ⟨after, do
      sink.text s.cursor.rest s.cursor.offset
      sink.warn (.malformedTag (String.ofList s.cursor.rest)) ⟨s.cursor.offset, after.offset⟩
      return s.stack⟩
  else
    ⟨s.cursor.past run.1 run.2, do
      sink.text run.1 s.cursor.offset
      return s.stack⟩

/-- Feeds the next piece of the source. -/
def feedStep (t : TagTable) (comments : Bool) (s : Scanner) : Reading m :=
  match s.rawTag? t with
  | some tag => s.feedRaw sink t tag
  | none => (s.feedConstruct? sink t comments).getD (s.feedText sink)

/-! ## How far a step reaches does not depend on the sink -/

theorem cursor_feedStart? (t : TagTable) (s : Scanner) :
    (s.feedStart? sink t).map (·.cursor) = (s.start? t).map (·.2.cursor) := by
  unfold feedStart? start?
  cases startTag? s.cursor with
  | none => rfl
  | some tag =>
    simp only [Option.map_some]
    rcases tag.cursor.rest with _ | ⟨c, rest⟩
    · simp
    · by_cases hc : c = '\n'
      · subst hc
        simp
      · simp [hc]

theorem cursor_feedConstruct? (t : TagTable) (comments : Bool) (s : Scanner) :
    (s.feedConstruct? sink t comments).map (·.cursor) =
      (s.construct? t comments).map (·.2.cursor) := by
  unfold feedConstruct? construct?
  dsimp only
  split
  · simp only [feedComment?, comment?, Option.map_map, Function.comp_def]
  split
  · simp only [feedCdata?, cdata?, Option.map_map, Function.comp_def]
  split
  · simp only [passTo?, skipTo?, Option.map_map, Function.comp_def]
  split
  · simp only [passTo?, skipTo?, Option.map_map, Function.comp_def]
  split
  · simp only [feedEnd?, end?, Option.map_map, Function.comp_def]
  split
  · exact cursor_feedStart? sink t s
  · rfl

theorem cursor_feedRaw (t : TagTable) (tag : String) (s : Scanner) :
    (s.feedRaw sink t tag).cursor = (s.rawText t tag).2.cursor := by
  unfold feedRaw rawText
  dsimp only
  split <;> rfl

theorem cursor_feedText (s : Scanner) : (s.feedText sink).cursor = s.text.2.cursor := by
  unfold feedText text
  dsimp only
  split <;> rfl

theorem cursor_feedStep (t : TagTable) (comments : Bool) (s : Scanner) :
    (s.feedStep sink t comments).cursor = (s.step t comments).2.cursor := by
  have hconstruct := cursor_feedConstruct? sink t comments s
  unfold feedStep step
  cases s.rawTag? t with
  | some tag => exact cursor_feedRaw sink t tag s
  | none =>
    cases hfed : s.feedConstruct? sink t comments with
    | none =>
      rw [hfed] at hconstruct
      rw [Option.map_eq_none_iff.mp hconstruct.symm]
      exact cursor_feedText sink s
    | some r =>
      rw [hfed] at hconstruct
      obtain ⟨r', hr', heq⟩ := Option.map_eq_some_iff.mp hconstruct.symm
      rw [hr']
      exact heq.symm

/-- Feeds everything from here to the end of the source, where all open tags are closed. -/
def feed (t : TagTable) (comments : Bool) (s : Scanner) : m Unit :=
  if _h : s.cursor.rest = [] then
    sink.closeAll t ⟨s.cursor.offset, s.cursor.offset⟩ s.stack
  else
    let next := s.feedStep sink t comments
    next.stack >>= fun stack => feed t comments ⟨next.cursor, stack⟩
termination_by s.cursor.rest.length
decreasing_by
  rw [cursor_feedStep]
  exact length_step_lt t comments s _h

end Scanner

def feed {m : Type → Type} [Monad m] (sink : Sink m) (t : TagTable) (comments : Bool)
    (source : String) : m Unit :=
  Scanner.feed sink t comments { cursor := { rest := source.toList } }

/-! ## Recording -/

/-- What a sink has been given, in order. -/
structure Recording where
  events : List Event := []
  warnings : List (Warning × Span) := []
  deriving DecidableEq, Inhabited

/-- Records what it is given. Once as many events as the limit are recorded, the next is refused. -/
def recorder (limit : Option Nat) : Sink (ExceptT Event (StateM Recording)) where
  event e := do
    let r ← get
    if limit = some r.events.length then throw e
    set { r with events := r.events ++ [e] }
  warn w span := modify fun r => { r with warnings := r.warnings ++ [(w, span)] }

/-- Reads a template into a recording, up to the event that is refused if there is one. -/
def record (limit : Option Nat) (t : TagTable) (comments : Bool) (source : String) :
    Except Event Unit × Recording :=
  (feed (recorder limit) t comments source).run.run {}

end TemplateCompiler.Markup
