import TemplateCompiler.Markup.Signal
import TemplateCompiler.Markup.Tag
import TemplateCompiler.Markup.TagTable

/-!
# Reading markup

The scanner reads a template one construct at a time: a tag, a comment, a `<![…]` section, a
doctype, the raw content of a tag such as `script`, or a run of text. It keeps the stack of open
tags and turns each construct into signals. What cannot be read as a construct is text, and every
step takes at least one character.
-/

namespace TemplateCompiler.Markup

open Text

/-- A tag that has been opened and not yet closed. -/
structure OpenTag where
  tag : String
  span : Span
  deriving DecidableEq, Inhabited

def OpenTag.key (o : OpenTag) : String := asciiLower o.tag

/-- The signals for closing one tag. A tag whose end tag is missing is reported, unless it may be
left open. -/
def closeSignals (t : TagTable) (span : Span) (missing : Bool) (o : OpenTag) : List Signal :=
  (if missing && !t.mayBeLeftOpen o.key then [.warning (.missingEndTag o.tag) o.span] else []) ++
    [.event (.closed o.tag span)]

/-- The signals for an end tag that no open tag matches. -/
def unmatchedSignals (name : String) (span : Span) : List Signal :=
  if asciiLower name = "br" then [.event (.opened name [] true span)]
  else if asciiLower name = "p" then
    [.event (.opened name [] false span), .event (.closed name span)]
  else [.warning (.unmatchedEndTag name) span]

/-- Closes the innermost open tag of a name and all tags inside it. The stack is innermost first. -/
def closeTag (t : TagTable) (name : String) (span : Span) (stack : List OpenTag) :
    List Signal × List OpenTag :=
  let inner := stack.takeWhile (·.key ≠ asciiLower name)
  match stack.dropWhile (·.key ≠ asciiLower name) with
  | target :: outer =>
    (inner.flatMap (closeSignals t span true) ++ closeSignals t span false target, outer)
  | [] => (unmatchedSignals name span, stack)

def innermost? (stack : List OpenTag) : Option String := stack.head?.map OpenTag.key

/-- Closes what a start tag of the given name ends implicitly: a paragraph before a tag that cannot
be in one, and a tag of the same name that may be left open. -/
def closeImplied (t : TagTable) (name : String) (span : Span) (stack : List OpenTag) :
    List Signal × List OpenTag :=
  let key := asciiLower name
  if !t.expectHtml then ([], stack)
  else
    let outOfParagraph :=
      if innermost? stack = some "p" && t.isNonPhrasing key then closeTag t "p" span stack
      else ([], stack)
    if t.mayBeLeftOpen key && innermost? outOfParagraph.2 = some key then
      let closed := closeTag t name span outOfParagraph.2
      (outOfParagraph.1 ++ closed.1, closed.2)
    else outOfParagraph

def openTag (t : TagTable) (s : StartTag) (span : Span) (stack : List OpenTag) :
    List Signal × List OpenTag :=
  let implied := closeImplied t s.tag span stack
  let unary := t.isUnary (asciiLower s.tag) || s.selfClosing
  (implied.1 ++ [.event (.opened s.tag s.attrs unary span)],
    if unary then implied.2 else ⟨s.tag, span⟩ :: implied.2)

/-- Whether one newline right after the start tag is dropped. -/
def dropsNewline (tag : String) : Bool := asciiLower tag = "pre" || asciiLower tag = "textarea"

def startsMarkup (cs : List Char) : Bool :=
  "<!--".toList.isPrefixOf cs || "<![".toList.isPrefixOf cs || (endTag? cs).isSome ||
    cs.tail.head?.any isNameStart

/-- The text up to the next construct, and the rest. -/
def textRun : List Char → List Char × List Char
  | [] => ([], [])
  | c :: cs =>
    if c = '<' ∧ startsMarkup (c :: cs) then ([], c :: cs)
    else
      let more := textRun cs
      (c :: more.1, more.2)

/-- The raw content of a tag, the end tag that ends it, and the rest. The end tag is found by its
name in either case and reaches to the next `>`. -/
def rawEnd? (tag : String) (cs : List Char) : Option (List Char × List Char × List Char) :=
  match cut? ('<' :: '/' :: (asciiLower tag).toList) (cs.map Char.toLower) with
  | some (before, _) =>
    (cut? ['>'] (cs.drop before.length)).map fun p =>
      (cs.take before.length, p.1 ++ ['>'], p.2)
  | none => none

/-- The state of a scan: where it stands and which tags are open, innermost first. -/
structure Scanner where
  cursor : Cursor
  stack : List OpenTag := []

/-- A text as an event, unless it is empty. -/
def textSignals (content : List Char) (start : Nat) : List Signal :=
  if content.isEmpty then []
  else [.event (.text (String.ofList content) ⟨start, start + byteLength content⟩)]

namespace Scanner

/-- A comment ends at the first `-->`, which may overlap its opening. -/
def comment? (comments : Bool) (s : Scanner) : Option (List Signal × Scanner) :=
  (cut? "-->".toList s.cursor.rest).map fun p =>
    let after := s.cursor.past (p.1 ++ "-->".toList) p.2
    (if comments then
      [.event (.comment (String.ofList (p.1.drop 4)) ⟨s.cursor.offset, after.offset⟩)]
     else [],
     { s with cursor := after })

/-- The content of a CDATA section is text. -/
def cdata? (s : Scanner) : Option (List Signal × Scanner) :=
  (cut? "]]>".toList s.cursor.rest).map fun p =>
    (textSignals (p.1.drop 9) (s.cursor.offset + 9),
     { s with cursor := s.cursor.past (p.1 ++ "]]>".toList) p.2 })

def skipTo? (mark : List Char) (s : Scanner) : Option (List Signal × Scanner) :=
  (cut? mark s.cursor.rest).map fun p =>
    ([], { s with cursor := s.cursor.past (p.1 ++ mark) p.2 })

def end? (t : TagTable) (s : Scanner) : Option (List Signal × Scanner) :=
  (endTag? s.cursor.rest).map fun (name, gap, rest) =>
    let after := s.cursor.past ('<' :: '/' :: name ++ gap ++ ['>']) rest
    let closed := closeTag t (String.ofList name) ⟨s.cursor.offset, after.offset⟩ s.stack
    (closed.1, ⟨after, closed.2⟩)

/-- A start tag opens its tag, and may drop a newline after it. -/
def start? (t : TagTable) (s : Scanner) : Option (List Signal × Scanner) :=
  (startTag? s.cursor).map fun tag =>
    let opened := openTag t tag ⟨s.cursor.offset, tag.cursor.offset⟩ s.stack
    let after :=
      match tag.cursor.rest with
      | '\n' :: rest => if dropsNewline tag.tag then tag.cursor.past ['\n'] rest else tag.cursor
      | _ => tag.cursor
    (opened.1, ⟨after, opened.2⟩)

/-- Reads the construct ahead, if there is one that can be read. -/
def construct? (t : TagTable) (comments : Bool) (s : Scanner) : Option (List Signal × Scanner) :=
  let ahead := s.cursor.rest
  if "<!--".toList.isPrefixOf ahead then s.comment? comments
  else if "<![CDATA[".toList.isPrefixOf ahead then s.cdata?
  else if "<![".toList.isPrefixOf ahead then s.skipTo? "]>".toList
  else if (ahead.take 10).map Char.toLower = "<!doctype ".toList then s.skipTo? ['>']
  else if "</".toList.isPrefixOf ahead then s.end? t
  else if ahead.head? = some '<' then s.start? t
  else none

/-- Reads the raw content of the innermost open tag, up to its end tag or the end of the source. -/
def rawText (t : TagTable) (tag : String) (s : Scanner) : List Signal × Scanner :=
  let (content, endTag, rest) := (rawEnd? tag s.cursor.rest).getD (s.cursor.rest, [], [])
  let skipped := if dropsNewline tag && content.head? = some '\n' then ['\n'] else []
  let textStart := s.cursor.offset + byteLength skipped
  let textEnd := s.cursor.past content rest
  let after := textEnd.past endTag rest
  let text := textSignals (content.drop skipped.length) textStart
  if endTag.isEmpty then (text, { s with cursor := after })
  else
    let closed := closeTag t tag ⟨textEnd.offset, after.offset⟩ s.stack
    (text ++ closed.1, ⟨after, closed.2⟩)

/-- Reads text up to the next construct. If none can be read here either, all that is left is
text. -/
def text (s : Scanner) : List Signal × Scanner :=
  let run := textRun s.cursor.rest
  if run.1.isEmpty then
    let after := s.cursor.past s.cursor.rest []
    (textSignals s.cursor.rest s.cursor.offset ++
      [.warning (.malformedTag (String.ofList s.cursor.rest)) ⟨s.cursor.offset, after.offset⟩],
     { s with cursor := after })
  else (textSignals run.1 s.cursor.offset, { s with cursor := s.cursor.past run.1 run.2 })

/-- The raw text tag that the scan stands in. -/
def rawTag? (t : TagTable) (s : Scanner) : Option String :=
  (s.stack.head?.filter fun o => t.isRawText o.key).map (·.tag)

/-- Reads the next piece of the source. -/
def step (t : TagTable) (comments : Bool) (s : Scanner) : List Signal × Scanner :=
  match s.rawTag? t with
  | some tag => s.rawText t tag
  | none => (s.construct? t comments).getD s.text

/-! ## Every step takes at least one character -/

theorem length_lt_of_cut? {mark cs before after : List Char} (hm : 0 < mark.length)
    (h : cut? mark cs = some (before, after)) : after.length < cs.length := by
  have := length_eq_of_cut? h
  omega

theorem length_lt_of_map_cut? {mark cs : List Char} {r : List Signal × Scanner}
    {f : List Char × List Char → List Signal × Scanner} (hm : 0 < mark.length)
    (hf : ∀ p, (f p).2.cursor.rest = p.2) (h : (cut? mark cs).map f = some r) :
    r.2.cursor.rest.length < cs.length := by
  obtain ⟨p, hp, rfl⟩ := Option.map_eq_some_iff.mp h
  rw [hf]
  exact length_lt_of_cut? hm hp

theorem length_lt_of_end? {t : TagTable} {s : Scanner} {r : List Signal × Scanner}
    (h : s.end? t = some r) : r.2.cursor.rest.length < s.cursor.rest.length := by
  obtain ⟨⟨name, gap, rest⟩, hp, rfl⟩ := Option.map_eq_some_iff.mp h
  have := congrArg List.length (append_eq_of_endTag? hp)
  simp only [List.length_append, List.length_cons] at this
  show rest.length < s.cursor.rest.length
  omega

theorem length_lt_of_start? {t : TagTable} {s : Scanner} {r : List Signal × Scanner}
    (h : s.start? t = some r) : r.2.cursor.rest.length < s.cursor.rest.length := by
  obtain ⟨tag, htag, rfl⟩ := Option.map_eq_some_iff.mp h
  have hlt := length_lt_of_startTag? htag
  split
  · next rest hrest =>
    rw [hrest] at hlt
    split
    · simp only [Cursor.past, List.length_cons] at hlt ⊢
      omega
    · rw [hrest]
      exact hlt
  · exact hlt

theorem length_lt_of_construct? {t : TagTable} {comments : Bool} {s : Scanner}
    {r : List Signal × Scanner} (h : s.construct? t comments = some r) :
    r.2.cursor.rest.length < s.cursor.rest.length := by
  unfold construct? at h
  dsimp only at h
  split at h
  · exact length_lt_of_map_cut? (by decide) (fun _ => rfl) h
  split at h
  · exact length_lt_of_map_cut? (by decide) (fun _ => rfl) h
  split at h
  · exact length_lt_of_map_cut? (by decide) (fun _ => rfl) h
  split at h
  · exact length_lt_of_map_cut? (by decide) (fun _ => rfl) h
  split at h
  · exact length_lt_of_end? h
  split at h
  · exact length_lt_of_start? h
  · cases h

theorem length_lt_of_rawEnd? {tag : String} {cs content endTag rest : List Char}
    (h : rawEnd? tag cs = some (content, endTag, rest)) : rest.length < cs.length := by
  unfold rawEnd? at h
  split at h
  · next before after hcut =>
    obtain ⟨p, hp, heq⟩ := Option.map_eq_some_iff.mp h
    cases heq
    have := length_lt_of_cut? (by decide) hp
    rw [List.length_drop] at this
    omega
  · cases h

theorem rest_rawText (t : TagTable) (tag : String) (s : Scanner) :
    (s.rawText t tag).2.cursor.rest =
    ((rawEnd? tag s.cursor.rest).getD (s.cursor.rest, [], [])).2.2 := by
  unfold rawText
  dsimp only
  split <;> rfl

theorem length_rawText_lt (t : TagTable) (tag : String) (s : Scanner) (hs : s.cursor.rest ≠ []) :
    (s.rawText t tag).2.cursor.rest.length < s.cursor.rest.length := by
  rw [rest_rawText]
  cases h : rawEnd? tag s.cursor.rest with
  | some p => exact length_lt_of_rawEnd? h
  | none => exact List.length_pos_iff.mpr hs

/-- Nothing is lost between a run of text and what follows it. -/
theorem textRun_append (cs : List Char) : (textRun cs).1 ++ (textRun cs).2 = cs := by
  induction cs with
  | nil => rfl
  | cons c cs ih =>
    unfold textRun
    split
    · rfl
    · simpa using ih

theorem length_text_lt (s : Scanner) (hs : s.cursor.rest ≠ []) :
    s.text.2.cursor.rest.length < s.cursor.rest.length := by
  unfold text
  dsimp only
  split
  · exact List.length_pos_iff.mpr hs
  · next h =>
    have := congrArg List.length (textRun_append s.cursor.rest)
    have hpos : 0 < (textRun s.cursor.rest).1.length := by
      cases hr : (textRun s.cursor.rest).1 with
      | nil => simp [hr] at h
      | cons c cs => simp
    simp only [List.length_append] at this
    show (textRun s.cursor.rest).2.length < s.cursor.rest.length
    omega

/-- A step on a source that has not ended takes at least one character. -/
theorem length_step_lt (t : TagTable) (comments : Bool) (s : Scanner) (hs : s.cursor.rest ≠ []) :
    (s.step t comments).2.cursor.rest.length < s.cursor.rest.length := by
  unfold step
  split
  · exact length_rawText_lt t _ s hs
  · cases h : s.construct? t comments with
    | some r => exact length_lt_of_construct? h
    | none => exact length_text_lt s hs

/-- The signals from here to the end of the source, where all open tags are closed. -/
def run (t : TagTable) (comments : Bool) (s : Scanner) : List Signal :=
  if _h : s.cursor.rest = [] then
    s.stack.flatMap (closeSignals t ⟨s.cursor.offset, s.cursor.offset⟩ true)
  else
    let next := s.step t comments
    next.1 ++ run t comments next.2
termination_by s.cursor.rest.length
decreasing_by exact length_step_lt t comments s _h

end Scanner

def read (t : TagTable) (comments : Bool) (source : String) : List Signal :=
  Scanner.run t comments { cursor := { rest := source.toList } }

end TemplateCompiler.Markup
