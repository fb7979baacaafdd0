import TemplateCompiler.Proofs.Nesting
import TemplateCompiler.Proofs.TagGrammar

/-!
# Reading cuts the source into segments

A source is a row of segments, one behind the other: tags, comments, sections, doctypes, skipped
newlines and text. Each kind of segment has its form (`Segment.Proper`) and the events it yields
(`Segment.Yields`), with the place of each inside the segment.

Main result: `read_segments`. For every source, table of tags and treatment of comments there are
segments that make up the source, and the events that do not close a tag are those of the segments,
in their order. So no text is invented, lost or read twice: what the source has outside of markup is
what the text events hold, each at its place.

One step of the scanner takes a few segments (`Scanner.Reads`), one lemma per construct; the whole
source follows along the scanner's recursion. What the places are like is then read off the segments
alone.
-/

namespace TemplateCompiler.Markup

open Text List Option

variable {s : Segment} {es : List Event} {t : TagTable} {e : Event} {stack outer : List OpenTag}
  {tag name : String} {cs content ended rest : List Char} {start : Nat} {comments missing : Bool}

/-! ## Segments -/

/-- A part of the source that is read as one thing. -/
inductive Segment where
  /-- A start tag: its name, and what follows the name. -/
  | startTag (tag : String) (body : List Char)
  /-- An end tag: its name, and what stands between the name and the `>`. -/
  | endTag (tag : String) (gap : List Char)
  /-- A comment, without its `-->`. -/
  | comment (before : List Char)
  /-- The content of a CDATA section. -/
  | cdata (content : List Char)
  /-- Any other section in `<![…]>`, without its `]>`. -/
  | marked (before : List Char)
  /-- A doctype, without its `>`. -/
  | doctype (before : List Char)
  /-- A newline that is skipped. -/
  | newline
  /-- A run of text, or the raw content of a tag. -/
  | text (content : List Char)

namespace Segment

def chars : Segment → List Char
  | .startTag tag body => '<' :: tag.toList ++ body
  | .endTag tag gap => '<' :: '/' :: tag.toList ++ gap ++ ['>']
  | .comment before => before ++ "-->".toList
  | .cdata content => "<![CDATA[".toList ++ content ++ "]]>".toList
  | .marked before => before ++ "]>".toList
  | .doctype before => before ++ ['>']
  | .newline => ['\n']
  | .text content => content

/-- The form of a segment. What is delimited by a mark ends at the first one. The opening of a
comment may overlap its end. -/
def Proper : Segment → Prop
  | .startTag tag body => IsTagName tag ∧ TagBody true body
  | .endTag tag gap => IsTagName tag ∧ '>' ∉ gap
  | .comment before => "<!--".toList <+: before ++ "-->".toList ∧ ¬ "-->".toList <:+: before
  | .cdata content => ¬ "]]>".toList <:+: content
  | .marked before =>
    "<![".toList <+: before ∧ ¬ "<![CDATA[".toList <+: before ∧ ¬ "]>".toList <:+: before
  | .doctype before => (before.take 10).map Char.toLower = "<!doctype ".toList ∧ '>' ∉ before
  | .newline => True
  | .text content => content ≠ []

end Segment

def textAt (start : Nat) (content : List Char) : List Event :=
  if content.isEmpty then []
  else [.text (String.ofList content) ⟨start, start + byteLength content⟩]

/-- The events of a segment at an offset. A start tag opens its tag. So does an end tag of a line
break or a paragraph, if nothing is open for it to close. -/
def Segment.Yields (comments : Bool) (start : Nat) (s : Segment) (es : List Event) : Prop :=
  let span : Span := ⟨start, start + byteLength s.chars⟩
  match s with
  | .startTag tag _ => ∃ attrs unary, es = [.opened tag attrs unary span]
  | .endTag tag _ =>
    es = [] ∨ (asciiLower tag = "br" ∨ asciiLower tag = "p") ∧
      ∃ unary, es = [.opened tag [] unary span]
  | .comment before =>
    es = if comments then [.comment (String.ofList (before.drop 4)) span] else []
  | .cdata content => es = textAt (start + 9) content
  | .text content => es = textAt start content
  | .marked _ | .doctype _ | .newline => es = []

/-- The events of segments one behind the other, the first of them at an offset. -/
inductive Yields (comments : Bool) : Nat → List Segment → List Event → Prop
  | nil (start : Nat) : Yields comments start [] []
  | cons {start : Nat} {s : Segment} {segments : List Segment} {es more : List Event}
      (hs : s.Yields comments start es)
      (hmore : Yields comments (start + byteLength s.chars) segments more) :
      Yields comments start (s :: segments) (es ++ more)

namespace Yields

variable {comments : Bool} {start : Nat}

theorem single (h : s.Yields comments start es) : Yields comments start [s] es := by
  have hcons := Yields.cons h (.nil _)
  rwa [append_nil] at hcons

theorem append {xs ys : List Segment} {fs : List Event} (hxs : Yields comments start xs es)
    (hys : Yields comments (start + byteLength (xs.flatMap Segment.chars)) ys fs) :
    Yields comments start (xs ++ ys) (es ++ fs) := by
  induction hxs with
  | nil => exact hys
  | cons hs _ ih =>
    rw [flatMap_cons, byteLength_append, ← Nat.add_assoc] at hys
    rw [List.append_assoc]
    exact .cons hs (ih hys)

end Yields

def Segment.textFrom (start : Nat) : Segment → List Event
  | .cdata content => textAt (start + 9) content
  | .text content => textAt start content
  | _ => []

def textsFrom : Nat → List Segment → List Event
  | _, [] => []
  | start, s :: segments => s.textFrom start ++ textsFrom (start + byteLength s.chars) segments

/-- How many newlines may be skipped behind a start tag. The raw content of a tag has one of its
own to skip. -/
def newlinesAfter (t : TagTable) (tag : String) : Nat :=
  if dropsNewline tag then if t.isRawText tag then 2 else 1 else 0

/-- Newlines are skipped only behind start tags, and no more of them than the tag lets one skip. -/
def NewlinesFollow (t : TagTable) : Nat → List Segment → Prop
  | _, [] => True
  | allowed, .newline :: rest => 0 < allowed ∧ NewlinesFollow t (allowed - 1) rest
  | _, .startTag tag _ :: rest => NewlinesFollow t (newlinesAfter t tag) rest
  | _, _ :: rest => NewlinesFollow t 0 rest

theorem NewlinesFollow.mono {segments : List Segment} {k l : Nat}
    (h : NewlinesFollow t k segments) (hkl : k ≤ l) : NewlinesFollow t l segments := by
  induction segments generalizing k l with
  | nil => exact h
  | cons s segments ih =>
    cases s with
    | newline => exact ⟨by have := h.1; omega, ih h.2 (by omega)⟩
    | _ => exact h

/-! ## The events of a step -/

def Event.closes : Event → Bool
  | .closed _ _ => true
  | _ => false

def Event.span : Event → Span
  | .opened _ _ _ span => span
  | .closed _ span => span
  | .text _ span => span
  | .comment _ span => span

def Event.text? : Event → Option String
  | .text content _ => some content
  | _ => none

/-- The events among some signals that do not close a tag. -/
def placed (signals : List Signal) : List Event := (events signals).filter fun e => !e.closes

theorem mem_placed {signals : List Signal} (h : .event e ∈ signals)
    (hcloses : e.closes = false) : e ∈ placed signals :=
  mem_filter.mpr ⟨mem_filterMap.mpr ⟨_, h, rfl⟩, by simp [hcloses]⟩

theorem placed_append (xs ys : List Signal) : placed (xs ++ ys) = placed xs ++ placed ys := by
  simp [placed, events]

theorem placed_textSignals : placed (textSignals content start) = textAt start content := by
  unfold textSignals textAt
  split <;> rfl

theorem placed_closeSignals (span : Span) (o : OpenTag) :
    placed (closeSignals t span missing o) = [] := by
  unfold closeSignals
  split <;> rfl

theorem placed_flatMap_closeSignals (span : Span) :
    placed (stack.flatMap (closeSignals t span true)) = [] := by
  induction stack with
  | nil => rfl
  | cons o stack ih => rw [flatMap_cons, placed_append, placed_closeSignals, ih]; rfl

theorem placed_closeTag_of_mem (h : ∃ o ∈ stack, o.key = asciiLower name) (span : Span) :
    placed (closeTag t name span stack).1 = [] := by
  obtain ⟨o, ho, hkey⟩ := h
  unfold closeTag
  split
  · rw [placed_append, placed_flatMap_closeSignals]
    rfl
  · next hnone =>
    have hall := dropWhile_eq_nil_iff.mp hnone o ho
    simp [hkey] at hall

theorem placed_unmatchedSignals (span : Span) :
    placed (unmatchedSignals name span) = [] ∨ (asciiLower name = "br" ∨ asciiLower name = "p") ∧
      ∃ unary, placed (unmatchedSignals name span) = [.opened name [] unary span] := by
  unfold unmatchedSignals
  split
  · next hbr => exact .inr ⟨.inl hbr, true, rfl⟩
  split
  · next hp => exact .inr ⟨.inr hp, false, rfl⟩
  · exact .inl rfl

theorem placed_closeTag (t : TagTable) (name : String) (span : Span) (stack : List OpenTag) :
    placed (closeTag t name span stack).1 = [] ∨ (asciiLower name = "br" ∨ asciiLower name = "p") ∧
        ∃ unary, placed (closeTag t name span stack).1 = [.opened name [] unary span] := by
  by_cases h : ∃ o ∈ stack, o.key = asciiLower name
  · exact .inl (placed_closeTag_of_mem h span)
  · have hnone : stack.dropWhile (·.key ≠ asciiLower name) = [] := by
      rw [dropWhile_eq_nil_iff]
      intro o ho
      simpa using fun hkey => h ⟨o, ho, hkey⟩
    have hunmatched : (closeTag t name span stack).1 = unmatchedSignals name span := by
      unfold closeTag
      simp only [hnone]
    rw [hunmatched]
    exact placed_unmatchedSignals span

theorem mem_of_innermost? {key : String} (h : innermost? stack = some key) :
    ∃ o ∈ stack, o.key = key := by
  obtain ⟨o, ho, hkey⟩ := map_eq_some_iff.mp h
  exact ⟨o, mem_of_head? ho, hkey⟩

theorem placed_closeImplied (span : Span) : placed (closeImplied t name span stack).1 = [] := by
  refine closeImplied_induct (P := fun so => placed so.1 = []) rfl ?_ name
  intro inner so hopen hso
  rw [placed_append, hso, placed_closeTag_of_mem (mem_of_innermost? hopen)]
  rfl

/-! ## The open tags -/

theorem closeTag_suffix (t : TagTable) (name : String) (span : Span) (stack : List OpenTag) :
    (closeTag t name span stack).2 <:+ stack := by
  unfold closeTag
  split
  · next target outer htgt =>
    have hdrop := dropWhile_suffix (l := stack) (·.key ≠ asciiLower name)
    rw [htgt] at hdrop
    exact (suffix_cons target outer).trans hdrop
  · exact suffix_rfl

theorem closeImplied_suffix (t : TagTable) (name : String) (span : Span) (stack : List OpenTag) :
    (closeImplied t name span stack).2 <:+ stack :=
  closeImplied_induct suffix_rfl
    (fun inner so _ hso => (closeTag_suffix t inner span so.2).trans hso) name

def PlainTags (t : TagTable) (stack : List OpenTag) : Prop :=
  ∀ o ∈ stack, IsTagName o.tag ∧ ¬ t.isRawText o.key

/-- Open tags with proper names, of which only the innermost may have raw content. -/
def SoundTags (t : TagTable) : List OpenTag → Prop
  | [] => True
  | o :: outer => IsTagName o.tag ∧ PlainTags t outer

theorem PlainTags.of_suffix {inner : List OpenTag} (h : PlainTags t outer)
    (hsuffix : inner <:+ outer) : PlainTags t inner := fun o ho => h o (hsuffix.mem ho)

theorem PlainTags.sound (h : PlainTags t stack) :
    SoundTags t stack := by
  cases stack with
  | nil => trivial
  | cons o outer => exact ⟨(h o mem_cons_self).1, fun x hx => h x (mem_cons_of_mem o hx)⟩

namespace Scanner

variable {t : TagTable} {comments : Bool} {s : Scanner} {r : List Signal × Scanner}

/-- How many newlines may be skipped where the scanner stands. -/
def allowed (t : TagTable) (s : Scanner) : Nat :=
  match s.rawTag? t with
  | some tag => if dropsNewline tag && !s.cursor.rest.isEmpty then 1 else 0
  | none => 0

theorem rawTag?_of_plain (h : PlainTags t s.stack) : s.rawTag? t = none := by
  unfold rawTag?
  rw [map_eq_none_iff, filter_eq_none_iff]
  exact fun o ho => (h o (mem_of_head? ho)).2

theorem plain_of_rawTag? (hsound : SoundTags t s.stack) (h : s.rawTag? t = none) :
    PlainTags t s.stack := by
  unfold rawTag? at h
  rw [map_eq_none_iff, filter_eq_none_iff] at h
  cases hstk : s.stack with
  | nil => exact fun o ho => nomatch ho
  | cons o outer =>
    rw [hstk] at hsound h
    intro x hx
    rcases mem_cons.mp hx with rfl | hx
    · exact ⟨hsound.1, h x rfl⟩
    · exact hsound.2 x hx

theorem exists_of_rawTag? (h : s.rawTag? t = some tag) :
    ∃ o outer, s.stack = o :: outer ∧ o.tag = tag ∧ t.isRawText o.key := by
  obtain ⟨o, ho, rfl⟩ := map_eq_some_iff.mp h
  obtain ⟨hhead, hraw⟩ := filter_eq_some_iff.mp ho
  cases hstk : s.stack with
  | nil => rw [hstk] at hhead; cases hhead
  | cons x outer =>
    rw [hstk] at hhead
    cases hhead
    exact ⟨o, outer, rfl, rfl, hraw⟩

theorem allowed_of_plain (h : PlainTags t s.stack) : allowed t s = 0 := by
  unfold allowed
  rw [rawTag?_of_plain h]

/-! ## One step -/

/-- A step of the scanner takes some segments and yields their events. -/
structure Reads (t : TagTable) (comments : Bool) (s : Scanner) (segments : List Segment)
    (r : List Signal × Scanner) : Prop where
  passes : s.cursor.Passes (segments.flatMap Segment.chars) r.2.cursor
  proper : ∀ x ∈ segments, x.Proper
  yields : Yields comments s.cursor.offset segments (placed r.1)
  stack : SoundTags t r.2.stack
  newlines : ∀ later, NewlinesFollow t (allowed t r.2) later →
    NewlinesFollow t (allowed t s) (segments ++ later)

/-- A step that takes one segment, neither a start tag nor a newline, and leaves no raw content. -/
theorem Reads.single {x : Segment} (hpasses : s.cursor.Passes x.chars r.2.cursor)
    (hproper : x.Proper) (hyields : x.Yields comments s.cursor.offset (placed r.1))
    (hstk : PlainTags t r.2.stack)
    (hx : ∀ k later, NewlinesFollow t 0 later → NewlinesFollow t k (x :: later)) :
    Reads t comments s [x] r where
  passes := by simpa using hpasses
  proper := by simpa using hproper
  yields := .single hyields
  stack := hstk.sound
  newlines later hlater := hx _ later (by rwa [allowed_of_plain hstk] at hlater)

section

variable (hstk : PlainTags t s.stack)

include hstk

theorem reads_of_comment?
    (hopening : "<!--".toList.isPrefixOf s.cursor.rest) (h : s.comment? comments = some r) :
    ∃ segments, Reads t comments s segments r := by
  obtain ⟨⟨before, after⟩, hcut, rfl⟩ := map_eq_some_iff.mp h
  have hrest := append_eq_of_cut? hcut
  refine ⟨[.comment before], .single (.past hrest.symm) ⟨?_, ?_⟩ ?_ hstk fun _ _ h => h⟩
  · have hstarts := isPrefixOf_iff_prefix.mp hopening
    refine prefix_of_prefix_length_le hstarts ⟨after, hrest⟩ ?_
    -- the end of the comment is not at the very start
    cases before with
    | nil => rw [← hrest] at hopening; cases hopening
    | cons c before =>
      have hlen : "<!--".toList.length = 4 ∧ "-->".toList.length = 3 := ⟨rfl, rfl⟩
      rw [length_append, length_cons]
      omega
  · exact not_infix_of_cut? (by decide) hcut
  · cases comments <;> rfl

theorem reads_of_cdata?
    (hopening : "<![CDATA[".toList.isPrefixOf s.cursor.rest) (h : s.cdata? = some r) :
    ∃ segments, Reads t comments s segments r := by
  obtain ⟨⟨before, after⟩, hcut, rfl⟩ := map_eq_some_iff.mp h
  obtain ⟨content, rfl⟩ := opening_prefix_of_cut? hopening hcut (by decide) (by decide)
  refine ⟨[.cdata content], .single (.past (append_eq_of_cut? hcut).symm) ?_ ?_ hstk fun _ _ h => h⟩
  · intro hmark
    exact not_infix_of_cut? (by decide) hcut (hmark.trans (suffix_append _ _).isInfix)
  · exact placed_textSignals

theorem reads_of_marked (hopening : "<![".toList.isPrefixOf s.cursor.rest)
    (hcdata : ¬ "<![CDATA[".toList.isPrefixOf s.cursor.rest) (h : s.skipTo? "]>".toList = some r) :
    ∃ segments, Reads t comments s segments r := by
  obtain ⟨⟨before, after⟩, hcut, rfl⟩ := map_eq_some_iff.mp h
  have hrest := append_eq_of_cut? hcut
  obtain ⟨inner, rfl⟩ := opening_prefix_of_cut? hopening hcut (by decide) (by decide)
  refine ⟨[.marked _], .single (.past hrest.symm) ⟨prefix_append _ _, ?_, ?_⟩ rfl hstk
    fun _ _ h => h⟩
  · intro hstarts
    refine hcdata <| isPrefixOf_iff_prefix.mpr (hstarts.trans ?_)
    rw [← hrest, List.append_assoc]
    exact prefix_append _ _
  · exact not_infix_of_cut? (by decide) hcut

theorem reads_of_doctype (hopening : (s.cursor.rest.take 10).map Char.toLower = "<!doctype ".toList)
    (h : s.skipTo? ['>'] = some r) : ∃ segments, Reads t comments s segments r := by
  obtain ⟨⟨before, after⟩, hcut, rfl⟩ := map_eq_some_iff.mp h
  have hrest := append_eq_of_cut? hcut
  have hlong : 10 ≤ before.length := by
    by_contra hshort
    -- otherwise the end of the doctype would be one of its first ten characters
    obtain ⟨k, hk⟩ : ∃ k, 10 - before.length = k + 1 := ⟨9 - before.length, by omega⟩
    have hmem : '>' ∈ s.cursor.rest.take 10 := by
      rw [← hrest, List.append_assoc, take_append, hk]
      simp
    have hlower := List.mem_map_of_mem (f := Char.toLower) hmem
    rw [hopening] at hlower
    exact absurd hlower (by decide)
  refine ⟨[.doctype before], .single (.past hrest.symm) ⟨?_, not_mem_of_cut? hcut⟩ rfl hstk
    fun _ _ h => h⟩
  rw [← hopening, ← hrest, List.append_assoc, take_append_of_le_length hlong]

theorem reads_of_end? (h : s.end? t = some r) : ∃ segments, Reads t comments s segments r := by
  obtain ⟨⟨name, gap, rest⟩, hend, rfl⟩ := map_eq_some_iff.mp h
  have hchars : Segment.chars (.endTag (String.ofList name) gap) =
      '<' :: '/' :: name ++ gap ++ ['>'] := by
    show '<' :: '/' :: (String.ofList name).toList ++ gap ++ ['>'] = _
    rw [String.toList_ofList]
  refine ⟨[.endTag (String.ofList name) gap], .single ?_ ?_ ?_ ?_ fun _ _ h => h⟩
  · rw [hchars]
    refine .past ?_
    rw [← append_eq_of_endTag? hend, List.append_assoc _ ['>'], singleton_append]
  · obtain ⟨htag, -, hgap, -⟩ := endTag?_eq_some_iff.mp hend
    exact ⟨htag, hgap⟩
  · unfold Segment.Yields
    rw [hchars]
    exact placed_closeTag t _ _ s.stack
  · exact hstk.of_suffix (closeTag_suffix t _ _ s.stack)

/-- Behind a start tag, its own raw content is the only one that may be ahead. -/
theorem allowed_openTag (tag : StartTag) (span : Span) (after : Cursor) :
    allowed t ⟨after, (openTag t tag span s.stack).2⟩ + (if dropsNewline tag.tag then 1 else 0) ≤
      newlinesAfter t tag.tag := by
  have himplied := hstk.of_suffix (closeImplied_suffix t tag.tag span s.stack)
  have hclosed : allowed t ⟨after, (closeImplied t tag.tag span s.stack).2⟩ = 0 :=
    allowed_of_plain himplied
  have hraw (o : OpenTag) (outer : List OpenTag) : rawTag? t ⟨after, o :: outer⟩ =
      if t.isRawText o.key then some o.tag else none := by
    by_cases h : t.isRawText o.key
    · rw [rawTag?, head?_cons, filter_some, if_pos h, if_pos h]
      rfl
    · rw [rawTag?, head?_cons, filter_some, if_neg h, if_neg h]
      rfl
  have hkey : t.isRawText (OpenTag.key ⟨tag.tag, span⟩) = t.isRawText tag.tag := by
    rw [TagTable.isRawText, OpenTag.key, asciiLower_asciiLower]
    rfl
  unfold openTag newlinesAfter
  dsimp only
  split
  · split
    · split <;> omega
    · omega
  · unfold allowed
    rw [hraw, hkey]
    by_cases hdrop : dropsNewline tag.tag <;> by_cases htext : t.isRawText tag.tag
    · simp only [hdrop, htext, if_true]
      split <;> omega
    all_goals simp [hdrop, htext]

theorem reads_of_start? (h : s.start? t = some r) : ∃ segments, Reads t comments s segments r := by
  obtain ⟨tag, htag, rfl⟩ := map_eq_some_iff.mp h
  obtain ⟨hname, body, hbody, hpasses⟩ := text_of_startTag? htag
  have himplied := hstk.of_suffix
    (closeImplied_suffix t tag.tag ⟨s.cursor.offset, tag.cursor.offset⟩ s.stack)
  have hyields : Segment.Yields comments s.cursor.offset (.startTag tag.tag body)
      (placed (openTag t tag ⟨s.cursor.offset, tag.cursor.offset⟩ s.stack).1) := by
    refine ⟨tag.attrs, t.isUnary (asciiLower tag.tag) || tag.selfClosing, ?_⟩
    unfold openTag
    rw [placed_append, placed_closeImplied, hpasses.offset]
    rfl
  have hsound : SoundTags t (openTag t tag ⟨s.cursor.offset, tag.cursor.offset⟩ s.stack).2 := by
    unfold openTag
    dsimp only
    split
    · exact himplied.sound
    · exact ⟨hname, himplied⟩
  have hallowed (after : Cursor) :=
    allowed_openTag hstk tag ⟨s.cursor.offset, tag.cursor.offset⟩ after
  -- where no newline is skipped, the tag is all there is
  have hsingle : ∃ segments, Reads t comments s segments
      ((openTag t tag ⟨s.cursor.offset, tag.cursor.offset⟩ s.stack).1,
        ⟨tag.cursor, (openTag t tag ⟨s.cursor.offset, tag.cursor.offset⟩ s.stack).2⟩) := by
    refine ⟨[.startTag tag.tag body], ?_, ?_, .single hyields, hsound, ?_⟩
    · rw [flatMap_cons, flatMap_nil, append_nil]
      exact hpasses
    · intro x hx
      rw [mem_singleton.mp hx]
      exact ⟨hname, hbody⟩
    · intro later hlater
      have hle := hallowed tag.cursor
      show NewlinesFollow t (newlinesAfter t tag.tag) later
      exact NewlinesFollow.mono hlater (by dsimp only; omega)
  split
  · next rest hrest =>
    split
    · next hdrop =>
      refine ⟨[.startTag tag.tag body, .newline], hpasses.trans (.past hrest), ?_, ?_, hsound, ?_⟩
      · intro x hx
        rcases mem_cons.mp hx with rfl | hx
        · exact ⟨hname, hbody⟩
        · rw [mem_singleton.mp hx]
          trivial
      · have hnewline (start : Nat) : Segment.Yields comments start .newline [] := rfl
        simpa using (Yields.single hyields).append (.single (hnewline _))
      · intro later hlater
        have hle := hallowed (tag.cursor.past ['\n'] rest)
        rw [if_pos hdrop] at hle
        exact ⟨by omega, NewlinesFollow.mono hlater (by dsimp only; omega)⟩
    · exact hsingle
  · exact hsingle

end

theorem append_eq_of_rawEnd?
    (h : rawEnd? tag cs = some (content, ended, rest)) : content ++ (ended ++ rest) = cs := by
  unfold rawEnd? at h
  split at h
  · next before after hcut =>
    obtain ⟨p, hp, heq⟩ := map_eq_some_iff.mp h
    cases heq
    rw [append_eq_of_cut? hp, take_append_drop]
  · cases h

/-- Raw content goes on to the first end tag of its name, in letters of either case. -/
theorem rawEnd?_eq_some_iff (htag : IsTagName tag) :
    rawEnd? tag cs = some (content, ended, rest) ↔ ∃ (name : String) (gap : List Char),
      asciiLower name = asciiLower tag ∧ '>' ∉ gap ∧
      ended = '<' :: '/' :: name.toList ++ gap ++ ['>'] ∧ content ++ (ended ++ rest) = cs ∧
      ¬ '<' :: '/' :: (asciiLower tag).toList <:+: content.map Char.toLower := by
  have hmark : '<' ∉ '/' :: (asciiLower tag).toList := by
    intro hmem
    have hmem : '<' ∈ (asciiLower tag).toList := by simpa using hmem
    exact absurd ((htag.of_toLower asciiLower_asciiLower).isNameChar_of_mem hmem) (by decide)
  have hopening {name : String} (hname : asciiLower name = asciiLower tag) :
      '>' ∉ '<' :: '/' :: name.toList := by
    intro hmem
    have hmem : '>' ∈ name.toList := by simpa using hmem
    exact absurd ((htag.of_toLower hname).isNameChar_of_mem hmem) (by decide)
  constructor
  · intro h
    have hparts := append_eq_of_rawEnd? h
    unfold rawEnd? at h
    split at h
    · next before after hcut =>
      obtain ⟨⟨inner, rest'⟩, hp, heq⟩ := map_eq_some_iff.mp h
      cases heq
      obtain ⟨hlower, hfirst⟩ := (cut?_cons_eq_some_iff hmark).mp hcut
      -- the end tag as it is written
      obtain ⟨front, more, rfl, hfront, -⟩ := map_eq_append_iff.mp hlower.symm
      obtain ⟨content, opening, rfl, rfl, hopens⟩ := map_eq_append_iff.mp hfront
      obtain ⟨less, opening', rfl, hless, hopens'⟩ := map_eq_cons_iff.mp hopens
      obtain ⟨slash, name, rfl, hslash, hname⟩ := map_eq_cons_iff.mp hopens'
      obtain rfl : less = '<' := eq_of_toLower_eq hless (by decide)
      obtain rfl : slash = '/' := eq_of_toLower_eq hslash (by decide)
      obtain ⟨name, rfl⟩ : ∃ s : String, s.toList = name := ⟨String.ofList name, by simp⟩
      have hname : asciiLower name = asciiLower tag :=
        String.toList_injective (by simpa [asciiLower] using hname)
      rw [length_map, List.append_assoc, take_left] at hparts ⊢
      rw [length_map, List.append_assoc, drop_left] at hp
      have hstart := isPrefixOf_iff_prefix.mpr <|
        prefix_append ('<' :: '/' :: name.toList) more
      have hapart x (hx : x ∈ '<' :: '/' :: name.toList) : decide (['>'].head? ≠ some x) := by
        simpa using (ne_of_mem_of_not_mem hx (hopening hname)).symm
      obtain ⟨gap, rfl⟩ :=
        opening_prefix_of_cut? hstart hp (by decide) (List.all_eq_true.mpr hapart)
      have hgap : '>' ∉ gap := fun hmem => not_mem_of_cut? hp (mem_append_right _ hmem)
      exact ⟨name, gap, hname, hgap, rfl, hparts, hfirst⟩
    · cases h
  · rintro ⟨name, gap, hname, hgap, rfl, rfl, hfirst⟩
    have hlower : content.map Char.toLower ++ '<' :: '/' :: (asciiLower tag).toList ++
          (gap ++ '>' :: rest).map Char.toLower =
        (content ++ ('<' :: '/' :: name.toList ++ gap ++ ['>'] ++ rest)).map Char.toLower := by
      rw [← hname]
      simp [asciiLower]
    have hend := cut?_singleton_append (not_mem_append (hopening hname) hgap) rest
    rw [rawEnd?, (cut?_cons_eq_some_iff hmark).mpr ⟨hlower, hfirst⟩]
    simp only [length_map, drop_left, take_left]
    rw [List.append_assoc, singleton_append, hend]
    rfl

theorem segments_of_text (t : TagTable) (comments : Bool) (content : List Char) (start : Nat) :
    ∃ segments : List Segment, segments.flatMap Segment.chars = content ∧
      (∀ x ∈ segments, x.Proper) ∧ Yields comments start segments (textAt start content) ∧
      ∀ k later, NewlinesFollow t 0 later → NewlinesFollow t k (segments ++ later) := by
  cases content with
  | nil =>
    refine ⟨[], rfl, ?_, .nil start, ?_⟩
    · exact fun x hx => absurd hx not_mem_nil
    · exact fun k later h => h.mono (Nat.zero_le k)
  | cons c cs =>
    refine ⟨[.text (c :: cs)], ?_, ?_, .single rfl, fun _ _ h => h⟩
    · exact append_nil _
    · intro x hx
      rw [mem_singleton.mp hx]
      exact cons_ne_nil c cs

def skippedNewline (tag : String) (content : List Char) : List Char :=
  if dropsNewline tag && content.head? = some '\n' then ['\n'] else []

theorem segments_of_rawText (t : TagTable) (comments : Bool) (tag : String) (content : List Char)
    (start : Nat) :
    ∃ segments : List Segment, segments.flatMap Segment.chars = content ∧
      (∀ x ∈ segments, x.Proper) ∧
      Yields comments start segments (textAt (start + byteLength (skippedNewline tag content))
        (content.drop (skippedNewline tag content).length)) ∧
      ∀ k later, (dropsNewline tag → 0 < k) → NewlinesFollow t 0 later →
        NewlinesFollow t k (segments ++ later) := by
  unfold skippedNewline
  split
  · next hskip =>
    obtain ⟨hdrop, hhead⟩ := Bool.and_eq_true_iff.mp hskip
    obtain ⟨rest, rfl⟩ := head?_eq_some_iff.mp (of_decide_eq_true hhead)
    obtain ⟨segments, hchars, hproper, hyields, hnewlines⟩ :=
      segments_of_text t comments rest (start + byteLength ['\n'])
    refine ⟨.newline :: segments, ?_, ?_, ?_, ?_⟩
    · rw [flatMap_cons, hchars]
      rfl
    · intro x hx
      rcases mem_cons.mp hx with rfl | hx
      · trivial
      · exact hproper x hx
    · have hnewline : Segment.Yields comments start .newline [] := rfl
      exact .cons hnewline hyields
    · exact fun k later hk hlater => ⟨hk hdrop, hnewlines _ later hlater⟩
  · obtain ⟨segments, hchars, hproper, hyields, hnewlines⟩ :=
      segments_of_text t comments content start
    exact ⟨segments, hchars, hproper, hyields, fun k later _ => hnewlines k later⟩

theorem rawText_of_none (h : rawEnd? tag s.cursor.rest = none) : s.rawText t tag =
      (textSignals (s.cursor.rest.drop (skippedNewline tag s.cursor.rest).length)
        (s.cursor.offset + byteLength (skippedNewline tag s.cursor.rest)),
       ⟨s.cursor.past s.cursor.rest [], s.stack⟩) := by
  unfold rawText
  rw [h]
  rfl

theorem rawText_of_some {o : OpenTag} (hstk : s.stack = o :: outer) (hne : ended ≠ [])
    (h : rawEnd? o.tag s.cursor.rest = some (content, ended, rest)) :
    ∃ span, s.rawText t o.tag = (textSignals (content.drop (skippedNewline o.tag content).length)
          (s.cursor.offset + byteLength (skippedNewline o.tag content)) ++
        closeSignals t span false o,
       ⟨(s.cursor.past content rest).past ended rest, outer⟩) := by
  have hclosed (span : Span) :
      closeTag t o.tag span s.stack = (closeSignals t span false o, outer) := by
    rw [hstk]
    simp [closeTag, OpenTag.key]
  have hsome : ¬ ended.isEmpty := by simpa using hne
  unfold rawText
  rw [h]
  simp only [getD_some, hclosed, if_neg hsome]
  exact ⟨_, rfl⟩

theorem reads_rawText (hsound : SoundTags t s.stack) (hraw : s.rawTag? t = some tag)
    (hne : s.cursor.rest ≠ []) : ∃ segments, Reads t comments s segments (s.rawText t tag) := by
  obtain ⟨o, outer, hstk, rfl, -⟩ := exists_of_rawTag? hraw
  rw [hstk] at hsound
  have hallowed : dropsNewline o.tag → 0 < allowed t s := by
    intro hdrop
    unfold allowed
    rw [hraw]
    simp [hdrop, hne]
  cases hend : rawEnd? o.tag s.cursor.rest with
  | none =>
    obtain ⟨segments, hchars, hproper, hyields, hnewlines⟩ :=
      segments_of_rawText t comments o.tag s.cursor.rest s.cursor.offset
    -- at the end of the source no newline is left to skip
    have hdone : allowed t ⟨s.cursor.past s.cursor.rest [], s.stack⟩ = 0 := by
      unfold allowed
      split
      · simp [Cursor.past]
      · rfl
    rw [rawText_of_none hend]
    refine ⟨segments, ?_, hproper, ?_, ?_, ?_⟩
    · rw [hchars]
      exact .past (append_nil _).symm
    · rw [placed_textSignals]
      exact hyields
    · rw [hstk]
      exact hsound
    · intro later hlater
      rw [hdone] at hlater
      exact hnewlines _ later hallowed hlater
  | some p =>
    obtain ⟨content, ended, rest⟩ := p
    obtain ⟨segments, hchars, hproper, hyields, hnewlines⟩ :=
      segments_of_rawText t comments o.tag content s.cursor.offset
    obtain ⟨name, gap, hname, hgap, rfl, hparts, -⟩ := (rawEnd?_eq_some_iff hsound.1).mp hend
    obtain ⟨span, hstep⟩ := rawText_of_some hstk (cons_ne_nil _ _) hend
    rw [hstep]
    refine ⟨segments ++ [.endTag name gap], ?_, ?_, ?_, hsound.2.sound, ?_⟩
    · rw [flatMap_append, hchars, flatMap_cons, flatMap_nil, append_nil]
      exact Cursor.Passes.trans (.past hparts.symm) (.past rfl)
    · intro x hx
      rcases mem_append.mp hx with hx | hx
      · exact hproper x hx
      · rw [mem_singleton.mp hx]
        exact ⟨hsound.1.of_toLower hname, hgap⟩
    · have hclosing (start : Nat) : Segment.Yields comments start (.endTag name gap) [] := .inl rfl
      rw [placed_append, placed_textSignals]
      exact hyields.append (.single (hclosing _))
    · intro later hlater
      rw [allowed_of_plain hsound.2] at hlater
      rw [List.append_assoc]
      exact hnewlines _ _ hallowed hlater

theorem textRun_append_of_not_mem {before : List Char} (h : '<' ∉ before) (rest : List Char) :
    (textRun (before ++ rest)).1 = before ++ (textRun rest).1 := by
  induction before with
  | nil => rfl
  | cons c before ih =>
    rw [mem_cons, not_or] at h
    rw [cons_append, textRun, if_neg (fun hc => h.1 hc.1.symm)]
    exact congrArg (c :: ·) (ih h.2)

theorem reads_text (hstk : PlainTags t s.stack) (hne : s.cursor.rest ≠ []) :
    ∃ segments, Reads t comments s segments s.text := by
  unfold Scanner.text
  dsimp only
  split
  · refine ⟨[.text s.cursor.rest], .single (.past ?_) ?_ ?_ hstk fun _ _ h => h⟩
    · exact (append_nil _).symm
    · exact hne
    · rw [placed_append, placed_textSignals]
      exact append_nil _
  · next hrun =>
    refine ⟨[.text (textRun s.cursor.rest).1], .single (.past ?_) ?_ ?_ hstk fun _ _ h => h⟩
    · exact (textRun_append s.cursor.rest).symm
    · exact fun hnil => hrun (List.isEmpty_iff.mpr hnil)
    · exact placed_textSignals

theorem reads_step (hsound : SoundTags t s.stack) (hne : s.cursor.rest ≠ []) :
    ∃ segments, Reads t comments s segments (s.step t comments) := by
  unfold step
  split
  · next tag hraw => exact reads_rawText hsound hraw hne
  · next hraw =>
    have hstk := plain_of_rawTag? hsound hraw
    cases h : s.construct? t comments with
    | none => exact reads_text hstk hne
    | some r =>
      unfold construct? at h
      dsimp only at h
      split at h
      · next hopening => exact reads_of_comment? hstk hopening h
      split at h
      · next hopening => exact reads_of_cdata? hstk hopening h
      split at h
      · next hcdata hopening => exact reads_of_marked hstk hopening hcdata h
      split at h
      · next hopening => exact reads_of_doctype hstk hopening h
      split at h
      · exact reads_of_end? hstk h
      split at h
      · exact reads_of_start? hstk h
      · cases h

theorem segments_of_run (t : TagTable) (comments : Bool) (s : Scanner)
    (hsound : SoundTags t s.stack) :
    ∃ segments : List Segment, segments.flatMap Segment.chars = s.cursor.rest ∧
      (∀ x ∈ segments, x.Proper) ∧ NewlinesFollow t (allowed t s) segments ∧
      Yields comments s.cursor.offset segments (placed (run t comments s)) := by
  fun_induction run t comments s with
  | case1 s hend =>
    refine ⟨[], hend.symm, ?_, trivial, ?_⟩
    · exact fun x hx => absurd hx not_mem_nil
    · rw [placed_flatMap_closeSignals]
      exact .nil _
  | case2 s hend next ih =>
    obtain ⟨taken, htaken⟩ : ∃ taken, Reads t comments s taken next := reads_step hsound hend
    obtain ⟨later, hchars, hproper, hnewlines, hyields⟩ := ih htaken.stack
    refine ⟨taken ++ later, ?_, ?_, htaken.newlines later hnewlines, ?_⟩
    · rw [flatMap_append, hchars]
      exact htaken.passes.rest.symm
    · intro x hx
      rcases mem_append.mp hx with hx | hx
      · exact htaken.proper x hx
      · exact hproper x hx
    · rw [placed_append]
      refine htaken.yields.append ?_
      rw [← htaken.passes.offset]
      exact hyields

end Scanner

/-! ## The places of the events -/

/-- An event is about a part of some characters, the first of them at an offset: its place is that
part, and if the event is a text, that part is the text. -/
def Event.LiesIn (start : Nat) (cs : List Char) (e : Event) : Prop :=
  ∃ before inner after, cs = before ++ (inner ++ after) ∧ inner ≠ [] ∧
    e.span = ⟨start + byteLength before, start + byteLength before + byteLength inner⟩ ∧
    ∀ content, e.text? = some content → content = String.ofList inner

namespace Event.LiesIn

variable {start : Nat} {cs ds : List Char} {e : Event}

theorem append_right (h : e.LiesIn start cs) (ds : List Char) : e.LiesIn start (cs ++ ds) := by
  obtain ⟨before, inner, after, rfl, hne, hspan, htext⟩ := h
  exact ⟨before, inner, after ++ ds, by simp, hne, hspan, htext⟩

theorem append_left (h : e.LiesIn (start + byteLength cs) ds) : e.LiesIn start (cs ++ ds) := by
  obtain ⟨before, inner, after, rfl, hne, hspan, htext⟩ := h
  refine ⟨cs ++ before, inner, after, by simp, hne, ?_, htext⟩
  rw [hspan, byteLength_append, ← Nat.add_assoc]

theorem bounds (h : e.LiesIn start cs) :
    start ≤ e.span.start ∧ e.span.start < e.span.stop ∧ e.span.stop ≤ start + byteLength cs := by
  obtain ⟨before, inner, after, rfl, hne, hspan, -⟩ := h
  have hpos := byteLength_pos hne
  rw [hspan, byteLength_append, byteLength_append]
  dsimp only
  omega

theorem place {source : String} (h : e.LiesIn 0 source.toList) :
    (⟨e.span.start⟩ : String.Pos.Raw).IsValid source ∧
      (⟨e.span.stop⟩ : String.Pos.Raw).IsValid source ∧
      ∀ content, e.text? = some content → content ≠ "" ∧
        slice? source.toList e.span.start e.span.stop = some content.toList := by
  obtain ⟨before, inner, after, hsrc, hne, hspan, htext⟩ := h
  have hslice : slice? source.toList e.span.start e.span.stop = some inner := by
    rw [hspan, Nat.zero_add]
    exact slice?_of_eq hsrc rfl rfl
  obtain ⟨-, hstart, hstop⟩ := isSome_slice?_iff.mp (isSome_of_eq_some hslice)
  refine ⟨hstart, hstop, fun content hcont => ?_⟩
  obtain rfl := htext content hcont
  rw [String.toList_ofList]
  exact ⟨fun hempty => hne (String.ofList_eq_empty_iff.mp hempty), hslice⟩

end Event.LiesIn

theorem liesIn_textAt (start : Nat) (h : content ≠ []) :
    ∃ e, textAt start content = [e] ∧ e.LiesIn start content := by
  refine ⟨_, if_neg (by simpa using h), [], content, [], by simp, h, ?_, ?_⟩
  · rfl
  · exact fun text htext => (Option.some.inj htext).symm

theorem liesIn_whole (hcs : cs ≠ [])
    (hspan : e.span = ⟨start, start + byteLength cs⟩) (htext : e.text? = none) :
    e.LiesIn start cs := by
  refine ⟨[], cs, [], by simp, hcs, hspan, fun content hcont => ?_⟩
  rw [htext] at hcont
  cases hcont

theorem Segment.liesIn_of_yields (hproper : s.Proper) (h : s.Yields comments start es) :
    es = [] ∨ ∃ e, es = [e] ∧ e.LiesIn start s.chars := by
  cases s with
  | startTag tag body =>
    obtain ⟨attrs, unary, rfl⟩ := h
    exact .inr ⟨_, rfl, liesIn_whole (cons_ne_nil _ _) rfl rfl⟩
  | endTag tag gap =>
    obtain rfl | ⟨-, unary, rfl⟩ := h
    · exact .inl rfl
    · exact .inr ⟨_, rfl, liesIn_whole (cons_ne_nil _ _) rfl rfl⟩
  | comment before =>
    cases comments with
    | false => exact .inl h
    | true =>
      have hne : before ++ "-->".toList ≠ [] := append_ne_nil_of_right_ne_nil _ (by decide)
      exact .inr ⟨_, h, liesIn_whole hne rfl rfl⟩
  | cdata content =>
    by_cases hcont : content = []
    · subst hcont
      exact .inl h
    · obtain ⟨e, he, hlies⟩ := liesIn_textAt (start + 9) hcont
      refine .inr ⟨e, Eq.trans h he, ?_⟩
      exact Event.LiesIn.append_right (Event.LiesIn.append_left hlies) _
  | marked before => exact .inl h
  | doctype before => exact .inl h
  | newline => exact .inl h
  | text content =>
    obtain ⟨e, he, hlies⟩ := liesIn_textAt start hproper
    exact .inr ⟨e, Eq.trans h he, hlies⟩

theorem filter_textAt :
    (textAt start content).filter (fun e => e.text?.isSome) = textAt start content := by
  unfold textAt
  split <;> rfl

theorem Segment.texts_of_yields
    (h : s.Yields comments start es) : es.filter (fun e => e.text?.isSome) = s.textFrom start := by
  cases s with
  | startTag tag body =>
    obtain ⟨attrs, unary, rfl⟩ := h
    rfl
  | endTag tag gap => obtain rfl | ⟨-, unary, rfl⟩ := h <;> rfl
  | comment before =>
    obtain rfl : es = _ := h
    cases comments <;> rfl
  | cdata content =>
    obtain rfl : es = _ := h
    exact filter_textAt
  | text content =>
    obtain rfl : es = _ := h
    exact filter_textAt
  | marked before | doctype before | newline =>
    obtain rfl : es = _ := h
    rfl

namespace Yields

variable {comments : Bool} {start : Nat} {segments : List Segment} {es : List Event}

section

variable (h : Yields comments start segments es)

include h

theorem liesIn (hproper : ∀ x ∈ segments, x.Proper) :
    ∀ e ∈ es, e.LiesIn start (segments.flatMap Segment.chars) := by
  induction h with
  | nil => exact fun e he => absurd he not_mem_nil
  | @cons start s segments es more hs hmore ih =>
    intro e he
    rcases mem_append.mp he with he | he
    · obtain rfl | ⟨e', rfl, hlies⟩ := Segment.liesIn_of_yields (hproper s mem_cons_self) hs
      · cases he
      · rw [mem_singleton.mp he]
        exact hlies.append_right _
    · exact (ih (fun x hx => hproper x (mem_cons_of_mem s hx)) e he).append_left

/-- The places of the events come one behind the other. -/
theorem ordered (hproper : ∀ x ∈ segments, x.Proper) :
    es.Pairwise fun e f => e.span.stop ≤ f.span.start := by
  induction h with
  | nil => exact .nil
  | @cons start s segments es more hs hmore ih =>
    have hlater := fun x hx => hproper x (mem_cons_of_mem s hx)
    refine pairwise_append.mpr ⟨?_, ih hlater, fun e he f hf => ?_⟩
    · obtain rfl | ⟨e, rfl, -⟩ := Segment.liesIn_of_yields (hproper s mem_cons_self) hs
      · exact .nil
      · exact pairwise_singleton _ e
    · obtain rfl | ⟨e', rfl, hlies⟩ := Segment.liesIn_of_yields (hproper s mem_cons_self) hs
      · cases he
      · have hfirst := hlies.bounds
        have hsecond := (hmore.liesIn hlater f hf).bounds
        rw [mem_singleton.mp he]
        omega

theorem texts : es.filter (fun e => e.text?.isSome) = textsFrom start segments := by
  induction h with
  | nil => rfl
  | @cons start s segments es more hs hmore ih =>
    rw [filter_append, Segment.texts_of_yields hs, ih]
    rfl

end

end Yields

/-- Every source is a row of segments, with newlines skipped only behind start tags. The events that
do not close a tag are those of the segments; the texts among them are the texts of the segments,
none empty and each the slice of the source at its place. The places are in order, apart from one
another, inside the source and at borders of characters. -/
theorem read_segments (t : TagTable) (comments : Bool) (source : String) :
    ∃ segments : List Segment,
      segments.flatMap Segment.chars = source.toList ∧ (∀ x ∈ segments, x.Proper) ∧
      NewlinesFollow t 0 segments ∧ Yields comments 0 segments (placed (read t comments source)) ∧
      (placed (read t comments source)).filter (fun e => e.text?.isSome) = textsFrom 0 segments ∧
      (placed (read t comments source)).Pairwise (fun e f => e.span.stop ≤ f.span.start) ∧
      ∀ e ∈ placed (read t comments source), e.span.start < e.span.stop ∧
        (⟨e.span.start⟩ : String.Pos.Raw).IsValid source ∧
        (⟨e.span.stop⟩ : String.Pos.Raw).IsValid source ∧
        ∀ content, e.text? = some content → content ≠ "" ∧
          slice? source.toList e.span.start e.span.stop = some content.toList := by
  obtain ⟨segments, hchars, hproper, hnewlines, hyields⟩ :=
    Scanner.segments_of_run t comments { cursor := { rest := source.toList } } trivial
  refine ⟨segments, hchars, hproper, hnewlines, hyields, hyields.texts, hyields.ordered hproper, ?_⟩
  intro e he
  have hlies := hyields.liesIn hproper e he
  rw [hchars] at hlies
  exact ⟨hlies.bounds.2.1, hlies.place⟩

end TemplateCompiler.Markup
