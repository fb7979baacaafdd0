import TemplateCompiler.Proofs.Segments
import TemplateCompiler.Proofs.SlicedTags

/-!
# Reading markup by byte offsets

The scanner with an offset into the source in place of a cursor. Where the scanner stands at its
offset, a step with slices gives what a step of the scanner gives, and leaves it at its offset
again. So a template is read into the same signals, and no slice is missing on the way (`read_eq`).
-/

namespace TemplateCompiler.Sliced

open Text Markup Option
open List hiding find?

/-- The signals of a step, the offset behind it, and the tags that are open then. -/
abbrev Step := List Signal × Nat × List OpenTag

def view (r : List Signal × Scanner) : Step := (r.1, r.2.cursor.offset, r.2.stack)

/-! ## Text -/

def startsMarkup (source : List Char) (offset : Nat) : Option Bool := do
  let ahead ← sliceFrom? source offset
  let tag ← endTag source offset
  let behind ← sliceFrom? ahead 1
  return "<!--".toList.isPrefixOf ahead || "<![".toList.isPrefixOf ahead || tag.isSome ||
    behind.head?.any isNameStart

/-- Goes to the next `<`, and past it if no construct starts there. -/
def textEndTurn (source : List Char) (offset : Nat) : Option (Nat ⊕ Nat) := do
  let ahead ← sliceFrom? source offset
  match find? ['<'] ahead with
  | none => return .inr (byteLength source)
  | some length =>
    let starts ← startsMarkup source (offset + length)
    return if starts then .inr (offset + length) else .inl (offset + length + 1)

def textEnd (source : List Char) (offset : Nat) : Option Nat :=
  loop? (fun i => byteLength source - i) (textEndTurn source) offset

def text (source : List Char) (offset : Nat) (stack : List OpenTag) : Option Step := do
  let stop ← textEnd source offset
  if offset < stop then
    let content ← slice? source offset stop
    return (textSignals content offset, stop, stack)
  else
    let rest ← sliceFrom? source offset
    return (textSignals rest offset ++
      [.warning (.malformedTag (String.ofList rest)) ⟨offset, byteLength source⟩],
      byteLength source, stack)

variable {source taken mark rest ahead cs : List Char} {c : Cursor} {t : TagTable}
  {stack : List OpenTag} {tag : String}

theorem startsMarkup_eq (h : c.At source) {rest : List Char} (hrest : c.rest = '<' :: rest) :
    startsMarkup source c.offset = some (Markup.startsMarkup c.rest) := by
  have hbehind : sliceFrom? ('<' :: rest) 1 = some rest := sliceFrom?_cons '<' rest
  unfold startsMarkup Markup.startsMarkup
  simp only [h.slice, endTag_eq h, hrest, hbehind, bind_eq_bind, bind_some, isSome_map, tail_cons]
  rfl

theorem textEnd_eq (h : c.At source) :
    textEnd source c.offset = some (c.offset + byteLength (textRun c.rest).1) := by
  have hstart : c.offset + byteLength (textRun c.rest).1 =
      c.offset + byteLength (textRun (Cursor.ofOffset source c.offset).rest).1 := by
    rw [h.ofOffset_eq]
  rw [hstart]
  -- the text that has been passed and the text ahead are the run as a whole
  refine loop?_eq_some (fun i => ∃ c : Cursor, c.At source ∧ c.offset = i)
    (fun i => i + byteLength (textRun (Cursor.ofOffset source i).rest).1) (fun i hi => ?_)
    ⟨c, h, rfl⟩
  obtain ⟨c, h, rfl⟩ := hi
  have hlen := h.byteLength_eq
  rw [h.ofOffset_eq]
  unfold textEndTurn
  simp only [h.slice, bind_eq_bind, bind_some]
  cases hcut : cut? ['<'] c.rest with
  | none =>
    have hrun := Scanner.textRun_append_of_not_mem (not_mem_of_cut?_eq_none hcut) []
    rw [append_nil] at hrun
    rw [find?, hcut, hrun, hlen]
    simp [textRun]
  | some p =>
    obtain ⟨before, rest⟩ := p
    have hrest := append_eq_of_cut? hcut
    rw [List.append_assoc, singleton_append] at hrest
    have hat : (c.past before ('<' :: rest)).At source := h.past hrest
    have hstarts : startsMarkup source (c.offset + byteLength before) = _ := startsMarkup_eq hat rfl
    have hrun : (textRun c.rest).1 = before ++ (textRun ('<' :: rest)).1 := by
      rw [← hrest, Scanner.textRun_append_of_not_mem (not_mem_of_cut? hcut)]
    rw [find?_of_cut? hcut]
    simp only [hstarts, bind_some]
    split
    · next hmarkup =>
      left
      have hnone : (textRun ('<' :: rest)).1 = [] := by rw [textRun, if_pos ⟨rfl, hmarkup⟩]
      rw [hrun, hnone, append_nil]
      rfl
    · next hmarkup =>
      right
      have hpast : (c.past (before ++ ['<']) rest).At source := h.past (by rw [← hrest]; simp)
      have hoff : (c.past (before ++ ['<']) rest).offset = c.offset + byteLength before + 1 := by
        simp [Cursor.past, Nat.add_assoc]
        rfl
      have hmore : (textRun ('<' :: rest)).1 = '<' :: (textRun rest).1 := by
        rw [textRun, if_neg fun hc => hmarkup hc.2]
      have hlen' := hpast.byteLength_eq
      refine ⟨_, rfl, ?_, ⟨_, hpast, hoff⟩, ?_⟩
      · omega
      · rw [← hoff, hpast.ofOffset_eq, hoff, hrun, hmore]
        simp [Cursor.past, Nat.add_assoc]
        rfl

theorem text_eq (h : c.At source) (stack : List OpenTag) :
    text source c.offset stack = some (view (Scanner.text ⟨c, stack⟩)) := by
  have hrun := Scanner.textRun_append c.rest
  have hlen := h.byteLength_eq
  unfold text Scanner.text
  simp only [textEnd_eq h, h.slice, bind_eq_bind, bind_some]
  cases hfirst : (textRun c.rest).1 with
  | nil =>
    simp [view, Cursor.past, hlen]
  | cons d ds =>
    have hpos := byteLength_pos (cons_ne_nil d ds)
    obtain ⟨before, hsrc, hoff⟩ := sliceFrom?_eq_some_iff.mp h
    have hparts : source = before ++ ((d :: ds) ++ (textRun c.rest).2) := by
      rw [hsrc, ← hfirst, hrun]
    rw [if_pos (by omega), slice?_of_eq hparts hoff rfl]
    rfl

/-! ## Comments, sections and doctypes -/

def comment (comments : Bool) (source : List Char) (offset : Nat) (stack : List OpenTag) :
    Option (Option Step) := do
  let ahead ← sliceFrom? source offset
  return (find? "-->".toList ahead).map fun stop =>
    (if comments then
      [.event (.comment (String.ofList ((slice? ahead 4 stop).getD []))
        ⟨offset, offset + (stop + 3)⟩)]
     else [],
     offset + (stop + 3), stack)

def cdata (source : List Char) (offset : Nat) (stack : List OpenTag) : Option (Option Step) := do
  let ahead ← sliceFrom? source offset
  match find? "]]>".toList ahead with
  | none => return none
  | some stop =>
    let content ← slice? ahead 9 stop
    return some (textSignals content (offset + 9), offset + (stop + 3), stack)

def skipTo (mark source : List Char) (offset : Nat) (stack : List OpenTag) :
    Option (Option Step) := do
  let ahead ← sliceFrom? source offset
  return (find? mark ahead).map fun stop => ([], offset + (stop + byteLength mark), stack)

theorem offset_past :
    (c.past (taken ++ mark) rest).offset = c.offset + (byteLength taken + byteLength mark) := by
  rw [Cursor.past, byteLength_append]

theorem slice?_behind {opening inner mark ahead after : List Char} {start : Nat}
    (hcut : cut? mark ahead = some (opening ++ inner, after))
    (hstart : byteLength opening = start) :
    slice? ahead start (byteLength (opening ++ inner)) = some inner := by
  have hparts := (append_eq_of_cut? hcut).symm
  rw [List.append_assoc, List.append_assoc] at hparts
  exact slice?_of_eq hparts hstart (by rw [byteLength_append, hstart])

theorem comment_eq (h : c.At source) (hopening : "<!--".toList.isPrefixOf c.rest)
    (comments : Bool) (stack : List OpenTag) :
    comment comments source c.offset stack =
      some ((Scanner.comment? comments ⟨c, stack⟩).map view) := by
  unfold comment Scanner.comment?
  simp only [h.slice, find?, bind_eq_bind, bind_some]
  cases hcut : cut? "-->".toList c.rest with
  | none => rfl
  | some p =>
    obtain ⟨before, after⟩ := p
    have hcont : (slice? c.rest 4 (byteLength before)).getD [] = before.drop 4 := by
      rcases behind_or_inside hopening hcut (by decide) with ⟨inner, rfl⟩ | ⟨x, xs, heq, -⟩
      · have hslice : slice? c.rest 4 _ = some inner := slice?_behind hcut rfl
        rw [hslice]
        rfl
      · have hshort := congrArg byteLength heq
        have hfew := congrArg List.length heq
        have hpos := byteLength_pos (cons_ne_nil x xs)
        rw [byteLength_append] at hshort
        rw [length_append] at hfew
        have hfour : byteLength "<!--".toList = 4 := rfl
        have hfour' : "<!--".toList.length = 4 := rfl
        rw [slice?, if_neg (by omega), drop_eq_nil_of_le (by omega)]
        rfl
    simp only [map_some, hcont, view, offset_past]
    rfl

theorem cdata_eq (h : c.At source) (hopening : "<![CDATA[".toList.isPrefixOf c.rest) :
    cdata source c.offset stack = some ((Scanner.cdata? ⟨c, stack⟩).map view) := by
  unfold cdata Scanner.cdata?
  simp only [h.slice, find?, bind_eq_bind, bind_some]
  cases hcut : cut? "]]>".toList c.rest with
  | none => rfl
  | some p =>
    obtain ⟨before, after⟩ := p
    obtain ⟨inner, rfl⟩ := opening_prefix_of_cut? hopening hcut (by decide) (by decide)
    have hslice : slice? c.rest 9 _ = some inner := slice?_behind hcut rfl
    simp only [map_some, hslice, bind_some, view, offset_past]
    rfl

theorem skipTo_eq (h : c.At source) :
    skipTo mark source c.offset stack = some ((Scanner.skipTo? mark ⟨c, stack⟩).map view) := by
  unfold skipTo Scanner.skipTo?
  simp only [h.slice, find?, bind_eq_bind, bind_some]
  cases cut? mark c.rest with
  | none => rfl
  | some p => simp only [map_some, view, offset_past, Option.pure_def]

/-! ## Letters of either case -/

theorem utf8Size_toLower (c : Char) : c.toLower.utf8Size = c.utf8Size := by
  unfold Char.toLower
  split
  · next h =>
    -- both letters are among the characters of one byte
    have hupper : c.val ≤ 127 := by grind
    have hlower : c.val + 32 ≤ 127 := by grind
    exact (if_pos hlower).trans (if_pos hupper).symm
  · rfl

theorem byteLength_map_toLower : byteLength (cs.map Char.toLower) = byteLength cs := by
  induction cs with
  | nil => rfl
  | cons c cs ih => rw [map_cons, byteLength_cons, byteLength_cons, utf8Size_toLower, ih]

def startsDoctype (ahead : List Char) : Bool :=
  (sliceTo? ahead 10).any fun start => start.map Char.toLower = "<!doctype ".toList

theorem startsDoctype_iff :
    startsDoctype ahead ↔ (ahead.take 10).map Char.toLower = "<!doctype ".toList := by
  unfold startsDoctype
  rw [Option.any_eq_true]
  constructor
  · rintro ⟨start, hstart, hlower⟩
    have hlower := of_decide_eq_true hlower
    obtain ⟨before, after, rfl, hbef, -⟩ := slice?_eq_some_iff.mp hstart
    obtain rfl := byteLength_eq_zero_iff.mp hbef
    have hlen : start.length = 10 := by
      rw [← length_map, hlower]
      rfl
    rw [nil_append, ← hlen, take_left, hlower]
  · intro hlower
    have hbytes : byteLength (ahead.take 10) = 10 := by
      rw [← byteLength_map_toLower, hlower]
      rfl
    exact ⟨_, sliceTo?_of_eq (take_append_drop 10 ahead).symm hbytes, decide_eq_true hlower⟩

/-! ## Tags and raw text -/

def closing (t : TagTable) (source : List Char) (offset : Nat) (stack : List OpenTag) :
    Option (Option Step) := do
  let tag ← endTag source offset
  return tag.map fun (name, length) =>
    let closed := closeTag t (String.ofList name) ⟨offset, offset + length⟩ stack
    (closed.1, offset + length, closed.2)

def opening (t : TagTable) (source : List Char) (offset : Nat) (stack : List OpenTag) :
    Option (Option Step) := do
  match ← startTag source offset with
  | none => return none
  | some (tag, attrs, selfClosing, stop) =>
    let rest ← sliceFrom? source stop
    let opened := openTag t ⟨tag, attrs, selfClosing, ⟨stop, rest⟩⟩ ⟨offset, stop⟩ stack
    let after := if dropsNewline tag && rest.head? = some '\n' then stop + 1 else stop
    return some (opened.1, after, opened.2)

def rawEnd (tag : String) (ahead : List Char) : Option (Option (Nat × Nat)) :=
  match find? ('<' :: '/' :: (asciiLower tag).toList) (ahead.map Char.toLower) with
  | none => return none
  | some start => do
    let behind ← sliceFrom? ahead start
    return (find? ['>'] behind).map fun close => (start, start + (close + 1))

/-- Raw content without the newline that it starts with, if that is dropped. -/
def dropNewline (drops : Bool) (content : List Char) : Option (List Char) :=
  if drops then sliceFrom? content 1 else some content

def rawText (t : TagTable) (tag : String) (source : List Char) (offset : Nat)
    (stack : List OpenTag) : Option Step := do
  let ahead ← sliceFrom? source offset
  let close ← rawEnd tag ahead
  let ends := close.getD (byteLength ahead, byteLength ahead)
  let content ← sliceTo? ahead ends.1
  let drops := dropsNewline tag && content.head? = some '\n'
  let text ← dropNewline drops content
  let signals := textSignals text (if drops then offset + 1 else offset)
  match close with
  | none => return (signals, byteLength source, stack)
  | some _ =>
    let closed := closeTag t tag ⟨offset + ends.1, offset + ends.2⟩ stack
    return (signals ++ closed.1, offset + ends.2, closed.2)

theorem closing_eq (h : c.At source) :
    closing t source c.offset stack = some ((Scanner.end? t ⟨c, stack⟩).map view) := by
  unfold closing Scanner.end?
  simp only [endTag_eq h, bind_eq_bind, bind_some]
  cases endTag? c.rest with
  | none => rfl
  | some p =>
    obtain ⟨name, gap, rest⟩ := p
    have hoff : (c.past ('<' :: '/' :: name ++ gap ++ ['>']) rest).offset =
        c.offset + (2 + byteLength name + byteLength gap + 1) := by
      simp only [Cursor.past, cons_append, byteLength_cons, byteLength_append, byteLength_nil]
      show c.offset + (1 + (1 + (byteLength name + byteLength gap + (1 + 0)))) = _
      omega
    simp only [map_some, view, hoff]
    rfl

theorem opening_eq (h : c.At source) {cs : List Char} (hrest : c.rest = '<' :: cs) :
    opening t source c.offset stack = some ((Scanner.start? t ⟨c, stack⟩).map view) := by
  unfold opening Scanner.start?
  simp only [startTag_eq h hrest, bind_eq_bind, bind_some]
  cases htag : startTag? c with
  | none => rfl
  | some tag =>
    obtain ⟨-, body, -, hpass⟩ := text_of_startTag? htag
    have hat := h.passes hpass
    simp only [map_some, hat.slice, bind_some, view]
    cases hafter : tag.cursor.rest with
    | nil => simp [openTag]
    | cons n rest =>
      by_cases hn : n = '\n'
      · subst hn
        cases hdrops : dropsNewline tag.tag <;> simp [openTag, Cursor.past]
        rfl
      · simp [openTag, hn]

theorem rawEnd_eq : rawEnd tag ahead = some ((rawEnd? tag ahead).map fun p =>
      (byteLength p.1, byteLength p.1 + byteLength p.2.1)) := by
  unfold rawEnd rawEnd? find?
  cases hcut : cut? ('<' :: '/' :: (asciiLower tag).toList) (ahead.map Char.toLower) with
  | none => rfl
  | some p =>
    obtain ⟨before, after⟩ := p
    -- the letters before the end tag take as many bytes in the other case
    have hbef : before = (ahead.take before.length).map Char.toLower := by
      have hparts := append_eq_of_cut? hcut
      rw [List.append_assoc] at hparts
      rw [map_take, ← hparts, take_left]
    have hbytes : byteLength before = byteLength (ahead.take before.length) :=
      (congrArg byteLength hbef).trans byteLength_map_toLower
    have hbehind : sliceFrom? ahead (byteLength (ahead.take before.length)) =
        some (ahead.drop before.length) :=
      sliceFrom?_of_eq (take_append_drop _ ahead).symm rfl
    simp only [map_some, hbytes, hbehind, bind_eq_bind, bind_some]
    cases cut? ['>'] (ahead.drop before.length) with
    | none => rfl
    | some p =>
      simp only [map_some, byteLength_append]
      rfl

theorem dropNewline_eq {drops : Bool} {content : List Char}
    (h : drops → content.head? = some '\n') :
    dropNewline drops content = some (content.drop (if drops then ['\n'] else []).length) := by
  cases drops with
  | false => rfl
  | true =>
    obtain ⟨cs, rfl⟩ := head?_eq_some_iff.mp (h rfl)
    exact sliceFrom?_cons '\n' cs

theorem rawText_eq (h : c.At source) :
    rawText t tag source c.offset stack = some (view (Scanner.rawText t tag ⟨c, stack⟩)) := by
  have hlen := h.byteLength_eq
  unfold rawText Scanner.rawText
  simp only [h.slice, rawEnd_eq, bind_eq_bind, bind_some]
  have htext (content : List Char) :
      dropNewline (dropsNewline tag && content.head? = some '\n') content = _ :=
    dropNewline_eq fun h => of_decide_eq_true (Bool.and_eq_true_iff.mp h).2
  have hstart (drops : Bool) : (if drops then c.offset + 1 else c.offset) =
      c.offset + byteLength (if drops then ['\n'] else []) := by cases drops <;> rfl
  cases hraw : rawEnd? tag c.rest with
  | none =>
    have hcont : sliceTo? c.rest (byteLength c.rest) = some c.rest :=
      sliceTo?_of_eq (append_nil _).symm rfl
    simp only [map_none, getD_none, hcont, bind_some, htext, hstart]
    rw [hlen]
    rfl
  | some p =>
    obtain ⟨content, ended, rest⟩ := p
    have hparts := Scanner.append_eq_of_rawEnd? hraw
    have hcont : sliceTo? c.rest (byteLength content) = some content :=
      sliceTo?_of_eq hparts.symm rfl
    have hended : ended.isEmpty = false := by
      unfold rawEnd? at hraw
      split at hraw
      · obtain ⟨p, -, heq⟩ := map_eq_some_iff.mp hraw
        cases heq
        simp
      · cases hraw
    simp only [map_some, getD_some, hcont, bind_some, htext, hstart, hended]
    simp [view, Cursor.past, Nat.add_assoc]

/-! ## The scan -/

def construct (t : TagTable) (comments : Bool) (source : List Char) (offset : Nat)
    (stack : List OpenTag) : Option (Option Step) := do
  let ahead ← sliceFrom? source offset
  if "<!--".toList.isPrefixOf ahead then comment comments source offset stack
  else if "<![CDATA[".toList.isPrefixOf ahead then cdata source offset stack
  else if "<![".toList.isPrefixOf ahead then skipTo "]>".toList source offset stack
  else if startsDoctype ahead then skipTo ['>'] source offset stack
  else if "</".toList.isPrefixOf ahead then closing t source offset stack
  else if ahead.head? = some '<' then opening t source offset stack
  else return none

def step (t : TagTable) (comments : Bool) (source : List Char) (offset : Nat)
    (stack : List OpenTag) : Option Step :=
  match (stack.head?.filter fun o => t.isRawText o.key).map (·.tag) with
  | some tag => rawText t tag source offset stack
  | none => do
    match ← construct t comments source offset stack with
    | some r => return r
    | none => text source offset stack

/-- Takes a step, or ends the scan at the end of the source. The state is the offset, the open tags
and the signals so far. -/
def turn (t : TagTable) (comments : Bool) (source : List Char)
    (s : Nat × List OpenTag × List Signal) :
    Option ((Nat × List OpenTag × List Signal) ⊕ List Signal) := do
  if s.1 < byteLength source then
    let (signals, offset, stack) ← step t comments source s.1 s.2.1
    return .inl (offset, stack, s.2.2 ++ signals)
  else
    let span := ⟨byteLength source, byteLength source⟩
    return .inr (s.2.2 ++ s.2.1.flatMap (closeSignals t span true))

def read (t : TagTable) (comments : Bool) (source : List Char) : Option (List Signal) :=
  loop? (fun s => byteLength source - s.1) (turn t comments source) (0, [], [])

variable (t : TagTable) (comments : Bool) (stack : List OpenTag)

section

variable (h : c.At source)

include h

theorem construct_eq : construct t comments source c.offset stack =
      some ((Scanner.construct? t comments ⟨c, stack⟩).map view) := by
  unfold construct Scanner.construct?
  simp only [h.slice, bind_eq_bind, bind_some, startsDoctype_iff]
  split
  · next hopening => exact comment_eq h hopening comments stack
  split
  · next hopening => exact cdata_eq h hopening
  split
  · exact skipTo_eq h
  split
  · exact skipTo_eq h
  split
  · exact closing_eq h
  split
  · next hhead =>
    obtain ⟨cs, hrest⟩ := head?_eq_some_iff.mp hhead
    exact opening_eq h hrest
  · rfl

theorem step_eq :
    step t comments source c.offset stack = some (view (Scanner.step t comments ⟨c, stack⟩)) := by
  have hraw : (stack.head?.filter fun o => t.isRawText o.key).map (·.tag) =
      Scanner.rawTag? t ⟨c, stack⟩ := rfl
  unfold step Scanner.step
  rw [hraw]
  cases Scanner.rawTag? t ⟨c, stack⟩ with
  | some tag => exact rawText_eq h
  | none =>
    simp only [construct_eq t comments stack h, bind_eq_bind, bind_some]
    cases Scanner.construct? t comments ⟨c, stack⟩ with
    | none => exact text_eq h stack
    | some r => rfl

end

theorem read_eq (source : String) :
    read t comments source.toList = some (Markup.read t comments source) := by
  have hstart : Markup.read t comments source =
      [] ++ Scanner.run t comments ⟨.ofOffset source.toList 0, []⟩ := by
    rw [Cursor.ofOffset, sliceFrom?_zero]
    rfl
  rw [hstart]
  refine loop?_eq_some (fun s : Nat × List OpenTag × List Signal =>
      SoundTags t s.2.1 ∧ ∃ c : Cursor, c.At source.toList ∧ c.offset = s.1)
    (fun s => s.2.2 ++ Scanner.run t comments ⟨.ofOffset source.toList s.1, s.2.1⟩) (fun s hs => ?_)
    ⟨trivial, ⟨0, source.toList⟩, sliceFrom?_zero, rfl⟩
  obtain ⟨_, stack, signals⟩ := s
  obtain ⟨hsound, c, h, rfl⟩ := hs
  have hlen := h.byteLength_eq
  rw [h.ofOffset_eq]
  unfold turn
  by_cases hend : c.rest = []
  · left
    have hoff : c.offset = byteLength source.toList := by
      rw [hlen, hend]
      rfl
    rw [if_neg (by rw [hoff]; exact Nat.lt_irrefl _), Scanner.run, dif_pos hend, hoff]
    rfl
  · right
    obtain ⟨segments, hreads⟩ : ∃ segments, Scanner.Reads t comments ⟨c, stack⟩ segments _ :=
      Scanner.reads_step hsound hend
    have hat := h.passes hreads.passes
    have hlt := h.offset_lt hat (Scanner.length_step_lt t comments ⟨c, stack⟩ hend)
    have hlen' := hat.byteLength_eq
    rw [if_pos (by omega), step_eq t comments stack h, Scanner.run, dif_neg hend]
    refine ⟨_, rfl, ?_, ⟨hreads.stack, _, hat, rfl⟩, ?_⟩
    · omega
    · simp only [hat.ofOffset_eq, List.append_assoc]

end TemplateCompiler.Sliced
