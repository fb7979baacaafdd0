import TemplateCompiler.Proofs.Printing

/-!
# Where texts come from

A text is raw content, the content of a CDATA section, the rest of a source that has no more
constructs to read, or a run of text. Raw content is delivered as it is written, but for the
newlines behind its start tag: one is skipped with the tag and one more with the content
(`read_rawContent`).

A run of text ends where a construct starts. What starts a construct is said twice in the scanner,
by `construct?` for the place where it stands and by `startsMarkup` for the places ahead, and the
two do not agree on doctypes. `read_text` says that this is the only difference: inside a run of
text the scanner, if it stood there, could read a doctype and nothing else.
-/

namespace TemplateCompiler.Markup

open Text List Option

variable {tag content : String} {span : Span}

/-! ## Raw content -/

theorem rawEnd?_endChars (htag : IsTagName tag) {content : List Char}
    (h : ¬ '<' :: '/' :: (asciiLower tag).toList <:+: content.map Char.toLower) :
    rawEnd? tag (content ++ endChars tag) = some (content, endChars tag, []) :=
  (Scanner.rawEnd?_eq_some_iff htag).mpr
    ⟨tag, [], rfl, not_mem_nil, by simp [endChars], by simp, h⟩

namespace Scanner

variable {t : TagTable} {comments : Bool} {tag : String}

theorem run_rawContent (htag : IsTagName tag) (hraw : t.isRawText tag) {content : List Char}
    (h : ¬ '<' :: '/' :: (asciiLower tag).toList <:+: content.map Char.toLower) (start : Nat) :
    let skipped := skippedNewline tag content
    let stop := start + byteLength content
    run t comments ⟨⟨start, content ++ endChars tag⟩, [⟨tag, span⟩]⟩ =
      textSignals (content.drop skipped.length) (start + byteLength skipped) ++
        [.event (.closed tag ⟨stop, stop + byteLength (endChars tag)⟩)] := by
  intro skipped stop
  have hrawTag : rawTag? t ⟨⟨start, content ++ endChars tag⟩, [⟨tag, span⟩]⟩ = some tag := by
    have hkey : t.isRawText (OpenTag.key ⟨tag, span⟩) := by
      rwa [TagTable.isRawText, OpenTag.key, asciiLower_asciiLower]
    rw [rawTag?, head?_cons, filter_some, if_pos hkey]
    rfl
  have hstep : step t comments ⟨⟨start, content ++ endChars tag⟩, [⟨tag, span⟩]⟩ =
      (textSignals (content.drop skipped.length) (start + byteLength skipped) ++
          [.event (.closed tag ⟨stop, stop + byteLength (endChars tag)⟩)],
        ⟨⟨stop + byteLength (endChars tag), []⟩, []⟩) := by
    have hclosed (at' : Span) :
        closeTag t tag at' [⟨tag, span⟩] = ([.event (.closed tag at')], []) := by
      simp [closeTag, OpenTag.key, closeSignals]
    simp only [step, hrawTag, rawText, rawEnd?_endChars htag h, getD_some, Cursor.past, hclosed]
    rfl
  rw [run, dif_neg (by simp [endChars]), hstep]
  simp [run]

/-- The cursor behind a start tag without attributes, which has passed the newline it skips. -/
theorem run_rawStart (htag : IsTagName tag) (hunary : t.isUnary (asciiLower tag) = false)
    (content rest : List Char) (hrest : rest.head? = some '<') :
    let start := byteLength (startChars tag [] false)
    let skipped := skippedNewline tag content
    run t comments ⟨⟨0, startChars tag [] false ++ (content ++ rest)⟩, []⟩ =
      .event (.opened tag [] false ⟨0, start⟩) ::
        run t comments ⟨⟨start + byteLength skipped, content.drop skipped.length ++ rest⟩,
          [⟨tag, ⟨0, start⟩⟩]⟩ := by
  intro start skipped
  have himplied (span : Span) : closeImplied t tag span [] = ([], []) := by
    simp [closeImplied, innermost?]
  have hread : start? t ⟨⟨0, startChars tag [] false ++ (content ++ rest)⟩, []⟩ =
      some ([.event (.opened tag [] false ⟨0, start⟩)],
        ⟨⟨start + byteLength skipped, content.drop skipped.length ++ rest⟩,
          [⟨tag, ⟨0, start⟩⟩]⟩) := by
    simp only [start?, startTag?_startChars htag (fun _ hmem => absurd hmem not_mem_nil), map_some,
      openTag, himplied, hunary, Bool.or_false, nil_append, attrsFrom, Nat.zero_add]
    simp only [skipped, skippedNewline]
    cases content with
    | nil =>
      obtain ⟨_, rfl⟩ := head?_eq_some_iff.mp hrest
      simp [start]
    | cons c cs =>
      by_cases hc : c = '\n'
      · subst hc
        by_cases hdrops : dropsNewline tag <;> simp [hdrops, start, Cursor.past]
      · simp [hc, start]
  exact run_of_start? (fun _ hmem => by cases hmem) htag hread

end Scanner

open Scanner (skippedNewline)

/-- How many newlines are skipped between a start tag and its raw content. -/
def rawSkip (tag : String) (content : List Char) : Nat :=
  if dropsNewline tag then ((content.take 2).takeWhile (· = '\n')).length else 0

theorem rawSkip_eq (tag : String) (content : List Char) :
    let first := skippedNewline tag content
    let second := skippedNewline tag (content.drop first.length)
    rawSkip tag content = first.length + second.length ∧
      byteLength first = first.length ∧ byteLength second = second.length ∧
      (second = [] ↔ ¬ (dropsNewline tag ∧ ['\n', '\n'] <+: content)) := by
  intro first second
  have hsize (c : List Char) :
      byteLength (skippedNewline tag c) = (skippedNewline tag c).length := by
    unfold skippedNewline
    split <;> rfl
  refine ⟨?_, hsize _, hsize _, ?_⟩
  all_goals
    simp only [rawSkip, second, first, skippedNewline]
    by_cases hdrops : dropsNewline tag
    · rcases content with _ | ⟨c, _ | ⟨d, cs⟩⟩
      · simp [hdrops]
      · by_cases hc : c = '\n' <;> simp [hdrops, hc]
      · by_cases hc : c = '\n' <;> by_cases hd : d = '\n' <;> simp [hdrops, hc, hd, eq_comm]
    · simp [hdrops]

/-- **Raw content is delivered as it is written, up to two newlines.** Between a start tag whose
content is raw and its end tag, any text without the end tag in it is one text event, at its place.
A tag that drops a newline drops two of them, if the content starts with two. -/
theorem read_rawContent (t : TagTable) (comments : Bool) (tag : String) (htag : IsTagName tag)
    (hraw : t.isRawText tag) (hunary : t.isUnary (asciiLower tag) = false) (content : List Char)
    (h : ¬ '<' :: '/' :: (asciiLower tag).toList <:+: content.map Char.toLower) :
    let start := byteLength (startChars tag [] false)
    let stop := start + byteLength content
    read t comments (String.ofList (startChars tag [] false ++ (content ++ endChars tag))) =
        .event (.opened tag [] false ⟨0, start⟩) ::
          (textSignals (content.drop (rawSkip tag content)) (start + rawSkip tag content) ++
            [.event (.closed tag ⟨stop, stop + byteLength (endChars tag)⟩)]) ∧
      (rawSkip tag content = (skippedNewline tag content).length ↔
        ¬ (dropsNewline tag ∧ ['\n', '\n'] <+: content)) := by
  intro start stop
  obtain ⟨hskip, hfirst, hsecond, hboth⟩ := rawSkip_eq tag content
  have hdrop : ¬ '<' :: '/' :: (asciiLower tag).toList <:+:
      (content.drop (skippedNewline tag content).length).map Char.toLower := by
    refine fun hin => h (hin.trans ?_)
    rw [map_drop]
    exact (drop_suffix _ _).isInfix
  constructor
  · have hlength : byteLength content = byteLength (skippedNewline tag content) +
        byteLength (content.drop (skippedNewline tag content).length) := by
      unfold skippedNewline
      split
      · next hnewline =>
        obtain ⟨cs, rfl⟩ := head?_eq_some_iff.mp
          (of_decide_eq_true (Bool.and_eq_true_iff.mp hnewline).2)
        rfl
      · simp
    rw [read, String.toList_ofList]
    refine (Scanner.run_rawStart htag hunary content _ rfl).trans (congrArg _ ?_)
    refine (Scanner.run_rawContent htag hraw hdrop _).trans ?_
    rw [drop_drop, hsecond, ← hskip]
    simp only [start, stop, hlength, hfirst, hskip, Nat.add_assoc]
  · rw [hskip, ← hboth, Nat.add_eq_left, length_eq_zero_iff]

/-- Of two newlines behind the start tag, the content of this one keeps none. -/
theorem read_rawContent_textarea : read {} false "<textarea>\n\nx</textarea>" =
      [.event (.opened "textarea" [] false ⟨0, 10⟩), .event (.text "x" ⟨12, 13⟩),
        .event (.closed "textarea" ⟨13, 24⟩)] := by
  have h := (read_rawContent {} false "textarea" (by decide) (by decide) (by decide)
    "\n\nx".toList (by decide)).1
  have hchars : String.ofList (startChars "textarea" [] false ++
    ("\n\nx".toList ++ endChars "textarea")) = "<textarea>\n\nx</textarea>" := by decide
  rw [hchars] at h
  exact h.trans (by decide)

/-! ## Runs of text -/

def OpensDoctype (cs : List Char) : Prop :=
  (cs.take 10).map Char.toLower = "<!doctype ".toList ∧ '>' ∈ cs

/-- In a run of text, no place is one where `startsMarkup` sees a construct. -/
theorem startsMarkup_of_mem_textRun {cs front back : List Char}
    (h : (textRun cs).1 = front ++ '<' :: back) :
    startsMarkup ('<' :: back ++ (textRun cs).2) = false := by
  induction cs generalizing front with
  | nil => simp [textRun] at h
  | cons c cs ih =>
    unfold textRun at h ⊢
    split at h
    · simp at h
    · next hmarkup =>
      rw [if_neg hmarkup]
      cases front with
      | nil =>
        obtain ⟨rfl, rfl⟩ := List.cons.inj h
        rw [cons_append, Scanner.textRun_append]
        exact Bool.eq_false_iff.mpr fun hstarts => hmarkup ⟨rfl, hstarts⟩
      | cons x front => exact ih (List.cons.inj h).2

namespace Scanner

variable {t : TagTable} {comments : Bool} {s : Scanner}

/-- Where `startsMarkup` sees no construct, the scanner can read a doctype and nothing else. -/
theorem isSome_construct?_iff (hless : s.cursor.rest.head? = some '<')
    (h : startsMarkup s.cursor.rest = false) :
    (s.construct? t comments).isSome ↔ OpensDoctype s.cursor.rest := by
  obtain ⟨tail, hrest⟩ := head?_eq_some_iff.mp hless
  rw [construct?_of_not_startsMarkup hrest h]
  split
  · next hdoctype =>
    rw [skipTo?, isSome_map]
    refine ⟨fun hcut => ⟨hdoctype, ?_⟩, fun hopens => ?_⟩
    · obtain ⟨p, hp⟩ := isSome_iff_exists.mp hcut
      rw [← append_eq_of_cut? hp]
      simp
    · exact ne_none_iff_isSome.mp fun hnone => not_mem_of_cut?_eq_none hnone hopens.2
  · next hdoctype => exact iff_of_false Bool.false_ne_true fun hopens => hdoctype hopens.1

/-- Where a step takes a text from. In a run of text, a doctype is the only construct that the
scanner could read if it stood there. -/
inductive TextFrom (t : TagTable) (comments : Bool) (s : Scanner) (content : List Char) : Prop
  | raw (hraw : (s.rawTag? t).isSome)
  | cdata (hcdata : "<![CDATA[".toList <+: s.cursor.rest) (hread : s.cdata?.isSome)
  | malformed (hstarts : startsMarkup s.cursor.rest) (hall : content = s.cursor.rest)
  | run (rest : List Char) (hrest : s.cursor.rest = content ++ rest)
      (hinside : ∀ front back, content = front ++ '<' :: back → ∀ offset stack,
        (construct? t comments ⟨⟨offset, '<' :: back ++ rest⟩, stack⟩).isSome ↔
          OpensDoctype ('<' :: back ++ rest))

theorem mem_textSignals {chars : List Char} {start : Nat}
    (h : .event (.text content span) ∈ textSignals chars start) : content.toList = chars := by
  unfold textSignals at h
  split at h
  · cases h
  · cases mem_singleton.mp h
    exact String.toList_ofList

theorem textFrom_of_step (h : .event (.text content span) ∈ (s.step t comments).1) :
    TextFrom t comments s content.toList := by
  have htakes := s.takes_step t comments
  generalize s.step t comments = r at htakes h
  have hplaced := mem_placed h rfl
  cases htakes with
  | raw hraw => exact .raw hraw
  | cdata hstarts hread =>
    refine .cdata ?_ hread
    exact isPrefixOf_iff_prefix.mp hstarts
  | run =>
    have hcont := mem_textSignals h
    refine .run (textRun s.cursor.rest).2 (by rw [hcont, textRun_append]) ?_
    intro front back hsplit offset stack
    exact isSome_construct?_iff rfl (startsMarkup_of_mem_textRun (hcont ▸ hsplit))
  | malformed hempty =>
    rcases mem_append.mp h with hmem | hmem
    · refine .malformed ?_ (mem_textSignals hmem)
      cases hrest : s.cursor.rest with
      | nil => rw [hrest] at hmem; cases hmem
      | cons c cs =>
        rw [hrest] at hempty
        unfold textRun at hempty
        split at hempty
        · next hstarts => exact hstarts.2
        · cases hempty
    · cases mem_singleton.mp hmem
  | comment | skipped => simp at h
  | closed content hraw start name span =>
    rcases mem_append.mp h with hmem | hmem
    · rcases hraw with rfl | hraw
      · cases hmem
      · exact .raw hraw
    · have hplaced := mem_placed hmem rfl
      rcases placed_closeTag t name span s.stack with hnone | ⟨-, unary, hone⟩
      · rw [hnone] at hplaced
        cases hplaced
      · rw [hone] at hplaced
        cases mem_singleton.mp hplaced
  | opened =>
    dsimp only [openTag] at hplaced
    rw [placed_append, placed_closeImplied] at hplaced
    cases mem_singleton.mp hplaced

/-- The states that the scanner comes to on a source. -/
inductive Reached (t : TagTable) (comments : Bool) (source : String) : Scanner → Prop
  | start : Reached t comments source { cursor := { rest := source.toList } }
  | step {s : Scanner} (h : Reached t comments source s) (hrest : s.cursor.rest ≠ []) :
      Reached t comments source (s.step t comments).2

theorem exists_step_of_mem_run {source : String}
    (hs : Reached t comments source s) (h : .event (.text content span) ∈ run t comments s) :
    ∃ s', Reached t comments source s' ∧ .event (.text content span) ∈ (s'.step t comments).1 := by
  fun_induction run t comments s with
  | case1 s hend =>
    have hplaced := mem_placed h rfl
    rw [placed_flatMap_closeSignals] at hplaced
    cases hplaced
  | case2 s hend next ih =>
    rcases mem_append.mp h with hmem | hmem
    · exact ⟨s, hs, hmem⟩
    · exact ih (.step hs hend) hmem

end Scanner

/-- **A run of text ends at the next construct that is not a doctype.** Every text event of a source
comes from a step of the scanner, which took it from raw content, from a CDATA section, from a rest
of the source that it could not read, or from a run of text. Wherever a `<` stands in a run of text,
the scanner, if it stood there, could read a doctype and nothing else. -/
theorem read_text (t : TagTable) (comments : Bool) (source content : String) (span : Span)
    (h : .event (.text content span) ∈ read t comments source) :
    ∃ s, Scanner.Reached t comments source s ∧ .event (.text content span) ∈ (s.step t comments).1 ∧
      s.TextFrom t comments content.toList := by
  obtain ⟨s, hs, hmem⟩ := Scanner.exists_step_of_mem_run .start h
  exact ⟨s, hs, hmem, Scanner.textFrom_of_step hmem⟩

/-- A doctype behind a letter is text, although the scanner could read it. -/
theorem read_text_doctype :
    .event (.text "a<!DOCTYPE html>b" ⟨0, 17⟩) ∈ read {} false "a<!DOCTYPE html>b" ∧
      (Scanner.construct? {} false ⟨⟨1, "<!DOCTYPE html>b".toList⟩, []⟩).isSome ∧
      ∃ s, Scanner.Reached {} false "a<!DOCTYPE html>b" s ∧
        s.TextFrom {} false "a<!DOCTYPE html>b".toList := by
  have hmem : .event (.text "a<!DOCTYPE html>b" ⟨0, 17⟩) ∈ read {} false "a<!DOCTYPE html>b" := by
    decide +kernel
  obtain ⟨s, hs, -, hfrom⟩ := read_text {} false _ _ _ hmem
  exact ⟨hmem, by decide, s, hs, hfrom⟩

end TemplateCompiler.Markup
