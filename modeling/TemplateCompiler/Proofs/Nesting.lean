import TemplateCompiler.Markup.Scanner

/-!
# The signals of a template nest

However malformed the markup, each signal that closes a tag closes the innermost open one, with its
own name, and at the end of the source no tag is open (`openAfter_read`).

`openAfter` replays signals on a list of open tags without looking at the markup. The scanner keeps
a stack of its own, and the proof shows that replaying the signals of one step turns the stack
before the step into the stack after it (`openAfter_step`). The whole run follows by induction along
the scanner's recursion.
-/

namespace TemplateCompiler.Markup

open Text Option

variable {tags : List String} {s : Scanner} {t : TagTable}

/-- The tags that are open after some signals, innermost first. There is no answer if a signal
closes a tag that is not the innermost open one. -/
def openAfter : List Signal → List String → Option (List String)
  | [], tags => some tags
  | .event (.opened tag _ unary _) :: rest, tags =>
    openAfter rest (if unary then tags else tag :: tags)
  | .event (.closed tag _) :: rest, innermost :: outer =>
    if innermost = tag then openAfter rest outer else none
  | .event (.closed _ _) :: _, [] => none
  | .event (.text _ _) :: rest, tags => openAfter rest tags
  | .event (.comment _ _) :: rest, tags => openAfter rest tags
  | .warning _ _ :: rest, tags => openAfter rest tags

theorem openAfter_append (first second : List Signal) :
    openAfter (first ++ second) tags = (openAfter first tags).bind (openAfter second) := by
  fun_induction openAfter first tags with
  | case1 tags => rfl
  | case2 tag attrs unary span rest tags ih => exact ih
  | case3 span rest innermost outer ih => simpa [openAfter] using ih
  | case4 tag span rest innermost outer hne => simp [openAfter, hne]
  | case5 tag span rest => rfl
  | case6 content span rest tags ih => exact ih
  | case7 content span rest tags ih => exact ih
  | case8 warning span rest tags ih => exact ih

def tagNames (stack : List OpenTag) : List String := stack.map (·.tag)

theorem openAfter_closeSignals (t : TagTable) (span : Span) (missing : Bool) (o : OpenTag)
    (outer : List String) :
    openAfter (closeSignals t span missing o) (o.tag :: outer) = some outer := by
  unfold closeSignals
  split <;> simp [openAfter]

/-- Closing several tags, innermost first, leaves the ones around them open. -/
theorem openAfter_flatMap_closeSignals (t : TagTable) (span : Span) (inner : List OpenTag)
    (outer : List String) :
    openAfter (inner.flatMap (closeSignals t span true)) (tagNames inner ++ outer) =
      some outer := by
  induction inner with
  | nil => rfl
  | cons o inner ih =>
    rw [List.flatMap_cons, openAfter_append]
    show (openAfter (closeSignals t span true o) (o.tag :: (tagNames inner ++ outer))).bind _ = _
    rw [openAfter_closeSignals]
    exact ih

theorem openAfter_unmatchedSignals (name : String) (span : Span) (tags : List String) :
    openAfter (unmatchedSignals name span) tags = some tags := by
  unfold unmatchedSignals
  split
  · rfl
  split
  · simp [openAfter]
  · rfl

theorem openAfter_closeTag (t : TagTable) (name : String) (span : Span) (stack : List OpenTag) :
    openAfter (closeTag t name span stack).1 (tagNames stack) =
      some (tagNames (closeTag t name span stack).2) := by
  unfold closeTag
  split
  · next target outer hdrop =>
    -- The stack is the tags inside the target, the target, and the tags around it.
    have hstk : tagNames stack =
        tagNames (stack.takeWhile (·.key ≠ asciiLower name)) ++ target.tag :: tagNames outer := by
      have hsplit := List.takeWhile_append_dropWhile (p := (·.key ≠ asciiLower name)) (l := stack)
      rw [hdrop] at hsplit
      exact (congrArg tagNames hsplit).symm.trans (by simp [tagNames])
    rw [hstk, openAfter_append, openAfter_flatMap_closeSignals]
    exact openAfter_closeSignals t span false target (tagNames outer)
  · exact openAfter_unmatchedSignals name span (tagNames stack)

/-- A start tag closes nothing implicitly, or the innermost open tag, at most twice. -/
theorem closeImplied_induct {span : Span} {stack : List OpenTag}
    {P : List Signal × List OpenTag → Prop} (hnone : P ([], stack))
    (hclose : ∀ (name : String) (so : List Signal × List OpenTag),
      innermost? so.2 = some (asciiLower name) → P so →
        P (so.1 ++ (closeTag t name span so.2).1, (closeTag t name span so.2).2))
    (name : String) : P (closeImplied t name span stack) := by
  unfold closeImplied
  dsimp only
  split
  · exact hnone
  generalize hout : (if innermost? stack = some "p" && t.isNonPhrasing (asciiLower name)
    then closeTag t "p" span stack else ([], stack)) = out
  have hparagraph : P out := by
    rw [← hout]
    split
    · next h => exact hclose "p" ([], stack) (of_decide_eq_true (Bool.and_eq_true_iff.mp h).1) hnone
    · exact hnone
  split
  · next h => exact hclose name out (of_decide_eq_true (Bool.and_eq_true_iff.mp h).2) hparagraph
  · exact hparagraph

theorem openAfter_closeImplied (t : TagTable) (name : String) (span : Span) (stack : List OpenTag) :
    openAfter (closeImplied t name span stack).1 (tagNames stack) =
      some (tagNames (closeImplied t name span stack).2) := by
  refine closeImplied_induct
    (P := fun so => openAfter so.1 (tagNames stack) = some (tagNames so.2)) rfl ?_ name
  intro inner so _ hso
  rw [openAfter_append, hso]
  exact openAfter_closeTag t inner span so.2

theorem openAfter_openTag (s : StartTag) (span : Span) (stack : List OpenTag) :
    openAfter (openTag t s span stack).1 (tagNames stack) =
      some (tagNames (openTag t s span stack).2) := by
  unfold openTag
  dsimp only
  rw [openAfter_append, openAfter_closeImplied]
  show some (if _ then _ else _) = _
  split <;> rfl

theorem openAfter_textSignals (content : List Char) (start : Nat) :
    openAfter (textSignals content start) tags = some tags := by
  unfold textSignals
  split <;> rfl

namespace Scanner

/-- Replaying the signals of a reading turns its open tags into those after it. -/
def Nests (s : Scanner) (r : List Signal × Scanner) : Prop :=
  openAfter r.1 (tagNames s.stack) = some (tagNames r.2.stack)

/-- What a step of the scanner may do, and where it may take a text from. -/
inductive Takes (t : TagTable) (comments : Bool) (s : Scanner) : List Signal × Scanner → Prop
  | raw (hraw : (s.rawTag? t).isSome) (content start after) :
      Takes t comments s (textSignals content start, ⟨after, s.stack⟩)
  | cdata (hstarts : "<![CDATA[".toList.isPrefixOf s.cursor.rest) (hread : s.cdata?.isSome)
      (content start after) : Takes t comments s (textSignals content start, ⟨after, s.stack⟩)
  | run (after) :
      Takes t comments s (textSignals (textRun s.cursor.rest).1 s.cursor.offset, ⟨after, s.stack⟩)
  | malformed (hempty : (textRun s.cursor.rest).1.isEmpty) (warning span after) :
      Takes t comments s
        (textSignals s.cursor.rest s.cursor.offset ++ [.warning warning span], ⟨after, s.stack⟩)
  | comment (content span after) :
      Takes t comments s ([.event (.comment content span)], ⟨after, s.stack⟩)
  | skipped (after) : Takes t comments s ([], ⟨after, s.stack⟩)
  | closed (content) (hraw : content = [] ∨ (s.rawTag? t).isSome) (start name span after) :
      Takes t comments s (textSignals content start ++ (closeTag t name span s.stack).1,
        ⟨after, (closeTag t name span s.stack).2⟩)
  | opened (hraw : s.rawTag? t = none) {tag} (htag : startTag? s.cursor = some tag)
      (span after) : Takes t comments s
        ((openTag t tag span s.stack).1, ⟨after, (openTag t tag span s.stack).2⟩)

theorem takes_step (t : TagTable) (comments : Bool) (s : Scanner) :
    Takes t comments s (s.step t comments) := by
  unfold step
  cases hraw : s.rawTag? t with
  | some tag =>
    have hin : (s.rawTag? t).isSome := isSome_of_eq_some hraw
    unfold rawText
    dsimp only
    split
    · exact .raw hin ..
    · exact .closed _ (.inr hin) ..
  | none =>
    dsimp only
    cases h : s.construct? t comments with
    | none =>
      rw [getD_none, text]
      split
      · next hempty => exact .malformed hempty ..
      · exact .run _
    | some r =>
      unfold construct? at h
      dsimp only at h
      split at h
      · obtain ⟨p, -, rfl⟩ := map_eq_some_iff.mp h
        cases comments
        · exact .skipped _
        · exact .comment ..
      split at h
      · next hstarts =>
        have hread := isSome_of_eq_some h
        obtain ⟨p, -, rfl⟩ := map_eq_some_iff.mp h
        exact .cdata hstarts hread ..
      split at h
      · obtain ⟨p, -, rfl⟩ := map_eq_some_iff.mp h
        exact .skipped _
      split at h
      · obtain ⟨p, -, rfl⟩ := map_eq_some_iff.mp h
        exact .skipped _
      split at h
      · obtain ⟨p, -, rfl⟩ := map_eq_some_iff.mp h
        exact .closed [] (.inl rfl) 0 ..
      split at h
      · obtain ⟨tag, htag, rfl⟩ := map_eq_some_iff.mp h
        exact .opened hraw htag ..
      · cases h

theorem nests_step (t : TagTable) (comments : Bool) (s : Scanner) :
    s.Nests (s.step t comments) := by
  have htakes := s.takes_step t comments
  generalize s.step t comments = r at htakes ⊢
  unfold Nests
  cases htakes with
  | raw | cdata | run => exact openAfter_textSignals _ _
  | malformed =>
    rw [openAfter_append, openAfter_textSignals]
    rfl
  | comment | skipped => rfl
  | closed =>
    rw [openAfter_append, openAfter_textSignals]
    exact openAfter_closeTag ..
  | opened => exact openAfter_openTag ..

theorem openAfter_run (t : TagTable) (comments : Bool) (s : Scanner) :
    openAfter (run t comments s) (tagNames s.stack) = some [] := by
  fun_induction run t comments s with
  | case1 s hend =>
    have := openAfter_flatMap_closeSignals t ⟨s.cursor.offset, s.cursor.offset⟩ s.stack []
    rwa [List.append_nil] at this
  | case2 s hend next ih =>
    have hstep : openAfter next.1 (tagNames s.stack) = some (tagNames next.2.stack) :=
      nests_step t comments s
    rw [openAfter_append, hstep]
    exact ih

end Scanner

/-- The signals of a template nest, and leave no tag open. -/
theorem openAfter_read (t : TagTable) (comments : Bool) (source : String) :
    openAfter (read t comments source) [] = some [] :=
  Scanner.openAfter_run t comments _

/-! ## The events of a template are well bracketed

`openAfter` replays signals on a stack. Here the same fact is said without a stack: the events are a
word of the bracket grammar `Bracketed`, in which a tag is opened, something bracketed follows, and
the tag is closed under the very text it was opened with.

Main result: `read_bracketed`, for every source, every table of tags and with or without comments.
Its two other parts read the grammar at one event: what stands between an event that closes a tag
and the event that opened it is bracketed in itself, so nothing opened in between is still open.
-/

/-- Neither opens a tag that has to be closed nor closes one. -/
def Event.standsAlone : Event → Bool
  | .opened _ _ unary _ => unary
  | .closed _ _ => false
  | .text _ _ => true
  | .comment _ _ => true

def events (signals : List Signal) : List Event := signals.filterMap Signal.event?

/-- Events in which every tag that is opened is closed, the innermost first, by its own text. -/
inductive Bracketed : List Event → Prop
  | nil : Bracketed []
  | alone {e : Event} {rest : List Event} (he : e.standsAlone) (hrest : Bracketed rest) :
      Bracketed (e :: rest)
  | pair {tag : String} {attrs : List Attr} {start stop : Span} {inner rest : List Event}
      (hinner : Bracketed inner) (hrest : Bracketed rest) :
      Bracketed (.opened tag attrs false start :: inner ++ .closed tag stop :: rest)

/-- If replaying signals closes everything, then the innermost open tag is closed after something
bracketed, and the signals that remain close the tags around it. -/
theorem closing_of_openAfter (signals : List Signal) :
    ∀ (tag : String) (tags : List String), openAfter signals (tag :: tags) = some [] →
      ∃ inner stop rest, events signals = inner ++ .closed tag stop :: events rest ∧
        Bracketed inner ∧ openAfter rest tags = some [] ∧ rest.length < signals.length := by
  -- On the length: after an inner tag has been closed, the search goes on behind its end.
  induction hn : signals.length using Nat.strongRecOn generalizing signals with
  | _ n ih =>
  intro tag tags h
  -- A signal that changes nothing only puts its event in front.
  have skip (first : Signal) (rest : List Signal) (lead : List Event) (hlen : rest.length + 1 = n)
      (hlead : events (first :: rest) = lead ++ events rest)
      (hcons : ∀ inner, Bracketed inner → Bracketed (lead ++ inner))
      (hrest : openAfter rest (tag :: tags) = some []) :
      ∃ inner stop rest', events (first :: rest) = inner ++ .closed tag stop :: events rest' ∧
        Bracketed inner ∧ openAfter rest' tags = some [] ∧ rest'.length < n := by
    obtain ⟨inner, stop, rest', heq, hinner, hopen, hlt⟩ :=
      ih rest.length (by omega) rest rfl tag tags hrest
    refine ⟨lead ++ inner, stop, rest', ?_, hcons inner hinner, hopen, by omega⟩
    rw [hlead, heq, List.append_assoc]
  match signals, hn, h with
  | [], _, h => cases h
  | .event (.closed name stop) :: rest, hn, h =>
    simp only [openAfter] at h
    split at h
    · next hname =>
      subst hname
      exact ⟨[], stop, rest, rfl, .nil, h, by simp at hn; omega⟩
    · cases h
  | .event (.opened name attrs false start) :: rest, hn, h =>
    -- The tag opened here is closed first, and then the search goes on for the outer one.
    have hlen : rest.length + 1 = n := by simpa using hn
    obtain ⟨inner, stop, mid, heq, hinner, hmid, hlt⟩ :=
      ih rest.length (by omega) rest rfl name (tag :: tags) h
    obtain ⟨after, stop', rest', heq', hafter, hopen, hlt'⟩ :=
      ih mid.length (by omega) mid rfl tag tags hmid
    refine ⟨.opened name attrs false start :: inner ++ .closed name stop :: after, stop', rest',
      ?_, .pair hinner hafter, hopen, by omega⟩
    show .opened name attrs false start :: events rest = _
    rw [heq, heq']
    simp
  | .event (.opened name attrs true start) :: rest, hn, h =>
    exact skip _ rest [_] (by simpa using hn) rfl (fun _ hi => .alone rfl hi) h
  | .event (.text content span) :: rest, hn, h =>
    exact skip _ rest [_] (by simpa using hn) rfl (fun _ hi => .alone rfl hi) h
  | .event (.comment content span) :: rest, hn, h =>
    exact skip _ rest [_] (by simpa using hn) rfl (fun _ hi => .alone rfl hi) h
  | .warning w span :: rest, hn, h =>
    exact skip _ rest [] (by simpa using hn) rfl (fun _ hi => hi) h

/-- Signals that open nothing they do not close, and close nothing else, are bracketed. -/
theorem bracketed_of_openAfter (signals : List Signal) (h : openAfter signals [] = some []) :
    Bracketed (events signals) := by
  induction hn : signals.length using Nat.strongRecOn generalizing signals with
  | _ n ih =>
  match signals, hn, h with
  | [], _, _ => exact .nil
  | .event (.closed name stop) :: rest, _, h => cases h
  | .event (.opened name attrs false start) :: rest, hn, h =>
    have hlen : rest.length + 1 = n := by simpa using hn
    obtain ⟨inner, stop, after, heq, hinner, hafter, hlt⟩ := closing_of_openAfter rest name [] h
    show Bracketed (.opened name attrs false start :: events rest)
    rw [heq]
    exact .pair hinner (ih after.length (by omega) after hafter rfl)
  | .event (.opened name attrs true start) :: rest, hn, h =>
    exact .alone rfl (ih rest.length (by simp at hn; omega) rest h rfl)
  | .event (.text content span) :: rest, hn, h =>
    exact .alone rfl (ih rest.length (by simp at hn; omega) rest h rfl)
  | .event (.comment content span) :: rest, hn, h =>
    exact .alone rfl (ih rest.length (by simp at hn; omega) rest h rfl)
  | .warning w span :: rest, hn, h =>
    exact ih rest.length (by simp at hn; omega) rest h rfl

/-! ## The grammar at one event -/

/-- An event of a bracketed word, with what stands before and after it, is one end of a pair. -/
inductive Paired : List Event → Event → List Event → Prop
  | opened {tag : String} {attrs : List Attr} {start : Span} (before inner : List Event)
      (stop : Span) (rest : List Event) (hinner : Bracketed inner) :
      Paired before (.opened tag attrs false start) (inner ++ .closed tag stop :: rest)
  | closed {tag : String} {stop : Span} (outer : List Event) (attrs : List Attr) (start : Span)
      (inner after : List Event) (hinner : Bracketed inner) :
      Paired (outer ++ .opened tag attrs false start :: inner) (.closed tag stop) after

theorem Paired.extend {before after : List Event} {e : Event} (h : Paired before e after)
    (front back : List Event) : Paired (front ++ before) e (after ++ back) := by
  cases h with
  | opened _ inner stop rest hinner =>
    rw [List.append_assoc]
    exact .opened _ inner stop (rest ++ back) hinner
  | closed outer attrs start inner _ hinner =>
    rw [← List.append_assoc]
    exact .closed (front ++ outer) attrs start inner _ hinner

theorem Bracketed.paired {es : List Event} (h : Bracketed es) :
    ∀ before e after, es = before ++ e :: after → e.standsAlone = false →
      Paired before e after := by
  induction h with
  | nil =>
    intro before e after heq
    simp at heq
  | alone he hrest ih =>
    intro before e after heq hpair
    cases before with
    | nil =>
      injection heq with hhead
      rw [hhead, hpair] at he
      cases he
    | cons first before =>
      injection heq with hhead htail
      simpa using (ih before e after htail hpair).extend [first] []
  | @pair name attrs start stop inner rest hinner hrest ihinner ihrest =>
    intro before e after heq hpair
    cases before with
    | nil =>
      injection heq with hhead htail
      rw [← hhead, ← htail]
      exact .opened [] inner stop rest hinner
    | cons first before =>
      injection heq with hhead htail
      subst hhead
      rcases List.append_eq_append_iff.mp htail with ⟨lead, rfl, hcut⟩ | ⟨tail, hcut, hafter⟩
      · -- The event is the end of this pair or stands behind it.
        cases lead with
        | nil =>
          injection hcut with hclosed
          rw [List.append_nil, ← hclosed]
          exact .closed [] attrs start inner after hinner
        | cons last lead =>
          injection hcut with _ hcut
          simpa using (ihrest lead e after hcut hpair).extend
            (.opened name attrs false start :: inner ++ [last]) []
      · cases tail with
        | nil =>
          injection hafter with hclosed
          rw [hclosed, ← List.append_nil before, ← hcut]
          exact .closed [] attrs start inner after hinner
        | cons head tail =>
          injection hafter with hhead hafter
          subst hhead hafter
          exact (ihinner before e tail hcut hpair).extend [_] (.closed name stop :: rest)

/-- **The events of a template are well bracketed.** Every event that closes a tag closes the most
recent one that is open and not unary, under exactly the text it was opened with, and every tag that
is opened and is not unary is closed. -/
theorem read_bracketed (t : TagTable) (comments : Bool) (source : String) :
    Bracketed (events (read t comments source)) ∧
    (∀ before tag stop after,
      events (read t comments source) = before ++ .closed tag stop :: after →
      ∃ outer attrs start inner,
        before = outer ++ .opened tag attrs false start :: inner ∧ Bracketed inner) ∧
    (∀ before tag attrs start after,
      events (read t comments source) = before ++ .opened tag attrs false start :: after →
      ∃ inner stop rest, after = inner ++ .closed tag stop :: rest ∧ Bracketed inner) := by
  have h := bracketed_of_openAfter _ (openAfter_read t comments source)
  refine ⟨h, ?_, ?_⟩
  · intro before tag stop after heq
    cases h.paired before _ after heq rfl with
    | closed outer attrs start inner _ hinner => exact ⟨outer, attrs, start, inner, rfl, hinner⟩
  · intro before tag attrs start after heq
    cases h.paired before _ after heq rfl with
    | opened _ inner stop rest hinner => exact ⟨inner, stop, rest, rfl, hinner⟩

end TemplateCompiler.Markup
