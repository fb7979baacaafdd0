import TemplateCompiler.Markup.Feed

/-!
# What a sink gets to see

Reading a template into a sink is the same as handing the sink the signals of the template one after
the other: the pieces of the source may be cut short by a refusal, but what has been taken by then
is how the list of signals begins. This is shown once for every sink that acts in a lawful monad,
one equation per function of the scanner.

A recording sink with a limit therefore holds the signals before the event it refuses: exactly as
many events as the limit, and all warnings up to there.
-/

namespace TemplateCompiler.Markup

open Text List Signal Reading

variable {s : Scanner} {signal : Signal} {signals l l' : List Signal} {t : TagTable} {span : Span}
  {comments missing : Bool} {r : Recording} {stack : List OpenTag} {name source : String}

section Lawful

variable {m : Type → Type} [Monad m] (sink : Sink m)

namespace Sink

def takeAll (signals : List Signal) : m Unit := signals.forM sink.take

/-- Takes signals in order, then yields the value that goes with them. -/
def taking {α : Type} (r : List Signal × α) : m α := do
  sink.takeAll r.1
  return r.2

theorem takeAll_nil : sink.takeAll [] = pure () := rfl

theorem takeAll_cons :
    sink.takeAll (signal :: signals) = sink.take signal >>= fun _ => sink.takeAll signals := rfl

variable [LawfulMonad m] {α : Type}

theorem takeAll_singleton : sink.takeAll [signal] = sink.take signal := by
  simp [takeAll]

theorem takeAll_append : sink.takeAll (l ++ l') = sink.takeAll l >>= fun _ => sink.takeAll l' :=
  forM_append

theorem taking_nil (a : α) : sink.taking ([], a) = pure a := by
  simp [taking, takeAll_nil]

theorem taking_bind_taking {β : Type} (r : List Signal × α) (f : α → List Signal × β) :
    (sink.taking r >>= fun a => sink.taking (f a)) = sink.taking (r.1 ++ (f r.2).1, (f r.2).2) := by
  simp [taking, takeAll_append]

/-! ## Tags -/

theorem close_eq (o : OpenTag) :
    sink.close t span missing o = sink.takeAll (closeSignals t span missing o) := by
  unfold close closeSignals
  split <;> simp [takeAll_cons, takeAll_nil, take]

theorem closeAll_eq :
    sink.closeAll t span stack = sink.takeAll (stack.flatMap (closeSignals t span true)) := by
  induction stack with
  | nil => rfl
  | cons o stack ih =>
    rw [flatMap_cons, takeAll_append, ← close_eq, ← ih]
    rfl

theorem unmatched_eq : sink.unmatched name span = sink.takeAll (unmatchedSignals name span) := by
  unfold unmatched unmatchedSignals
  split
  · simp [takeAll_singleton, take]
  split <;> simp [takeAll_cons, takeAll_nil, take]

theorem closeTag_eq :
    sink.closeTag t name span stack = sink.taking (Markup.closeTag t name span stack) := by
  unfold closeTag Markup.closeTag
  cases stack.dropWhile (·.key ≠ asciiLower name) with
  | nil => simp [taking, unmatched_eq]
  | cons target outer => simp [taking, takeAll_append, closeAll_eq, close_eq]

theorem closeImplied_eq (t : TagTable) (name : String) (span : Span) (stack : List OpenTag) :
    sink.closeImplied t name span stack = sink.taking (Markup.closeImplied t name span stack) := by
  unfold closeImplied Markup.closeImplied
  dsimp only
  split
  · rw [taking_nil]
  have hfirst : (if innermost? stack = some "p" && t.isNonPhrasing (asciiLower name) then
        sink.closeTag t "p" span stack else pure stack) =
      sink.taking (if innermost? stack = some "p" && t.isNonPhrasing (asciiLower name) then
        Markup.closeTag t "p" span stack else ([], stack)) := by
    split
    · exact sink.closeTag_eq
    · rw [taking_nil]
  rw [hfirst]
  generalize (if innermost? stack = some "p" && t.isNonPhrasing (asciiLower name) then
    Markup.closeTag t "p" span stack else ([], stack)) = first
  -- The second closing looks at the stack that the first one leaves, which the sink cannot change.
  have hsecond : ∀ inner : List OpenTag,
      (if t.mayBeLeftOpen (asciiLower name) && innermost? inner = some (asciiLower name) then
        sink.closeTag t name span inner else pure inner) =
      sink.taking (if t.mayBeLeftOpen (asciiLower name) &&
          innermost? inner = some (asciiLower name) then
        Markup.closeTag t name span inner else ([], inner)) := by
    intro inner
    split
    · exact sink.closeTag_eq
    · rw [taking_nil]
  simp only [hsecond, taking_bind_taking]
  split
  · rfl
  · simp

theorem openTag_eq (s : StartTag) :
    sink.openTag t s span stack = sink.taking (Markup.openTag t s span stack) := by
  unfold openTag Markup.openTag
  simp [closeImplied_eq, taking, takeAll_append, takeAll_singleton, take]

theorem text_eq (content : List Char) (start : Nat) :
    sink.text content start = sink.takeAll (textSignals content start) := by
  unfold text textSignals
  split
  · rfl
  · simp [takeAll_singleton, take]

end Sink

/-! ## Pieces of the source -/

/-- A piece of the source as a sink takes it that is handed the signals of the piece. -/
def Reading.of (r : List Signal × Scanner) : Reading m :=
  ⟨r.2.cursor, sink.taking (r.1, r.2.stack)⟩

namespace Scanner

variable [LawfulMonad m]

theorem feedComment?_eq : s.feedComment? sink comments = (s.comment? comments).map (of sink) := by
  unfold feedComment? comment?
  rw [Option.map_map]
  congr 1
  funext p
  cases comments <;> simp [of, Sink.taking, Sink.takeAll_cons, Sink.takeAll_nil, Sink.take]

theorem feedCdata?_eq : s.feedCdata? sink = s.cdata?.map (of sink) := by
  unfold feedCdata? cdata?
  rw [Option.map_map]
  congr 1
  funext p
  simp [of, Sink.taking, Sink.text_eq]

theorem passTo?_eq (mark : List Char) : s.passTo? mark = (s.skipTo? mark).map (of sink) := by
  unfold passTo? skipTo?
  rw [Option.map_map]
  congr 1
  funext p
  simp [of, Sink.taking_nil]

theorem feedEnd?_eq : s.feedEnd? sink t = (s.end? t).map (of sink) := by
  unfold feedEnd? end?
  rw [Option.map_map]
  congr 1
  funext p
  simp [of, Sink.closeTag_eq]

theorem feedStart?_eq : s.feedStart? sink t = (s.start? t).map (of sink) := by
  have hcur := cursor_feedStart? sink t s
  unfold feedStart? start? at hcur ⊢
  cases htag : startTag? s.cursor with
  | none => rfl
  | some tag =>
    rw [htag] at hcur
    simp only [Option.map_some, Option.some.injEq] at hcur ⊢
    simp only [of, hcur, Sink.openTag_eq]

theorem feedConstruct?_eq :
    s.feedConstruct? sink t comments = (s.construct? t comments).map (of sink) := by
  unfold feedConstruct? construct?
  dsimp only
  split
  · exact feedComment?_eq sink
  split
  · exact feedCdata?_eq sink
  split
  · exact passTo?_eq sink _
  split
  · exact passTo?_eq sink _
  split
  · exact feedEnd?_eq sink
  split
  · exact feedStart?_eq sink
  · rfl

theorem feedRaw_eq (tag : String) : s.feedRaw sink t tag = of sink (s.rawText t tag) := by
  unfold feedRaw rawText
  rcases (rawEnd? tag s.cursor.rest).getD (s.cursor.rest, [], []) with ⟨content, endTag, rest⟩
  cases hend : endTag.isEmpty with
  | true => simp [hend, of, Sink.taking, Sink.text_eq]
  | false =>
    simp [hend, of, Sink.taking, Sink.takeAll_append, Sink.text_eq, Sink.closeTag_eq]

theorem feedText_eq : s.feedText sink = of sink s.text := by
  unfold feedText text
  dsimp only
  split
  · simp [of, Sink.taking, Sink.takeAll_append, Sink.takeAll_singleton, Sink.text_eq, Sink.take]
  · simp [of, Sink.taking, Sink.text_eq]

theorem feedStep_eq : s.feedStep sink t comments = of sink (s.step t comments) := by
  unfold feedStep step
  cases s.rawTag? t with
  | some tag => exact feedRaw_eq sink tag
  | none =>
    rw [feedConstruct?_eq, feedText_eq]
    cases s.construct? t comments <;> rfl

theorem feed_eq_takeAll (t : TagTable) (comments : Bool) :
    s.feed sink t comments = sink.takeAll (s.run t comments) := by
  fun_induction run t comments s with
  | case1 s hs =>
    rw [feed, dif_pos hs]
    exact sink.closeAll_eq
  | case2 s hs next ih =>
    rw [feed, dif_neg hs]
    rw [feedStep_eq]
    simp only [of, Sink.taking, bind_assoc, pure_bind, Sink.takeAll_append]
    rw [← ih]

end Scanner

/-- Reading into a sink is handing it the signals of the template one after the other. -/
theorem feed_eq_takeAll_read [LawfulMonad m] (t : TagTable) (comments : Bool) (source : String) :
    feed sink t comments source = sink.takeAll (read t comments source) :=
  Scanner.feed_eq_takeAll sink t comments

end Lawful

/-! ## Cutting signals at an event -/

/-- The signals before the event number `limit`, counted from zero, and that event if there is
one. -/
def cutAtEvent : Nat → List Signal → List Signal × Option Event
  | _, [] => ([], none)
  | 0, .event e :: _ => ([], some e)
  | limit + 1, .event e :: rest =>
    let cut := cutAtEvent limit rest
    (.event e :: cut.1, cut.2)
  | limit, .warning w span :: rest =>
    let cut := cutAtEvent limit rest
    (.warning w span :: cut.1, cut.2)

theorem cutAtEvent_warning (n : Nat) (w : Warning) (span : Span) (signals : List Signal) :
    cutAtEvent n (.warning w span :: signals) =
      (.warning w span :: (cutAtEvent n signals).1, (cutAtEvent n signals).2) := by
  cases n <;> rw [cutAtEvent]

section

variable (n : Nat) (signals : List Signal)

theorem cutAtEvent_append : ∃ rest, signals = (cutAtEvent n signals).1 ++ rest ∧
      rest.head? = (cutAtEvent n signals).2.map event := by
  fun_induction cutAtEvent n signals with
  | case1 => exact ⟨[], rfl, rfl⟩
  | case2 e rest => exact ⟨.event e :: rest, rfl, rfl⟩
  | case3 limit e rest cut ih =>
    obtain ⟨after, happend, hhead⟩ := ih
    exact ⟨after, congrArg (event e :: ·) happend, hhead⟩
  | case4 limit w span rest cut ih =>
    obtain ⟨after, happend, hhead⟩ := ih
    exact ⟨after, congrArg (warning w span :: ·) happend, hhead⟩

theorem events_cutAtEvent : (cutAtEvent n signals).1.filterMap event? =
      (signals.filterMap event?).take n := by
  fun_induction cutAtEvent n signals with
  | case1 => simp
  | case2 e rest => simp
  | case3 limit e rest cut ih => simp [event?, cut, ih]
  | case4 limit w span rest cut ih => simp [filterMap_cons, event?, cut, ih]

theorem refused_cutAtEvent : (cutAtEvent n signals).2 = (signals.filterMap event?)[n]? := by
  fun_induction cutAtEvent n signals with
  | case1 => simp
  | case2 e rest => simp [event?]
  | case3 limit e rest cut ih => simp [event?, cut, ih]
  | case4 limit w span rest cut ih => simp [filterMap_cons, event?, cut, ih]

end

/-! ## Where a recording stops -/

def Signal.warning? : Signal → Option (Warning × Span)
  | .event _ => none
  | .warning w span => some (w, span)

def Recording.followedBy (r : Recording) (signals : List Signal) : Recording where
  events := r.events ++ signals.filterMap event?
  warnings := r.warnings ++ signals.filterMap warning?

namespace Recording

theorem followedBy_nil : r.followedBy [] = r := by
  simp [followedBy]

theorem followedBy_event (r : Recording) (e : Event) (signals : List Signal) :
    r.followedBy (.event e :: signals) =
      { r with events := r.events ++ [e] : Recording }.followedBy signals := by
  simp [followedBy, filterMap_cons, event?, warning?]

theorem followedBy_warning (r : Recording) (w : Warning) (span : Span) (signals : List Signal) :
    r.followedBy (.warning w span :: signals) =
      { r with warnings := r.warnings ++ [(w, span)] : Recording }.followedBy signals := by
  simp [followedBy, filterMap_cons, event?, warning?]

end Recording

section Steps

variable {limit : Option Nat} {r r' : Recording}

theorem run_take_event (e : Event) : ((recorder limit).take (.event e)).run.run r =
      if limit = some r.events.length then (.error e, r)
      else (.ok (), { r with events := r.events ++ [e] }) := by
  have hget : ((recorder limit).take (.event e)).run.run r =
      (if limit = some r.events.length then throw e
        else set { r with events := r.events ++ [e] } :
          ExceptT Event (StateM Recording) Unit).run.run r := rfl
  rw [hget]
  split <;> rfl

theorem run_take_warning (w : Warning) (span : Span) :
    ((recorder limit).take (.warning w span)).run.run r =
      (.ok (), { r with warnings := r.warnings ++ [(w, span)] }) := rfl

theorem run_takeAll_ok (signals : List Signal)
    (h : ((recorder limit).take signal).run.run r = (.ok (), r')) :
    ((recorder limit).takeAll (signal :: signals)).run.run r =
      ((recorder limit).takeAll signals).run.run r' := by
  rw [Sink.takeAll_cons, ExceptT.run_bind, StateT.run_bind, h]
  rfl

theorem run_takeAll_error {e : Event}
    (h : ((recorder limit).take signal).run.run r = (.error e, r')) :
    ((recorder limit).takeAll (signal :: signals)).run.run r = (.error e, r') := by
  rw [Sink.takeAll_cons, ExceptT.run_bind, StateT.run_bind, h]
  rfl

end Steps

def refusal : Option Event → Except Event Unit
  | some e => .error e
  | none => .ok ()

theorem refusal_eq_error_iff (refused : Option Event) (e : Event) :
    refusal refused = .error e ↔ refused = some e := by
  cases refused <;> simp [refusal]

theorem run_recorder_none :
    ((recorder none).takeAll signals).run.run r = (.ok (), r.followedBy signals) := by
  induction signals generalizing r with
  | nil => rw [Recording.followedBy_nil]; rfl
  | cons signal signals ih =>
    cases signal with
    | event e =>
      rw [run_takeAll_ok signals ((run_take_event e).trans (if_neg (by simp))), ih,
        Recording.followedBy_event]
    | warning w span =>
      rw [run_takeAll_ok signals (run_take_warning w span), ih, Recording.followedBy_warning]

theorem run_recorder_some (n : Nat) (signals : List Signal) (r : Recording) :
    ((recorder (some (r.events.length + n))).takeAll signals).run.run r =
      (refusal (cutAtEvent n signals).2, r.followedBy (cutAtEvent n signals).1) := by
  induction signals generalizing n r with
  | nil => rw [cutAtEvent, Recording.followedBy_nil]; rfl
  | cons signal signals ih =>
    cases signal with
    | event e =>
      cases n with
      | zero =>
        rw [Nat.add_zero, run_takeAll_error ((run_take_event e).trans (if_pos rfl)),
          cutAtEvent, Recording.followedBy_nil, refusal]
      | succ n =>
        -- One more event is held and one fewer may follow, so the limit stays the same.
        have hlimit : r.events.length + (n + 1) = (r.events ++ [e]).length + n := by
          rw [length_append, length_singleton]
          omega
        rw [run_takeAll_ok signals ((run_take_event e).trans (if_neg (by simp))), hlimit,
          ih n { r with events := r.events ++ [e] }, cutAtEvent, Recording.followedBy_event]
    | warning w span =>
      rw [run_takeAll_ok signals (run_take_warning w span),
        ih n { r with warnings := r.warnings ++ [(w, span)] }, cutAtEvent_warning,
        Recording.followedBy_warning]

/-! ## Refusing an event -/

theorem record_none :
    record none t comments source = (.ok (), Recording.followedBy {} (read t comments source)) := by
  unfold record
  rw [feed_eq_takeAll_read, run_recorder_none]

theorem record_some (n : Nat) (t : TagTable) (comments : Bool) (source : String) :
    record (some n) t comments source = (refusal (cutAtEvent n (read t comments source)).2,
        Recording.followedBy {} (cutAtEvent n (read t comments source)).1) := by
  unfold record
  rw [feed_eq_takeAll_read, ← run_recorder_some n _ {}]
  simp

/-- Reading into a sink that refuses an event gives a prefix of the whole reading. The sink holds
the first `n` events and the warnings before the refused event, it refuses an event exactly if there
are more than `n`, and that event is the next one of the whole reading. -/
theorem record_refusing_prefix (n : Nat) (t : TagTable) (comments : Bool) (source : String) :
    ∃ whole : Recording, record none t comments source = (.ok (), whole) ∧
      (record (some n) t comments source).2.events = whole.events.take n ∧
      (record (some n) t comments source).2.warnings <+: whole.warnings ∧
      ((∃ e, (record (some n) t comments source).1 = .error e) ↔ n < whole.events.length) ∧
      (∀ e, (record (some n) t comments source).1 = .error e ↔ whole.events[n]? = some e) ∧
      ∃ before after, read t comments source = before ++ after ∧
        (record (some n) t comments source).2 = Recording.followedBy {} before ∧
        ∀ e, (record (some n) t comments source).1 = .error e ↔ after.head? = some (.event e) := by
  obtain ⟨after, happend, hhead⟩ := cutAtEvent_append n (read t comments source)
  have herror : ∀ e, (record (some n) t comments source).1 = .error e ↔
      ((read t comments source).filterMap event?)[n]? = some e := by
    intro e
    rw [record_some, refusal_eq_error_iff, refused_cutAtEvent]
  refine ⟨_, record_none, ?_, ?_, ?_, ?_, _, after, happend, ?_, ?_⟩
  · simp [record_some, Recording.followedBy, events_cutAtEvent]
  · have hwarnings := congrArg (List.filterMap warning?) happend
    rw [filterMap_append] at hwarnings
    rw [record_some]
    exact ⟨after.filterMap warning?, hwarnings.symm⟩
  · simp only [herror, ← Option.isSome_iff_exists, isSome_getElem?]
    rfl
  · exact herror
  · rw [record_some]
  · intro e
    rw [record_some, refusal_eq_error_iff, hhead]
    simp

end TemplateCompiler.Markup
