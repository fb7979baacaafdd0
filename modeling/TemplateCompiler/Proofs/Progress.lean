import TemplateCompiler.Markup.Feed
import TemplateCompiler.Proofs.Segments
import TemplateCompiler.Proofs.SlicedTags

/-!
# Reading gets ahead

The scanner goes through the source in steps. Wherever it stands, it stands at the border of a
character; each step takes it to a later one, whatever sink is fed; and so it is at the end after at
most as many steps as the source has bytes. Main result: `scan_advances`.

A start tag that turns out to be none has been read in part. The readers of this module keep the
place they have come to also when they fail, and the one for start tags goes back to where it began.
They read what the readers of tags read (`readAttribute_eq`, `readStartTag_eq`).
-/

namespace TemplateCompiler.Markup

open Text Scanner

variable {t : TagTable} {comments : Bool} {source : String} {s : Scanner} {n : Nat} {c c' : Cursor}

/-- The scanner stands at `s` after `n` steps through a source. -/
inductive Reaches (t : TagTable) (comments : Bool) (source : String) : Nat → Scanner → Prop
  | start : Reaches t comments source 0 ⟨⟨0, source.toList⟩, []⟩
  | step {n : Nat} {s : Scanner} (h : Reaches t comments source n s)
      (hmore : s.cursor.offset < source.utf8ByteSize) :
      Reaches t comments source (n + 1) (s.step t comments).2

def Cursor.OnBorder (source : String) (c : Cursor) : Prop :=
  c.offset ≤ source.utf8ByteSize ∧ (⟨c.offset⟩ : String.Pos.Raw).IsValid source

theorem Cursor.At.onBorder (h : c.At source.toList) : c.OnBorder source := by
  obtain ⟨before, hsrc, hoff⟩ := sliceFrom?_eq_some_iff.mp h
  have hlen := h.byteLength_eq
  rw [byteLength_toList] at hlen
  exact ⟨by omega, isValid_iff.mpr ⟨before, c.rest, hsrc, hoff⟩⟩

theorem Cursor.At.rest_ne_nil_iff (h : c.At source.toList) :
    c.rest ≠ [] ↔ c.offset < source.utf8ByteSize := by
  have hlen := h.byteLength_eq
  rw [byteLength_toList] at hlen
  constructor
  · intro hne
    have hpos := byteLength_pos hne
    omega
  · intro hlt hnil
    rw [hnil, byteLength_nil] at hlen
    omega

/-! ## Readers that keep their place -/

/-- Reads an attribute. If it has no value that can be read, the place is behind its `=`. -/
def readAttribute (c : Cursor) : Option Attr × Cursor :=
  let (name, after) := attrName c.rest
  if name.isEmpty then (none, c)
  else
    let named := c.past name after
    match named.skipBlank.rest with
    | '=' :: rest =>
      let valued := (named.skipBlank.past ['='] rest).skipBlank
      match attrValue? valued with
      | some (value, c') =>
        (some { name := String.ofList name, value := String.ofList (decodeChars value),
                span := ⟨c.offset, c'.offset⟩ }, c')
      | none => (none, valued)
    | _ =>
      (some { name := String.ofList name, value := "", span := ⟨c.offset, named.offset⟩ }, named)

theorem readAttribute_eq (c : Cursor) :
    attribute? c = (readAttribute c).1.map fun attr => (attr, (readAttribute c).2) := by
  unfold attribute?
  fun_cases readAttribute c with
  | case1 name after hname hempty => simp [hname, hempty]
  | case2 name after hname hne named rest hrest valued value c' hvalue =>
    simp [hname, hne, named, valued] at hrest hvalue ⊢
    simp [hrest, hvalue]
  | case3 name after hname hne named rest hrest valued hvalue =>
    simp [hname, hne, named, valued] at hrest hvalue ⊢
    simp [hrest, hvalue]
  | case4 name after hname hne named hother =>
    simp [hname, hne, named] at hother ⊢

/-- Also when it fails, the reader of attributes is at a place in the source. -/
theorem readAttribute_at (h : c.At source.toList) : (readAttribute c).2.At source.toList := by
  have hnamed := h.past (attrName_append c.rest)
  fun_cases readAttribute c with
  | case1 name after hname hempty => exact h
  | case2 name after hname hne named rest hrest valued value c' hvalue =>
    rw [hname] at hnamed
    have hvalued : valued.At _ :=
      (hnamed.skipBlank.past (show ['='] ++ rest = _ from hrest.symm)).skipBlank
    obtain ⟨text, -, hpass⟩ := text_of_attrValue? hvalue
    exact hvalued.passes hpass
  | case3 name after hname hne named rest hrest valued hvalue =>
    rw [hname] at hnamed
    exact (hnamed.skipBlank.past (show ['='] ++ rest = _ from hrest.symm)).skipBlank
  | case4 name after hname hne named hother =>
    rw [hname] at hnamed
    exact hnamed

/-- Reads on to the end of a tag that began at `start`, behind the attributes `attrs`. -/
def readTagEnd (start : Cursor) (attrs : List Attr) (c : Cursor) : Option TagEnd × Cursor :=
  let spaced := c.skipBlank
  match spaced.rest with
  | '/' :: '>' :: rest =>
    let c' := spaced.past ['/', '>'] rest
    (some ⟨attrs, true, c'⟩, c')
  | '>' :: rest =>
    let c' := spaced.past ['>'] rest
    (some ⟨attrs, false, c'⟩, c')
  | _ =>
    if spaced.offset = c.offset && !attrs.isEmpty then (none, start)
    else
      match _h : readAttribute spaced with
      | (some attr, after) => readTagEnd start (attrs ++ [attr]) after
      | (none, _) => (none, start)
termination_by c.rest.length
decreasing_by
  have hattr : attribute? c.skipBlank = some (attr, after) := by rw [readAttribute_eq, _h]; rfl
  have h1 := length_lt_of_attribute? hattr
  have h2 := Cursor.length_rest_skipBlank_le c
  omega

def readStartTag (c : Cursor) : Option StartTag × Cursor :=
  match c.rest with
  | '<' :: cs =>
    match tagName? cs with
    | some (name, rest) =>
      let (read, c') := readTagEnd c [] (c.past ('<' :: name) rest)
      (read.map fun e => ⟨String.ofList name, e.attrs, e.selfClosing, c'⟩, c')
    | none => (none, c)
  | _ => (none, c)

theorem tagEnd?_of_open {first : Bool}
    (hself : ∀ rest, c.skipBlank.rest = '/' :: '>' :: rest → False)
    (hclose : ∀ rest, c.skipBlank.rest = '>' :: rest → False) :
    tagEnd? first c = if c.skipBlank.offset = c.offset && !first then none
      else (attribute? c.skipBlank).bind fun p =>
        (tagEnd? false p.2).map fun e => { e with attrs := p.1 :: e.attrs } := by
  rw [tagEnd?]
  split
  · next rest hrest => exact (hself rest hrest).elim
  · next rest hrest => exact (hclose rest hrest).elim
  · split
    · rfl
    · split <;> simp_all

theorem readTagEnd_eq (start : Cursor) (attrs : List Attr) (c : Cursor) :
    readTagEnd start attrs c = match tagEnd? attrs.isEmpty c with
      | some e => (some { e with attrs := attrs ++ e.attrs }, e.cursor)
      | none => (none, start) := by
  fun_induction readTagEnd start attrs c with
  | case1 attrs c spaced rest hrest c' =>
    rw [tagEnd?, show c.skipBlank.rest = _ from hrest]
    simp [c', spaced]
  | case2 attrs c spaced rest hrest c' =>
    rw [tagEnd?, show c.skipBlank.rest = _ from hrest]
    simp [c', spaced]
  | case3 attrs c spaced hgap hself hclose => rw [tagEnd?_of_open hself hclose, if_pos hgap]
  | case4 attrs c spaced hgap attr after hattr hself hclose ih =>
    rw [ih, tagEnd?_of_open hself hclose, if_neg hgap, readAttribute_eq, hattr]
    have hmore : (attrs ++ [attr]).isEmpty = false := by simp
    rw [hmore]
    cases hend : tagEnd? false after <;> simp [hend]
  | case5 attrs c spaced hgap after hattr hself hclose =>
    rw [tagEnd?_of_open hself hclose, if_neg hgap, readAttribute_eq, hattr]
    rfl

theorem readStartTag_eq (c : Cursor) : readStartTag c = match startTag? c with
      | some tag => (some tag, tag.cursor)
      | none => (none, c) := by
  unfold startTag?
  fun_cases readStartTag c with
  | case1 cs hrest name rest hname read c' hread =>
    rw [readTagEnd_eq] at hread
    simp only [hrest, hname]
    cases hend : tagEnd? true (c.past ('<' :: name) rest) with
    | none =>
      rw [List.isEmpty_nil, hend] at hread
      cases hread
      rfl
    | some e =>
      rw [List.isEmpty_nil, hend] at hread
      cases hread
      rfl
  | case2 cs hrest hname => simp [hrest, hname]
  | case3 hrest => simp

/-! ## Steps of the scanner -/

theorem readAttribute_advances (h : c.At source.toList) {attr : Attr}
    (hattr : (readAttribute c.skipBlank).1 = some attr) :
    c.offset < (readAttribute c.skipBlank).2.offset := by
  have hread : attribute? c.skipBlank = some (attr, (readAttribute c.skipBlank).2) := by
    rw [readAttribute_eq, hattr]
    rfl
  exact h.offset_lt (readAttribute_at h.skipBlank) (Nat.lt_of_lt_of_le
    (length_lt_of_attribute? hread) (Cursor.length_rest_skipBlank_le c))

theorem Scanner.step_advances (comments : Bool) (hat : s.cursor.At source.toList)
    (hsound : SoundTags t s.stack) (hmore : s.cursor.offset < source.utf8ByteSize) :
    (s.step t comments).2.cursor.At source.toList ∧ SoundTags t (s.step t comments).2.stack ∧
      s.cursor.offset < (s.step t comments).2.cursor.offset := by
  have hne := hat.rest_ne_nil_iff.mpr hmore
  obtain ⟨segments, hreads⟩ : ∃ segments, Reads t comments s segments (s.step t comments) :=
    reads_step hsound hne
  have hat' := hat.passes hreads.passes
  exact ⟨hat', hreads.stack, hat.offset_lt hat' (length_step_lt t comments s hne)⟩

/-- What steps keep: the place fits the source, and every step has passed a byte at least. -/
theorem Reaches.invariant (h : Reaches t comments source n s) :
    s.cursor.At source.toList ∧ SoundTags t s.stack ∧ n ≤ s.cursor.offset := by
  induction h with
  | start => exact ⟨sliceFrom?_zero, trivial, Nat.le_refl 0⟩
  | step h hmore ih =>
    obtain ⟨hat, hsound, hle⟩ := ih
    obtain ⟨hat', hsound', hlt⟩ := step_advances comments hat hsound hmore
    exact ⟨hat', hsound', by omega⟩

theorem Reaches.exists_end (h : Reaches t comments source n s) :
    ∃ n' s', Reaches t comments source n' s' ∧ s'.cursor.offset = source.utf8ByteSize := by
  induction hk : source.utf8ByteSize - s.cursor.offset using Nat.strongRecOn generalizing n s with
  | _ k ih =>
  obtain ⟨hat, hsound, -⟩ := h.invariant
  by_cases hmore : s.cursor.offset < source.utf8ByteSize
  · have hlt := (step_advances comments hat hsound hmore).2.2
    exact ih _ (by omega) (h.step hmore) rfl
  · exact ⟨n, s, h, Nat.le_antisymm hat.onBorder.1 (Nat.le_of_not_lt hmore)⟩

/-- **Reading gets ahead and ends.** Where a start tag is looked for and cannot be read, the reader
is back at the place it began at, and a text is read from there. Each attribute takes the reader of
attributes ahead, and also without one it stays on a border. -/
theorem scan_advances (t : TagTable) (comments : Bool) (source : String) :
    (∀ n s, Reaches t comments source n s → s.cursor.OnBorder source ∧
      (s.cursor.offset < source.utf8ByteSize → ∀ (m : Type → Type) [Monad m] (sink : Sink m),
        (s.feedStep sink t comments).cursor.OnBorder source ∧
          s.cursor.offset < (s.feedStep sink t comments).cursor.offset) ∧
      (s.rawTag? t = none → s.construct? t comments = s.start? t →
        (readStartTag s.cursor).1 = none →
        (readStartTag s.cursor).2 = s.cursor ∧ s.step t comments = s.text)) ∧
    (∀ c, (readStartTag c).1 = startTag? c ∧
      ∀ tag, (readStartTag c).1 = some tag → (readStartTag c).2 = tag.cursor) ∧
    (∀ c, attribute? c = (readAttribute c).1.map fun attr => (attr, (readAttribute c).2)) ∧
    (∀ c : Cursor, c.At source.toList → (readAttribute c.skipBlank).2.OnBorder source ∧
      ∀ attr, (readAttribute c.skipBlank).1 = some attr →
        c.offset < (readAttribute c.skipBlank).2.offset) ∧
    ∃ n s, Reaches t comments source n s ∧ s.cursor.offset = source.utf8ByteSize ∧
      n ≤ source.utf8ByteSize := by
  have htag (c : Cursor) : (readStartTag c).1 = startTag? c := by
    rw [readStartTag_eq]
    cases startTag? c <;> rfl
  refine ⟨fun n s hreached => ?_, fun c => ⟨htag c, fun tag hread => ?_⟩, readAttribute_eq,
    fun c h => ⟨(readAttribute_at h.skipBlank).onBorder, fun _ => readAttribute_advances h⟩, ?_⟩
  · obtain ⟨hat, hsound, -⟩ := hreached.invariant
    refine ⟨hat.onBorder, fun hmore m _ sink => ?_, fun hraw hopen hnone => ?_⟩
    · obtain ⟨hat', -, hlt⟩ := step_advances comments hat hsound hmore
      rw [cursor_feedStep]
      exact ⟨hat'.onBorder, hlt⟩
    · rw [htag] at hnone
      have hstart : s.start? t = none := Option.map_eq_none_iff.mpr hnone
      rw [readStartTag_eq, hnone, step, hraw, hopen, hstart]
      exact ⟨rfl, rfl⟩
  · rw [htag] at hread
    rw [readStartTag_eq, hread]
  · have hstart : Reaches t comments source 0 _ := .start
    obtain ⟨n, s, h, hend⟩ := hstart.exists_end
    exact ⟨n, s, h, hend, hend ▸ h.invariant.2.2⟩

/-- A start tag without an end is text, from the same place on, and an attribute without a value is
given up behind its `=`. -/
theorem scan_advances_unfinished :
    Reaches {} true "<b é=" 0 ⟨⟨0, "<b é=".toList⟩, []⟩ ∧
      (readStartTag ⟨0, "<b é=".toList⟩).2 = ⟨0, "<b é=".toList⟩ ∧
      Scanner.step {} true ⟨⟨0, "<b é=".toList⟩, []⟩ = Scanner.text ⟨⟨0, "<b é=".toList⟩, []⟩ ∧
      0 < (feedStep (recorder none) {} true ⟨⟨0, "<b é=".toList⟩, []⟩).cursor.offset ∧
      (readAttribute (Cursor.mk 2 " é=".toList).skipBlank).1 = none ∧
      (readAttribute (Cursor.mk 2 " é=".toList).skipBlank).2.offset = 6 ∧
      (readAttribute (Cursor.mk 2 " é=".toList).skipBlank).2.OnBorder "<b é=" := by
  obtain ⟨hsteps, -, -, hattrs, -⟩ := scan_advances {} true "<b é="
  have h : Reaches {} true "<b é=" 0 ⟨⟨0, "<b é=".toList⟩, []⟩ := .start
  have hnone : (readStartTag ⟨0, "<b é=".toList⟩).1 = none :=
    Option.isNone_iff_eq_none.mp (by decide +kernel)
  obtain ⟨-, hlt, htext⟩ := hsteps 0 _ h
  obtain ⟨hback, hstep⟩ := htext rfl rfl hnone
  have hattr : (readAttribute (Cursor.mk 2 " é=".toList).skipBlank).1 = none :=
    Option.isNone_iff_eq_none.mp (by decide +kernel)
  have hat : (Cursor.mk 2 " é=".toList).At "<b é=".toList :=
    sliceFrom?_eq_some_iff.mpr ⟨"<b".toList, rfl, rfl⟩
  exact ⟨h, hback, hstep, (hlt (by decide) _ (recorder none)).2, hattr, by decide +kernel,
    (hattrs _ hat).1⟩

end TemplateCompiler.Markup
