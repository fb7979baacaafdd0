import TemplateCompiler.Proofs.Slices
import TemplateCompiler.Report.Diagnostics

/-!
# Places in the source

A report names its place by a line and a column. Both are found by one walk over the characters
before a byte offset (`advance`). Main result: `lineColumn_identifies`. At the border of a character
the line counts the newlines before it, and the column counts the characters since the last of them.
A later border has a later place, so reports with one message at two places read differently.
-/

namespace TemplateCompiler

open List Option Text

variable {before after : List Char}

/-- The line and column behind one more character. -/
def advance (place : Nat × Nat) (c : Char) : Nat × Nat :=
  if c = '\n' then (place.1 + 1, 1) else (place.1, place.2 + 1)

/-- The order of lines, and of columns within a line. -/
def Earlier (place later : Nat × Nat) : Prop :=
  place.1 < later.1 ∨ place.1 = later.1 ∧ place.2 < later.2

theorem advance_earlier (place : Nat × Nat) (c : Char) : Earlier place (advance place c) := by
  unfold Earlier advance
  split <;> simp

theorem foldl_advance_earlier {cs : List Char} (h : cs ≠ []) (place : Nat × Nat) :
    Earlier place (cs.foldl advance place) := by
  induction cs generalizing place with
  | nil => exact absurd rfl h
  | cons c cs ih =>
    have hfirst := advance_earlier place c
    by_cases hcs : cs = []
    · rw [hcs]
      exact hfirst
    · have hrest := ih hcs (advance place c)
      rw [foldl_cons]
      unfold Earlier at hfirst hrest ⊢
      omega

theorem go_append (before after : List Char) (position line column : Nat) :
    lineColumn.go (position + byteLength before) (before ++ after) position line column =
      before.foldl advance (line, column) := by
  induction before generalizing position line column with
  | nil =>
    cases after with
    | nil => rfl
    | cons c after => exact if_pos (Nat.le_refl _)
  | cons c before ih =>
    have hpos := c.utf8Size_pos
    have hnext : position + byteLength (c :: before) =
        position + c.utf8Size + byteLength before := by
      rw [byteLength_cons, Nat.add_assoc]
    rw [cons_append, lineColumn.go, if_neg (by rw [byteLength_cons]; omega), hnext, ih, ih,
      foldl_cons, advance]
    split <;> rfl

theorem lineColumn_append :
    lineColumn (before ++ after) (byteLength before) = before.foldl advance (1, 1) := by
  have hgo := go_append before after 0 1 1
  rwa [Nat.zero_add] at hgo

theorem foldl_advance_eq : before.foldl advance (1, 1) =
      (1 + before.count '\n', 1 + (before.reverse.takeWhile (· ≠ '\n')).length) := by
  -- from the end, where a newline starts the count of columns again
  rw [← foldr_reverse, ← count_reverse]
  induction before.reverse with
  | nil => rfl
  | cons c cs ih =>
    rw [foldr_cons, ih]
    by_cases hc : c = '\n'
    · simp [advance, hc, Nat.add_assoc]
    · simp [advance, hc, Nat.add_assoc]

theorem repr_inj {m n : Nat} (h : m.repr.toList = n.repr.toList) : m = n := by
  have hnum := congrArg (fun digits => Nat.ofDigitChars 10 digits 0) h
  simpa only [Nat.toList_repr, Nat.ofDigitChars_ten_toDigits] using hnum

theorem lineColumn_eq_of_withPlace {source message : String} {span span' : Span}
    (h : withPlace source message (some span) = withPlace source message (some span')) :
    lineColumn source.toList span.start = lineColumn source.toList span'.start := by
  have hdigits (n : Nat) : ',' ∉ n.repr.toList := by
    intro hmem
    rw [Nat.toList_repr] at hmem
    exact absurd (Nat.isDigit_of_mem_toDigits (by decide) (by decide) hmem) (by decide)
  have hchars := congrArg String.toList h
  simp only [withPlace, String.toList_append, List.append_assoc, append_cancel_left_eq] at hchars
  -- the first comma behind the message is the one between the two numbers
  have hcut := congrArg (cut? [',']) hchars
  rw [show ", column ".toList = ',' :: " column ".toList from rfl, cons_append, cons_append,
    cut?_singleton_append (hdigits _), cut?_singleton_append (hdigits _)] at hcut
  obtain ⟨hline, hrest⟩ := Prod.mk.inj (Option.some.inj hcut)
  exact Prod.ext (repr_inj hline) (repr_inj (append_cancel_right (append_cancel_left hrest)))

/-- **A place identifies an offset.** -/
theorem lineColumn_identifies (source : String) :
    (∀ offset, (⟨offset⟩ : String.Pos.Raw).IsValid source →
      ∃ before, takeBytes? offset source.toList = some before ∧
        lineColumn source.toList offset =
          (1 + before.count '\n', 1 + (before.reverse.takeWhile (· ≠ '\n')).length)) ∧
      ∀ offset later, (⟨offset⟩ : String.Pos.Raw).IsValid source →
        (⟨later⟩ : String.Pos.Raw).IsValid source → offset < later →
        Earlier (lineColumn source.toList offset) (lineColumn source.toList later) ∧
          ∀ message stop stop', withPlace source message (some ⟨offset, stop⟩) ≠
            withPlace source message (some ⟨later, stop'⟩) := by
  constructor
  · intro offset h
    obtain ⟨before, after, hsrc, rfl⟩ := isValid_iff.mp h
    rw [hsrc, lineColumn_append, foldl_advance_eq]
    exact ⟨before, takeBytes?_append before after, rfl⟩
  · intro offset later h h' hlt
    obtain ⟨before, after, hsrc, rfl⟩ := isValid_iff.mp h
    obtain ⟨before', after', hsrc', rfl⟩ := isValid_iff.mp h'
    obtain ⟨more, rfl, rfl⟩ :=
      exists_append_of_byteLength_le (hsrc.symm.trans hsrc') (Nat.le_of_lt hlt)
    have hmore : more ≠ [] := by
      rintro rfl
      simp at hlt
    have hearlier : Earlier (lineColumn source.toList (byteLength before))
        (lineColumn source.toList (byteLength (before ++ more))) := by
      rw [hsrc, lineColumn_append, ← List.append_assoc, lineColumn_append, foldl_append]
      exact foldl_advance_earlier hmore _
    refine ⟨hearlier, fun message stop stop' hsame => ?_⟩
    have hplace : lineColumn source.toList (byteLength before) =
        lineColumn source.toList (byteLength (before ++ more)) := lineColumn_eq_of_withPlace hsame
    rw [hplace] at hearlier
    unfold Earlier at hearlier
    omega

/-- Right before a newline and right behind it, after a character of two bytes. -/
theorem lineColumn_identifies_newline :
    (⟨2⟩ : String.Pos.Raw).IsValid "é\nb" ∧ (⟨3⟩ : String.Pos.Raw).IsValid "é\nb" ∧
      (∃ before, takeBytes? 3 "é\nb".toList = some before ∧ lineColumn "é\nb".toList 3 =
        (1 + before.count '\n', 1 + (before.reverse.takeWhile (· ≠ '\n')).length)) ∧
      Earlier (lineColumn "é\nb".toList 2) (lineColumn "é\nb".toList 3) := by
  have h : (⟨2⟩ : String.Pos.Raw).IsValid "é\nb" := isValid_iff.mpr ⟨['é'], ['\n', 'b'], rfl, rfl⟩
  have h' : (⟨3⟩ : String.Pos.Raw).IsValid "é\nb" := isValid_iff.mpr ⟨['é', '\n'], ['b'], rfl, rfl⟩
  exact ⟨h, h', (lineColumn_identifies "é\nb").1 3 h',
    ((lineColumn_identifies "é\nb").2 2 3 h h' (by decide)).1⟩

end TemplateCompiler
