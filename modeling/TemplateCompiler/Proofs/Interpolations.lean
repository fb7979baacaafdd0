import TemplateCompiler.Proofs.SlicedTexts

/-!
# Texts with interpolations

Splitting a text at its interpolations loses nothing. `parse?_splits` says so for all delimiters,
also for those that overlap or are equal: a text is left alone exactly if it holds no interpolation,
and otherwise the tokens are literals and expressions whose sources, put together again, are the
text.

That no interpolation is missed rests on a cut being at the first occurrence of its mark
(`exists_cut?`): behind the first opening delimiter stands all that stands behind a later one.
-/

namespace TemplateCompiler

open Text List

namespace Text

variable {mark cs : List Char}

theorem exists_cut? (front mark back : List Char) : ∃ before after,
    cut? mark (front ++ mark ++ back) = some (before, after) ∧ before.length ≤ front.length := by
  induction front with
  | nil => exact ⟨[], back, by rw [nil_append, cut?.eq_def, isPrefixOf?_append], Nat.le_refl 0⟩
  | cons c front ih =>
    obtain ⟨before, after, hcut, hle⟩ := ih
    rw [cons_append, cons_append, cut?]
    cases mark.isPrefixOf? (c :: (front ++ mark ++ back)) with
    | some rest => exact ⟨[], rest, rfl, Nat.zero_le _⟩
    | none => exact ⟨c :: before, after, by rw [hcut]; rfl, Nat.succ_le_succ hle⟩

end Text

namespace Interpolation

/-- Somewhere an opening delimiter is followed, after at least one character, by a closing one. -/
def Interpolates (opening closing text : List Char) : Prop :=
  ∃ body, body ≠ [] ∧ opening ++ body ++ closing <:+: text

/-- A stretch of a text: a literal, or the body of an interpolation. -/
inductive Part where
  | literal (text : List Char)
  | body (text : List Char)

def Part.source (opening closing : List Char) : Part → List Char
  | .literal text => text
  | .body text => opening ++ text ++ closing

def Part.token : Part → TextToken
  | .literal text => .literal (String.ofList text)
  | .body text => .expression (FilterChain.parse (String.ofList (trimmed text)))

/-- What may follow a part: no literal behind a literal, and before an interpolation no literal that
holds an opening delimiter. -/
def Part.Precedes (opening : List Char) : Part → Part → Prop
  | .literal _, .literal _ => False
  | .literal text, .body _ => ¬ opening <:+: text
  | .body _, _ => True

/-- The parts that a text is split into. -/
structure Splits (opening closing text : List Char) (parts : List Part) : Prop where
  source : parts.flatMap (Part.source opening closing) = text
  literal : ∀ content, .literal content ∈ parts → content ≠ []
  body : ∀ content, .body content ∈ parts → content ≠ [] ∧ ¬ closing <:+: content.tail
  neighbours : ∀ front p q back, parts = front ++ p :: q :: back → p.Precedes opening q
  last : ∀ content, parts.getLast? = some (.literal content) →
    ¬ Interpolates opening closing content

variable {opening closing text before body after : List Char}

theorem next?_isSome_iff :
    (next? opening closing text).isSome ↔ Interpolates opening closing text := by
  constructor
  · intro h
    obtain ⟨⟨before, body, after⟩, hnext⟩ := Option.isSome_iff_exists.mp h
    obtain ⟨rfl, hbody⟩ := Sliced.append_eq_of_next? hnext
    exact ⟨body, hbody, before, after, by simp⟩
  · rintro ⟨body, hbody, front, back, rfl⟩
    obtain ⟨before, after, hcut, hle⟩ := exists_cut? front opening (body ++ closing ++ back)
    have htext : front ++ (opening ++ body ++ closing) ++ back =
        front ++ opening ++ (body ++ closing ++ back) := by simp
    -- what stands behind the opening delimiter of the interpolation is behind the first one too
    obtain ⟨skipped, rfl⟩ : ∃ skipped, after = skipped ++ (body ++ closing ++ back) := by
      have hsuffix : body ++ closing ++ back <:+ before ++ opening ++ after :=
        append_eq_of_cut? hcut ▸ suffix_append (front ++ opening) _
      obtain ⟨skipped, heq⟩ := suffix_of_suffix_length_le hsuffix (suffix_append _ after) (by
        have hlen := length_eq_of_cut? hcut
        simp only [length_append] at hlen ⊢
        omega)
      exact ⟨skipped, heq.symm⟩
    have hfound (rest : List Char) (hrest : closing <:+: rest) : (cut? closing rest).isSome := by
      obtain ⟨front, back, rfl⟩ := hrest
      obtain ⟨_, _, hclose, -⟩ := exists_cut? front closing back
      rw [hclose]
      rfl
    rw [htext, next?, hcut]
    cases skipped with
    | nil =>
      cases body with
      | nil => exact absurd rfl hbody
      | cons c body =>
        exact Option.isSome_map.trans (hfound _ ⟨body, back, rfl⟩)
    | cons c skipped =>
      refine Option.isSome_map.trans (hfound _ ⟨skipped ++ body, back, ?_⟩)
      simp

theorem not_infix_of_next? (hopening : opening ≠ []) (hclosing : closing ≠ [])
    (h : next? opening closing text = some (before, body, after)) :
    ¬ opening <:+: before ∧ ¬ closing <:+: body.tail := by
  unfold next? at h
  split at h
  · next b first rest hopen =>
    obtain ⟨⟨x, y⟩, hclose, heq⟩ := Option.map_eq_some_iff.mp h
    cases heq
    exact ⟨not_infix_of_cut? hopening hopen, not_infix_of_cut? hclosing hclose⟩
  · cases h

/-- A row of parts goes on with one more in front. -/
theorem Splits.cons {parts : List Part} (p : Part) (h : Splits opening closing text parts)
    (hlit : ∀ content, p = .literal content → content ≠ [] ∧
      ∃ q rest, parts = .body q :: rest ∧ ¬ opening <:+: content)
    (hbody : ∀ content, p = .body content → content ≠ [] ∧ ¬ closing <:+: content.tail) :
    Splits opening closing (p.source opening closing ++ text) (p :: parts) where
  source := by rw [flatMap_cons, h.source]
  literal content hmem := by
    rcases mem_cons.mp hmem with heq | hmem
    · exact (hlit content heq.symm).1
    · exact h.literal content hmem
  body content hmem := by
    rcases mem_cons.mp hmem with heq | hmem
    · exact hbody content heq.symm
    · exact h.body content hmem
  neighbours front x y back heq := by
    cases front with
    | cons z front =>
      cases heq
      exact h.neighbours front x y back rfl
    | nil =>
      cases heq
      cases p with
      | body content => trivial
      | literal content =>
        obtain ⟨-, q, rest, heq, hopening⟩ := hlit content rfl
        cases heq
        exact hopening
  last content hlast := by
    cases parts with
    | cons q rest =>
      exact h.last content hlast
    | nil =>
      cases hlast
      obtain ⟨-, q, rest, heq, -⟩ := hlit content rfl
      cases heq

theorem exists_splits_literal (h : ¬ Interpolates opening closing text) : ∃ parts,
    literalTokens text = parts.map Part.token ∧ Splits opening closing text parts := by
  cases text with
  | nil =>
    refine ⟨[], rfl, rfl, ?_, ?_, ?_, ?_⟩
    · exact fun _ hmem => absurd hmem not_mem_nil
    · exact fun _ hmem => absurd hmem not_mem_nil
    · exact fun front p q back heq =>
        absurd heq.symm (append_ne_nil_of_right_ne_nil _ (cons_ne_nil p _))
    · exact fun _ hlast => absurd hlast (Option.some_ne_none _).symm
  | cons c text =>
    refine ⟨[.literal (c :: text)], rfl, append_nil _, ?_, ?_, ?_, ?_⟩
    · intro content hmem
      cases mem_singleton.mp hmem
      exact cons_ne_nil c text
    · intro content hmem
      cases mem_singleton.mp hmem
    · intro front p q back heq
      have hlen := congrArg length heq
      simp only [length_append, length_cons, length_nil] at hlen
      omega
    · intro content hlast
      cases hlast
      exact h

theorem exists_splits (hopening : opening ≠ []) (hclosing : closing ≠ []) (text : List Char) :
    ∃ parts, tokens opening closing text = parts.map Part.token ∧
      Splits opening closing text parts := by
  cases hnext : next? opening closing text with
  | none =>
    rw [Sliced.tokens_of_none hnext]
    refine exists_splits_literal fun h => ?_
    rw [← next?_isSome_iff, hnext] at h
    cases h
  | some p =>
    obtain ⟨before, body, after⟩ := p
    have hshorter : after.length < text.length := length_lt_of_next? hnext
    obtain ⟨parts, htokens, hparts⟩ := exists_splits hopening hclosing after
    obtain ⟨htext, hbody⟩ := Sliced.append_eq_of_next? hnext
    obtain ⟨hbef, htail⟩ := not_infix_of_next? hopening hclosing hnext
    have hfound :
        Splits opening closing (opening ++ body ++ closing ++ after) (.body body :: parts) :=
      hparts.cons (.body body) (fun _ heq => by cases heq)
        (fun _ heq => by cases heq; exact ⟨hbody, htail⟩)
    rw [Sliced.tokens_of_some hnext, htokens, htext]
    cases before with
    | nil => exact ⟨.body body :: parts, rfl, by simpa using hfound⟩
    | cons c before =>
      refine ⟨.literal (c :: before) :: .body body :: parts, rfl, ?_⟩
      have hall := hfound.cons (.literal (c :: before))
        (fun _ heq => by cases heq; exact ⟨cons_ne_nil c before, body, parts, rfl, hbef⟩)
        (fun _ heq => by cases heq)
      simpa [Part.source] using hall
termination_by text.length

/-- A text is left alone exactly if it holds no interpolation. Otherwise its tokens come from parts
that make up the text: no literal is empty or holds what would have been split, and a body ends at
the first closing delimiter behind its first character. -/
theorem parse?_splits (opening closing text : String) (hopening : opening ≠ "")
    (hclosing : closing ≠ "") :
    (parse? (some (opening, closing)) text = none ↔
      ¬ Interpolates opening.toList closing.toList text.toList) ∧
    ∀ tokens, parse? (some (opening, closing)) text = some tokens →
      ∃ parts, tokens = parts.map Part.token ∧
        Splits opening.toList closing.toList text.toList parts := by
  have hpair : delimiters (some (opening, closing)) = (opening.toList, closing.toList) :=
    if_neg (not_or.mpr ⟨hopening, hclosing⟩)
  have hchars {s : String} (h : s ≠ "") : s.toList ≠ [] := by simpa using h
  rw [parse?, hpair, ← next?_isSome_iff]
  dsimp only
  split
  · next hsome =>
    refine ⟨by simp [hsome], ?_⟩
    rintro tokens ⟨⟩
    exact exists_splits (hchars hopening) (hchars hclosing) text.toList
  · next hnone => exact ⟨by simp [hnone], fun tokens h => by cases h⟩

/-- A closing delimiter right behind the opening one is part of the body. -/
theorem parse?_splits_brackets : ¬ Interpolates "[[".toList "]]".toList "a [[]]".toList ∧
    ∃ parts, [.literal "a ", .expression "]] b", .literal " [[c"] = parts.map Part.token ∧
      Splits "[[".toList "]]".toList "a [[]] b]] [[c".toList parts := by
  refine ⟨(parse?_splits _ _ _ (by decide) (by decide)).1.mp (by decide +kernel), ?_⟩
  exact (parse?_splits _ _ _ (by decide) (by decide)).2 _ (by decide +kernel)

end Interpolation

end TemplateCompiler
