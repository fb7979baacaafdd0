/-!
# Cutting texts

Splitting a list of characters at the first or last occurrence of a mark, and measuring lengths in
bytes of the UTF-8 encoding. A cut loses nothing: the two parts and the mark between them are the
text again.
-/

namespace TemplateCompiler.Text

/-- The text before the first occurrence of `mark` and the text after it. -/
def cut? (mark cs : List Char) : Option (List Char × List Char) :=
  match mark.isPrefixOf? cs with
  | some rest => some ([], rest)
  | none =>
    match cs with
    | [] => none
    | c :: cs => (cut? mark cs).map fun p => (c :: p.1, p.2)

/-- The text before the last occurrence of a character and the text after it. -/
def cutLast? (mark : Char) (cs : List Char) : Option (List Char × List Char) :=
  (cut? [mark] cs.reverse).map fun p => (p.2.reverse, p.1.reverse)

/-- The pieces of a text between the occurrences of a character: the first, and the others. -/
def splitAt (mark : Char) : List Char → List Char × List (List Char)
  | [] => ([], [])
  | c :: cs =>
    let rest := splitAt mark cs
    if c = mark then ([], rest.1 :: rest.2) else (c :: rest.1, rest.2)

def byteLength : List Char → Nat
  | [] => 0
  | c :: cs => c.utf8Size + byteLength cs

/-- The characters that make up the first `n` bytes of a text, if a character ends there. -/
def takeBytes? (n : Nat) (cs : List Char) : Option (List Char) :=
  if n = 0 then some []
  else
    match cs with
    | [] => none
    | c :: cs => if c.utf8Size ≤ n then (takeBytes? (n - c.utf8Size) cs).map (c :: ·) else none

theorem append_eq_of_isPrefixOf? {mark cs rest : List Char}
    (h : mark.isPrefixOf? cs = some rest) : mark ++ rest = cs := by
  induction mark generalizing cs with
  | nil => exact (Option.some.inj h).symm
  | cons m mark ih =>
    cases cs with
    | nil => exact absurd h (Option.some_ne_none _).symm
    | cons c cs =>
      change (if m == c then mark.isPrefixOf? cs else none) = some rest at h
      split at h
      · next hmc => simp [ih h, beq_iff_eq.mp hmc]
      · cases h

/-- A cut puts the mark between its two parts. -/
theorem append_eq_of_cut? {mark cs before after : List Char}
    (h : cut? mark cs = some (before, after)) : before ++ mark ++ after = cs := by
  induction cs generalizing before with
  | nil =>
    unfold cut? at h
    split at h
    · next rest hrest =>
      cases h
      simpa using append_eq_of_isPrefixOf? hrest
    · cases h
  | cons c cs ih =>
    unfold cut? at h
    split at h
    · next rest hrest =>
      cases h
      simpa using append_eq_of_isPrefixOf? hrest
    · obtain ⟨⟨a, b⟩, hab, heq⟩ := Option.map_eq_some_iff.mp h
      cases heq
      simpa using ih hab

theorem length_eq_of_cut? {mark cs before after : List Char}
    (h : cut? mark cs = some (before, after)) :
    cs.length = before.length + mark.length + after.length := by
  rw [← append_eq_of_cut? h, List.length_append, List.length_append]

end TemplateCompiler.Text
