import TemplateCompiler.Data.JsonText

/-!
# Literals are read back

A string literal of the generated code is also a string of JSON, and reading it gives back the text
it was made from (`string?_literal`). So two texts never have the same literal. `literal_faithful`
adds what a literal is made of: no control characters, no line separators, and no quote inside
without a backslash that escapes it.
-/

namespace TemplateCompiler.Text

open Json List

variable {n : Nat} {c : Char} {before cs rest after : List Char}

def written (c : Char) : List Char := (escape c).flatMap escapeSeparator

theorem toList_literal (s : String) :
    (literal s).toList = '"' :: s.toList.flatMap written ++ ['"'] := by
  have hquote : escapeSeparator '"' = ['"'] := rfl
  simp [literal, escapeSeparators, quoted, quotedChars, flatMap_assoc, hquote]
  rfl

theorem digits?_control (h : n < 0x20) :
    digits? 16 0 ['0', '0', hexChar (n / 16), hexChar (n % 16)] = some n := by
  revert n
  decide

theorem escapeSeparator_hexChar (h : n < 16) : escapeSeparator (hexChar n) = [hexChar n] := by
  revert n
  decide

theorem stringChar?_control (h : c.toNat < 0x20) (rest : List Char) :
    stringChar? ('\\' :: 'u' :: '0' :: '0' :: hexChar (c.toNat / 16) :: hexChar (c.toNat % 16) ::
      rest) = some (c, rest) := by
  have hdigits : hexEscape? ('0' :: '0' :: hexChar (c.toNat / 16) :: hexChar (c.toNat % 16) ::
      rest) = some (c.toNat, rest) := by
    show (digits? 16 0 ['0', '0', hexChar (c.toNat / 16), hexChar (c.toNat % 16)]).map _ = _
    rw [digits?_control h]
    rfl
  show unicodeEscape? _ = _
  unfold unicodeEscape?
  rw [hdigits]
  dsimp only
  rw [if_neg (by omega), if_neg (by omega), Char.ofNat_toNat]

theorem stringChar?_plain (hslash : c ≠ '\\') (h : ¬ c.toNat < 0x20) :
    stringChar? (c :: rest) = some (c, rest) := by
  unfold stringChar?
  split
  · next heq => exact absurd (cons.inj heq).1 hslash
  · next heq => exact absurd (cons.inj heq).1 hslash
  · next heq =>
    obtain ⟨rfl, rfl⟩ := cons.inj heq
    rw [if_neg (by simp [hslash, h])]
  · next heq => cases heq

/-- What may stand between the quotes of a literal. -/
def Inert (c : Char) : Prop := 0x20 ≤ c.toNat ∧ c ≠ '\u2028' ∧ c ≠ '\u2029'

instance (c : Char) : Decidable (Inert c) := inferInstanceAs (Decidable (_ ∧ _ ∧ _))

/-- A character is written as itself, or as a backslash and what is read as an escape behind it. -/
theorem written_cases (c : Char) : (written c = [c] ∧ c ≠ '"' ∧ c ≠ '\\' ∧ Inert c) ∨
    ∃ d rest, written c = '\\' :: d :: rest ∧ Inert d ∧ (∀ e ∈ rest, e ≠ '"' ∧ e ≠ '\\' ∧ Inert e) ∧
      ∀ after, stringChar? ('\\' :: d :: (rest ++ after)) = some (c, after) := by
  have hdigit : ∀ n < 16, hexChar n ≠ '"' ∧ hexChar n ≠ '\\' ∧ Inert (hexChar n) := by decide
  have hdigits {a b c d : Nat} (h : a < 16 ∧ b < 16 ∧ c < 16 ∧ d < 16) :
      ∀ e ∈ [hexChar a, hexChar b, hexChar c, hexChar d], e ≠ '"' ∧ e ≠ '\\' ∧ Inert e := by
    simp only [forall_mem_cons]
    exact ⟨hdigit a h.1, hdigit b h.2.1, hdigit c h.2.2.1, hdigit d h.2.2.2, by simp⟩
  have hnone : ∀ e ∈ ([] : List Char), e ≠ '"' ∧ e ≠ '\\' ∧ Inert e := by simp
  generalize hw : written c = w
  unfold written escape at hw
  split at hw
  · next h => exact .inr ⟨'"', [], hw.symm, by decide, hnone, fun _ => by rw [h]; rfl⟩
  next hquote =>
  split at hw
  · next h => exact .inr ⟨'\\', [], hw.symm, by decide, hnone, fun _ => by rw [h]; rfl⟩
  next hslash =>
  iterate 5
    split at hw
    · next h => exact .inr ⟨_, [], hw.symm, by decide, hnone, fun _ => h ▸ rfl⟩
  split at hw
  · next hcontrol =>
    refine .inr ⟨'u', ['0', '0', hexChar (c.toNat / 16), hexChar (c.toNat % 16)], ?_, by decide,
      hdigits (a := 0) (b := 0) (by omega), stringChar?_control hcontrol⟩
    subst hw
    show '\\' :: 'u' :: '0' :: '0' :: (escapeSeparator _ ++ (escapeSeparator _ ++ [])) = _
    rw [escapeSeparator_hexChar (by omega), escapeSeparator_hexChar (by omega)]
    rfl
  next hplain =>
  rw [flatMap_singleton] at hw
  unfold escapeSeparator at hw
  split at hw
  · next h =>
    exact .inr ⟨'u', _, hw.symm, by decide, hdigits (a := 2) (b := 0) (c := 2) (d := 8) (by omega),
      fun _ => h ▸ rfl⟩
  next hline =>
  split at hw
  · next h =>
    exact .inr ⟨'u', _, hw.symm, by decide, hdigits (a := 2) (b := 0) (c := 2) (d := 9) (by omega),
      fun _ => h ▸ rfl⟩
  next hparagraph =>
    exact .inl ⟨hw.symm, hquote, hslash, Nat.le_of_not_lt hplain, hline, hparagraph⟩

theorem stringChar?_written (c : Char) (rest : List Char) :
    stringChar? (written c ++ rest) = some (c, rest) := by
  rcases written_cases c with ⟨hc, -, hslash, hinert⟩ | ⟨d, tail, hc, -, -, hread⟩
  · rw [hc]
    exact stringChar?_plain hslash (Nat.not_lt.mpr hinert.1)
  · rw [hc]
    exact hread rest

theorem written_append_ne : written c ++ rest ≠ '"' :: after := by
  intro h
  have hread := stringChar?_written c rest
  rw [h] at hread
  obtain ⟨rfl, -⟩ := Prod.mk.inj (Option.some.inj hread)
  cases h

theorem stringBody?_written {fuel : Nat} (h : cs.length < fuel) :
    stringBody? fuel (cs.flatMap written ++ '"' :: rest) = some (cs, rest) := by
  induction cs generalizing fuel with
  | nil =>
    obtain ⟨fuel, rfl⟩ := Nat.exists_eq_add_one_of_ne_zero (Nat.ne_of_gt h)
    rfl
  | cons c cs ih =>
    obtain ⟨fuel, rfl⟩ := Nat.exists_eq_add_one_of_ne_zero (Nat.ne_of_gt (Nat.zero_lt_of_lt h))
    have hrest := ih (Nat.lt_of_succ_lt_succ h)
    rw [flatMap_cons, append_assoc]
    unfold stringBody?
    split
    · next heq => cases heq
    · next heq => exact absurd heq written_append_ne
    · next heq _ =>
      cases heq
      rw [stringChar?_written]
      dsimp only
      rw [hrest]
      rfl

theorem length_le_flatMap_written (cs : List Char) : cs.length ≤ (cs.flatMap written).length := by
  induction cs with
  | nil => exact Nat.le_refl _
  | cons c cs ih =>
    have hne : written c ≠ [] := fun h => by
      have hread := stringChar?_written c []
      rw [h] at hread
      cases hread
    have := length_pos_iff.mpr hne
    rw [flatMap_cons, length_append, length_cons]
    omega

theorem string?_literal (s : String) (rest : List Char) :
    string? ((literal s).toList ++ rest) = some (s, rest) := by
  rw [toList_literal, cons_append, cons_append, append_assoc]
  show (stringBody? _ (s.toList.flatMap written ++ '"' :: rest)).map _ = _
  rw [stringBody?_written]
  · rw [Option.map_some, String.ofList_toList]
  · have := length_le_flatMap_written s.toList
    rw [List.length_append]
    omega

theorem literal_inj {s t : String} (h : literal s = literal t) : s = t := by
  have hs := string?_literal s []
  rw [h, string?_literal t []] at hs
  exact (Prod.mk.inj (Option.some.inj hs)).1.symm

/-! ## Quotes inside of literals -/

def backslashes (cs : List Char) : Nat := (cs.reverse.takeWhile (· == '\\')).length

theorem backslashes_concat :
    backslashes (cs ++ [c]) = if c = '\\' then backslashes cs + 1 else 0 := by
  rw [backslashes, List.reverse_concat]
  by_cases h : c = '\\'
  · simp [h, backslashes]
  · simp [h]

def Escaped (before cs : List Char) : Prop :=
  ∀ front back, cs = front ++ '"' :: back → backslashes (before ++ front) % 2 = 1

theorem Escaped.append {ds : List Char} (h : Escaped before cs)
    (h' : Escaped (before ++ cs) ds) : Escaped before (cs ++ ds) := by
  intro front back heq
  rcases append_eq_append_iff.mp heq with ⟨zs, rfl, hds⟩ | ⟨zs, rfl, hquote⟩
  · rw [← append_assoc]
    exact h' zs back hds
  · cases zs with
    | nil =>
      have hfirst := h' [] back hquote.symm
      rwa [append_nil, append_nil] at hfirst
    | cons z zs =>
      cases hquote
      exact h front zs rfl

theorem escaped_of_not_mem (h : '"' ∉ cs) : Escaped before cs := by
  rintro front back rfl
  exact absurd (List.mem_append_right front List.mem_cons_self) h

theorem backslashes_eq_zero (hne : cs ≠ []) (h : '\\' ∉ cs) : backslashes (before ++ cs) = 0 := by
  rw [← List.dropLast_concat_getLast hne, ← List.append_assoc, backslashes_concat, if_neg]
  exact fun heq => h (heq ▸ List.getLast_mem hne)

/-- An even number of backslashes before a written character is followed by an even number. -/
theorem escaped_written (h : backslashes before % 2 = 0) (c : Char) :
    Escaped before (written c) ∧ backslashes (before ++ written c) % 2 = 0 := by
  rcases written_cases c with ⟨hc, hquote, hslash, -⟩ | ⟨d, rest, hc, -, hrest, -⟩
  · rw [hc, backslashes_concat, if_neg hslash]
    exact ⟨escaped_of_not_mem (by simp [Ne.symm hquote]), rfl⟩
  have hopen : backslashes (before ++ ['\\']) % 2 = 1 := by
    rw [backslashes_concat, if_pos rfl]
    omega
  have hsecond : backslashes (before ++ ['\\', d]) % 2 = 0 := by
    rw [List.append_cons, backslashes_concat]
    split <;> omega
  have htext : written c = ['\\', d] ++ rest := hc
  have hpair : Escaped before ['\\', d] := by
    intro front back heq
    rcases front with _ | ⟨a, _ | ⟨b, front⟩⟩
    · cases heq
    · cases heq
      exact hopen
    · simp at heq
  rw [htext]
  refine ⟨hpair.append (escaped_of_not_mem fun hmem => (hrest _ hmem).1 rfl), ?_⟩
  rw [← List.append_assoc]
  cases rest with
  | nil => rwa [List.append_nil]
  | cons e rest =>
    rw [backslashes_eq_zero (List.cons_ne_nil e rest) fun hmem => (hrest _ hmem).2.1 rfl]

theorem escaped_flatMap_written (h : backslashes before % 2 = 0) :
    Escaped before (cs.flatMap written) := by
  induction cs generalizing before with
  | nil => exact escaped_of_not_mem List.not_mem_nil
  | cons c cs ih =>
    obtain ⟨hc, heven⟩ := escaped_written h c
    exact hc.append (ih heven)

theorem inert_of_mem_written {d : Char} (h : d ∈ written c) : Inert d := by
  rcases written_cases c with ⟨hc, -, -, hinert⟩ | ⟨e, rest, hc, hinert, hrest, -⟩
  · rw [hc, List.mem_singleton] at h
    exact h ▸ hinert
  · rw [hc] at h
    rcases List.mem_cons.mp h with rfl | h
    · decide
    rcases List.mem_cons.mp h with rfl | h
    · exact hinert
    · exact (hrest d h).2.2

/-- A literal stands between double quotes. Every quote inside follows an odd number of backslashes,
no character inside is a control character or a line separator, and the literal is read as its text,
so no other text has it. -/
theorem literal_faithful (s : String) : ∃ body, (literal s).toList = '"' :: body ++ ['"'] ∧
    (∀ front back, body = front ++ '"' :: back → backslashes front % 2 = 1) ∧
    (∀ c ∈ body, 0x20 ≤ c.toNat ∧ c ≠ '\u2028' ∧ c ≠ '\u2029') ∧
    string? (literal s).toList = some (s, []) ∧
    ∀ t, literal t = literal s → t = s := by
  refine ⟨s.toList.flatMap written, toList_literal s, ?_, ?_, ?_, fun t => literal_inj⟩
  · have hstart : backslashes [] % 2 = 0 := rfl
    exact escaped_flatMap_written hstart
  · intro c hc
    obtain ⟨d, -, hwritten⟩ := mem_flatMap.mp hc
    exact inert_of_mem_written hwritten
  · rw [← append_nil (literal s).toList]
    exact string?_literal s []

/-- A backslash before a quote and a line separator. -/
example : literal "a\\\"\u2028" = "\"a\\\\\\\"\\u2028\"" := by
  decide +kernel

end TemplateCompiler.Text
