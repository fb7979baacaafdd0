import TemplateCompiler.Proofs.SlicedTexts

/-!
# Encoded texts

A character may be written as itself, by a name, or by its number in decimal or hexadecimal digits.
However each character of a text is written, decoding gives the text (`decodeReferences_encoded`).

An ampersand only ever starts a reference here, and no body of a reference holds a semicolon, so the
next semicolon ends it and what stands around it is never taken for a part of it.
-/

namespace TemplateCompiler.Text

open List Nat

/-! ## How characters are written -/

/-- The numeral of a number, with any number of zeros before it and each digit in either case. -/
def IsNumeral (base n : Nat) (digits : List Char) : Prop :=
  ∃ zeros, digits.map Char.toLower = replicate zeros '0' ++ toDigits base n

/-- The ways to write a character. The body of a reference has at most ten bytes. -/
inductive Writes (c : Char) : List Char → Prop where
  | raw (h : c ≠ '&') : Writes c [c]
  | named {name : String} (h : (name, c) ∈ namedReferences) :
    Writes c ('&' :: (name.toList ++ [';']))
  | decimal {digits : List Char} (h : IsNumeral 10 c.toNat digits)
    (hbytes : byteLength ('#' :: digits) ≤ 10) : Writes c ('&' :: ('#' :: digits ++ [';']))
  | hexadecimal {x : Char} {digits : List Char} (hx : x = 'x' ∨ x = 'X')
    (h : IsNumeral 16 c.toNat digits)
    (hbytes : byteLength ('#' :: x :: digits) ≤ 10) :
    Writes c ('&' :: ('#' :: x :: digits ++ [';']))

/-- A character and one way to write it. -/
structure Encoded where
  char : Char
  text : List Char
  writes : Writes char text

/-! ## Numerals -/

variable {base n value : Nat} {c : Char} {cs digits rest : List Char}

theorem exists_digits (hbase : 1 < base) (n : Nat) : ∃ ks : List Nat,
    toDigits base n = ks.map digitChar ∧ (∀ k ∈ ks, k < base) ∧
      ks.foldl (fun value k => value * base + k) 0 = n := by
  induction n using base_induction base hbase with
  | single m hm => exact ⟨[m], toDigits_of_lt_base hm, by simpa using hm, by simp⟩
  | digit m k hk hm ih =>
    obtain ⟨ks, hks, hlt, hval⟩ := ih
    refine ⟨ks ++ [k], ?_, ?_, ?_⟩
    · rw [← toDigits_append_toDigits hbase hm hk, toDigits_of_lt_base hk, hks, map_append]
      rfl
    · simpa [or_imp, forall_and] using ⟨hlt, hk⟩
    · rw [foldl_append, hval, foldl_cons, foldl_nil, Nat.mul_comm]

theorem hexDigit?_of_toLower {k : Nat} (hk : k < 16) (h : c.toLower = k.digitChar) :
    hexDigit? c = some k := by
  have hall : ∀ m < 128, ∀ k < 16, (Char.ofNat m).toLower = k.digitChar →
      hexDigit? (Char.ofNat m) = some k := by decide +kernel
  have hdigit : ∀ k < 16, k.digitChar.toNat < 128 := by decide
  have hsmall : c.toNat < 128 := by
    unfold Char.toLower at h
    split at h
    · next hupper =>
      have hle : c.val.toNat ≤ 90 := UInt32.le_iff_toNat_le.mp hupper.2
      exact Nat.lt_of_le_of_lt hle (by decide)
    · rw [h]
      exact hdigit k hk
  rw [← Char.ofNat_toNat c] at h ⊢
  exact hall c.toNat hsmall k hk h

theorem digits?_of_toLower {ks : List Nat} (hbase : base ≤ 16) (hks : ∀ k ∈ ks, k < base)
    (h : digits.map Char.toLower = ks.map digitChar) (value : Nat) :
    digits? base value digits = some (ks.foldl (fun value k => value * base + k) value) := by
  induction ks generalizing digits value with
  | nil =>
    rw [map_eq_nil_iff.mp h]
    rfl
  | cons k ks ih =>
    obtain ⟨d, ds, rfl, hd, hds⟩ := map_eq_cons_iff.mp h
    obtain ⟨hk, hrest⟩ := forall_mem_cons.mp hks
    have hdigit : digit? base d = some k := by
      rw [digit?, hexDigit?_of_toLower (Nat.lt_of_lt_of_le hk hbase) hd]
      simp [hk]
    rw [digits?, hdigit]
    exact ih hrest hds (value * base + k)

/-- A numeral is read as its number, whatever zeros it starts with. -/
theorem IsNumeral.digits?_eq (h : IsNumeral base n digits) (hbase : 1 < base) (hbase' : base ≤ 16) :
    digits? base 0 digits = some n := by
  obtain ⟨zeros, heq⟩ := h
  obtain ⟨ks, hks, hlt, hval⟩ := exists_digits hbase n
  have hmap : digits.map Char.toLower = (replicate zeros 0 ++ ks).map digitChar := by
    rw [heq, hks, map_append, map_replicate]
    rfl
  have hzeros (zeros : Nat) :
      (replicate zeros 0).foldl (fun value k => value * base + k) 0 = 0 := by
    induction zeros with
    | zero => rfl
    | succ zeros ih => simpa [replicate_succ] using ih
  have hall : ∀ k ∈ replicate zeros 0 ++ ks, k < base := by
    intro k hk
    rcases mem_append.mp hk with hk | hk
    · rw [eq_of_mem_replicate hk]
      omega
    · exact hlt k hk
  rw [digits?_of_toLower hbase' hall hmap, foldl_append, hzeros, hval]

theorem isSome_digit?_of_digits? (h : digits? base value cs = some n) :
    ∀ c ∈ cs, (hexDigit? c).isSome := by
  induction cs generalizing value with
  | nil => simp
  | cons d ds ih =>
    rw [digits?] at h
    split at h
    · next hd =>
      refine forall_mem_cons.mpr ⟨?_, ih h⟩
      rw [(Option.filter_eq_some_iff.mp hd).1]
      rfl
    · cases h

theorem not_mem_of_digits? (h : digits? base value cs = some n) (hc : hexDigit? c = none) :
    c ∉ cs := by
  intro hmem
  have hsome := isSome_digit?_of_digits? h c hmem
  rw [hc] at hsome
  cases hsome

theorem word?_of_digits? (hne : cs ≠ []) (h : digits? base 0 cs = some n) (hn : n < 0x100000000) :
    word? base cs = some n := by
  have hplus : (['+'] : List Char).isPrefixOf? cs = none := by
    refine isPrefixOf?_eq_none fun hplus => not_mem_of_digits? h (c := '+') (by decide) ?_
    exact hplus.subset mem_cons_self
  have hempty : cs.isEmpty = false := by simpa using hne
  simp [word?, hplus, hempty, h, hn]

theorem IsNumeral.word?_bind (h : IsNumeral base c.toNat digits) (hbase : 1 < base)
    (hbase' : base ≤ 16) :
    (word? base digits).bind charOfCode? = some c := by
  have hne : digits ≠ [] := by
    obtain ⟨zeros, heq⟩ := h
    rintro rfl
    simp at heq
  have hvalid : c.toNat.isValidChar := c.valid
  have hsmall : c.toNat < 0x100000000 := by
    rcases hvalid with h | h <;> omega
  rw [word?_of_digits? hne (h.digits?_eq hbase hbase') hsmall]
  simp [charOfCode?, hvalid]

/-! ## Decoding -/

theorem decodeChars_body {body : List Char} (hsemicolon : ';' ∉ body)
    (h : referenceBody? body = some c) :
    decodeChars ('&' :: (body ++ [';']) ++ rest) = c :: decodeChars rest := by
  have hread : reference? (body ++ [';'] ++ rest) = some (c, rest) := by
    rw [reference?, append_assoc, singleton_append, cut?_singleton_append hsemicolon]
    simp [h]
  exact Sliced.decodeChars_reference hread

theorem referenceBody?_number (hbytes : byteLength ('#' :: digits) ≤ 10) :
    referenceBody? ('#' :: digits) = numericReference? digits := by
  rw [referenceBody?, isEmpty_cons, if_neg]
  exact fun h => Nat.not_lt.mpr hbytes (of_decide_eq_true h)

theorem Writes.decodeChars_append {text : List Char} (h : Writes c text) (rest : List Char) :
    decodeChars (text ++ rest) = c :: decodeChars rest := by
  cases h with
  | raw h => exact Sliced.decodeChars_append (by simpa using Ne.symm h) rest
  | named h =>
    have hall : namedReferences.all (fun e => !e.1.toList.contains ';' &&
        referenceBody? e.1.toList == some e.2) := by decide +kernel
    have hname := all_eq_true.mp hall _ h
    simp only [Bool.and_eq_true, Bool.not_eq_true', beq_iff_eq] at hname
    exact decodeChars_body (by simpa using hname.1) hname.2
  | @decimal digits h hbytes =>
    have hdigits := h.digits?_eq (by decide) (by decide)
    refine decodeChars_body (by simpa using not_mem_of_digits? hdigits (by decide)) ?_
    rw [referenceBody?_number hbytes, numericReference?, h.word?_bind (by decide) (by decide)]
    · rintro ds rfl
      exact not_mem_of_digits? hdigits (by decide) mem_cons_self
    · rintro ds rfl
      exact not_mem_of_digits? hdigits (by decide) mem_cons_self
  | @hexadecimal x digits hx h hbytes =>
    have hsemicolon : ';' ∉ digits :=
      not_mem_of_digits? (h.digits?_eq (by decide) (by decide)) (by decide)
    rcases hx with rfl | rfl
    all_goals
      refine decodeChars_body (by simpa using hsemicolon) ?_
      rw [referenceBody?_number hbytes, numericReference?, h.word?_bind (by decide) (by decide)]

/-- Decoding gives the text that was encoded, however each of its characters is written. -/
theorem decodeReferences_encoded (text : List Encoded) :
    decodeReferences (String.ofList (text.flatMap Encoded.text)) =
      String.ofList (text.map Encoded.char) := by
  rw [decodeReferences, String.toList_ofList]
  congr 1
  induction text with
  | nil =>
    rw [flatMap_nil, decodeChars]
    rfl
  | cons e text ih => rw [flatMap_cons, e.writes.decodeChars_append, ih, map_cons]

/-- A raw semicolon and letters behind a reference are kept. -/
theorem decodeReferences_encoded_semicolon :
    decodeReferences "&#x0041;;amp;&amp;&#00038;" = "A;amp;&&" :=
  decodeReferences_encoded [
    ⟨_, _, @Writes.hexadecimal 'A' 'x' "0041".toList (.inl rfl) ⟨2, by decide⟩ (by decide)⟩,
    ⟨';', _, .raw (by decide)⟩, ⟨'a', _, .raw (by decide)⟩, ⟨'m', _, .raw (by decide)⟩,
    ⟨'p', _, .raw (by decide)⟩, ⟨';', _, .raw (by decide)⟩,
    ⟨_, _, @Writes.named '&' "amp" (by decide)⟩,
    ⟨_, _, @Writes.decimal '&' "00038".toList ⟨3, by decide⟩ (by decide)⟩]

end TemplateCompiler.Text
