import TemplateCompiler.Render.Code

/-!
# Lexically closed texts

A scan of source text by its quotes and brackets: a literal runs from a quote to the next quote of
the same kind that is not escaped, and outside of literals brackets are closed in the opposite order
of opening. A text is *closed* if a scan of it starts and ends outside of all literals and brackets.

`Reads opened text opened'` follows a scan from code to code. Generated code is put together from
texts that are not closed by themselves, such as the name of a function with its opening
parenthesis, so the lemmas about it are chains of `Reads`, in which a closed text changes nothing.

A line of code ends at a line separator or a paragraph separator, even inside of a string literal. A
text without them is *unbroken*.
-/

namespace TemplateCompiler

open List String Text

/-- The three kinds of quotes. -/
inductive Quote where
  | single
  | double
  | back
  deriving DecidableEq, Inhabited

/-- The three kinds of brackets. -/
inductive Bracket where
  | round
  | square
  | curly
  deriving DecidableEq, Inhabited

/-- What a character does in code. -/
inductive Role where
  | quote (q : Quote)
  | opening (b : Bracket)
  | closing (b : Bracket)
  | plain
  deriving DecidableEq, Inhabited

def role : Char → Role
  | '\'' => .quote .single
  | '"' => .quote .double
  | '`' => .quote .back
  | '(' => .opening .round
  | ')' => .closing .round
  | '[' => .opening .square
  | ']' => .closing .square
  | '\x7b' => .opening .curly
  | '\x7d' => .closing .curly
  | _ => .plain

/-- Where a scan stands: in code, in a literal, or after a backslash in a literal. The open brackets
are known in each case, innermost first. -/
inductive Lexer where
  | code (opened : List Bracket)
  | literal (q : Quote) (opened : List Bracket)
  | escape (q : Quote) (opened : List Bracket)
  deriving DecidableEq, Inhabited

variable {s s' : Lexer} {c : Char} {cs : List Char} {opened outer : List Bracket}
  {good : String → Prop}
  {texts : List String}

namespace Lexer

/-- Goes on by one character. A bracket that is closed has to be the innermost open one. -/
def step : Lexer → Char → Option Lexer
  | .code opened, c =>
    match role c with
    | .quote q => some (.literal q opened)
    | .opening b => some (.code (b :: opened))
    | .closing b =>
      match opened with
      | innermost :: outer => if innermost = b then some (.code outer) else none
      | [] => none
    | .plain => some (.code opened)
  | .literal q opened, c =>
    if c = '\\' then some (.escape q opened)
    else if role c = .quote q then some (.code opened)
    else some (.literal q opened)
  | .escape q opened, _ => some (.literal q opened)

def scan : Lexer → List Char → Option Lexer
  | s, [] => some s
  | s, c :: cs => (s.step c).bind (scan · cs)

theorem scan_append (s : Lexer) (first second : List Char) :
    s.scan (first ++ second) = (s.scan first).bind (scan · second) := by
  induction first generalizing s with
  | nil => rfl
  | cons c cs ih =>
    show (s.step c).bind (scan · (cs ++ second)) = ((s.step c).bind (scan · cs)).bind _
    cases s.step c with
    | none => rfl
    | some next => exact ih next

/-! ## Brackets that are open around a scan -/

def inside (outer : List Bracket) : Lexer → Lexer
  | .code opened => .code (opened ++ outer)
  | .literal q opened => .literal q (opened ++ outer)
  | .escape q opened => .escape q (opened ++ outer)

theorem step_inside (h : s.step c = some s') :
    (s.inside outer).step c = some (s'.inside outer) := by
  cases s with
  | code opened =>
    simp only [step, inside] at h ⊢
    cases hc : role c with
    | quote q =>
      simp only [hc] at h ⊢
      rw [← Option.some.inj h]
    | opening b =>
      simp only [hc] at h ⊢
      rw [← Option.some.inj h]
      rfl
    | plain =>
      simp only [hc] at h ⊢
      rw [← Option.some.inj h]
    | closing b =>
      simp only [hc] at h ⊢
      cases opened with
      | nil => cases h
      | cons innermost rest =>
        simp only [cons_append] at h ⊢
        split at h
        · next heq =>
          rw [if_pos heq, ← Option.some.inj h]
        · cases h
  | literal q opened =>
    simp only [step, inside] at h ⊢
    split at h
    · next hc => rw [if_pos hc, ← Option.some.inj h]
    · next hc =>
      rw [if_neg hc]
      split at h
      · next hq => rw [if_pos hq, ← Option.some.inj h]
      · next hq => rw [if_neg hq, ← Option.some.inj h]
  | escape q opened =>
    rw [← Option.some.inj h]
    rfl

theorem scan_inside (outer : List Bracket)
    (h : s.scan cs = some s') : (s.inside outer).scan cs = some (s'.inside outer) := by
  induction cs generalizing s with
  | nil =>
    rw [← Option.some.inj h]
    rfl
  | cons c cs ih =>
    obtain ⟨next, hstep, hrest⟩ := Option.bind_eq_some_iff.mp h
    exact Option.bind_eq_some_iff.mpr ⟨_, step_inside hstep, ih hrest⟩

/-! ## Single characters -/

theorem step_plain (hc : role c = .plain) : step (.code opened) c = some (.code opened) := by
  simp only [step, hc]

/-- A plain character after which the scan is in code stands in code itself. -/
theorem eq_of_step_plain (hc : role c = .plain)
    (h : s.step c = some (.code opened)) : s = .code opened := by
  cases s with
  | code before =>
    rw [step_plain hc] at h
    exact Option.some.inj h
  | literal q before =>
    simp only [step, hc] at h
    split at h <;> cases h
  | escape q before => cases h

theorem eq_of_step_closing {b : Bracket}
    (hc : role c = .closing b) (h : s.step c = some (.code opened)) : s = .code (b :: opened) := by
  cases s with
  | code before =>
    simp only [step, hc] at h
    cases before with
    | nil => cases h
    | cons innermost outer =>
      dsimp only at h
      split at h
      · next heq =>
        cases h
        rw [heq]
      · cases h
  | literal q before =>
    simp only [step, hc] at h
    split at h <;> cases h
  | escape q before => cases h

theorem scan_plain (h : ∀ c ∈ cs, role c = .plain) :
    scan (.code opened) cs = some (.code opened) := by
  induction cs with
  | nil => rfl
  | cons c cs ih =>
    show (step (.code opened) c).bind _ = _
    rw [step_plain (h c mem_cons_self)]
    exact ih fun d hd => h d (mem_cons_of_mem _ hd)

theorem eq_of_scan_plain
    (hcs : ∀ c ∈ cs, role c = .plain) (h : s.scan cs = some (.code opened)) : s = .code opened := by
  induction cs generalizing s with
  | nil => exact Option.some.inj h
  | cons c cs ih =>
    obtain ⟨next, hstep, hrest⟩ := Option.bind_eq_some_iff.mp h
    rw [ih (fun d hd => hcs d (mem_cons_of_mem _ hd)) hrest] at hstep
    exact eq_of_step_plain (hcs c mem_cons_self) hstep

/-- Characters that neither end a literal nor escape anything keep the scan in it. -/
theorem scan_in_literal {q : Quote} (h : ∀ c ∈ cs, c ≠ '\\' ∧ role c ≠ .quote q)
    (opened : List Bracket) : scan (.literal q opened) cs = some (.literal q opened) := by
  induction cs with
  | nil => rfl
  | cons c cs ih =>
    obtain ⟨hslash, hquote⟩ := h c mem_cons_self
    have hstep : step (.literal q opened) c = some (.literal q opened) := by
      simp only [step]
      rw [if_neg hslash, if_neg hquote]
    show (step (.literal q opened) c).bind _ = _
    rw [hstep]
    exact ih fun d hd => h d (mem_cons_of_mem _ hd)

end Lexer

open Lexer

/-! ## From code to code -/

/-- A scan of the text leads from code with some brackets open to code with others open. -/
def Reads (before : List Bracket) (text : String) (after : List Bracket) : Prop :=
  scan (.code before) text.toList = some (.code after)

/-- A scan of the text starts and ends outside of literals and brackets. -/
def Closed (text : String) : Prop := Reads [] text []

instance (before after : List Bracket) (text : String) : Decidable (Reads before text after) :=
  inferInstanceAs (Decidable (_ = _))

instance (text : String) : Decidable (Closed text) := inferInstanceAs (Decidable (Reads _ _ _))

theorem Reads.append {before mid after : List Bracket} {first second : String}
    (h : Reads before first mid) (h' : Reads mid second after) :
    Reads before (first ++ second) after := by
  unfold Reads
  rw [String.toList_append, scan_append, h]
  exact h'

/-- A property of texts that is kept by putting them together, of texts with another between. -/
theorem intercalate_of {s : String} (empty : good "")
    (append : ∀ s t, good s → good t → good (s ++ t)) (hs : good s) (h : ∀ t ∈ texts, good t) :
    good (String.intercalate s texts) := by
  induction texts with
  | nil => exact empty
  | cons first rest ih =>
    have hfirst := h first mem_cons_self
    cases rest with
    | nil => exact hfirst
    | cons second rest =>
      rw [String.intercalate_cons_cons]
      exact append _ _ (append _ _ hfirst hs) (ih fun t ht => h t (mem_cons_of_mem _ ht))

theorem join_of (empty : good "")
    (append : ∀ s t, good s → good t → good (s ++ t)) (h : ∀ t ∈ texts, good t) :
    good (String.join texts) := by
  induction texts with
  | nil => exact empty
  | cons first rest ih =>
    rw [String.join_cons]
    exact append _ _ (h first mem_cons_self) (ih fun t ht => h t (mem_cons_of_mem _ ht))

namespace Closed

variable {s t : String} {texts : List String}

theorem reads (h : Closed s) (opened : List Bracket) : Reads opened s opened :=
  scan_inside opened h

theorem empty : Closed "" := rfl

theorem comma : Closed "," := rfl

theorem append (hs : Closed s) (ht : Closed t) : Closed (s ++ t) := Reads.append hs ht

theorem intercalate (hs : Closed s) (h : ∀ t ∈ texts, Closed t) :
    Closed (String.intercalate s texts) := intercalate_of empty (fun _ _ => append) hs h

theorem ofList_plain (h : ∀ c ∈ cs, role c = .plain) : Closed (String.ofList cs) := by
  unfold Closed Reads
  rw [String.toList_ofList]
  exact scan_plain h

theorem repr (n : Nat) : Closed n.repr := by
  apply ofList_plain
  intro c hc
  have hdigit := Nat.isDigit_of_mem_toDigits (by decide) (by decide) hc
  -- None of the characters with a role of their own is a digit.
  unfold role
  split <;> first | rfl | (exfalso; revert hdigit; decide)

/-- A text between single quotes that has neither such a quote nor a backslash. -/
theorem singleQuoted (h : ∀ c ∈ s.toList, c ≠ '\'' ∧ c ≠ '\\') : Closed ("'" ++ s ++ "'") := by
  have hinner : scan (.literal .single []) s.toList = some (.literal .single []) := by
    apply scan_in_literal
    intro c hc
    obtain ⟨hquote, hslash⟩ := h c hc
    refine ⟨hslash, ?_⟩
    unfold role
    split <;> simp_all
  unfold Closed Reads
  rw [String.toList_append, String.toList_append, scan_append]
  show ((scan (.literal .single []) s.toList).bind _) = _
  rw [hinner]
  rfl

/-- Taking a plain character off the end of a closed text leaves a closed text. -/
theorem of_concat_plain (hc : role c = .plain)
    (h : Closed (String.ofList (cs ++ [c]))) : Closed (String.ofList cs) := by
  unfold Closed Reads at h ⊢
  rw [String.toList_ofList, scan_append] at h
  rw [String.toList_ofList]
  obtain ⟨last, hlast, hrest⟩ := Option.bind_eq_some_iff.mp h
  rw [hlast, eq_of_scan_plain (by simpa using hc) hrest]

/-! ## Quoted texts -/

theorem role_hexChar {n : Nat} (h : n < 16) :
    Text.hexChar n ≠ '\\' ∧ role (Text.hexChar n) = .plain := by
  revert n
  decide

/-- How a character is written between double quotes never ends the literal. -/
theorem scan_escape :
    scan (.literal .double opened) (Text.escape c) = some (.literal .double opened) := by
  unfold Text.escape
  split
  · rfl
  next hquote =>
  split
  · rfl
  next hslash =>
  iterate 5 (split; · rfl)
  split
  · -- After the backslash and the `u` come four digits.
    show scan (.literal .double opened)
      ['0', '0', Text.hexChar (c.toNat / 16), Text.hexChar (c.toNat % 16)] = _
    refine scan_in_literal (fun d hd => ?_) opened
    have hhigh := role_hexChar (n := c.toNat / 16) (by omega)
    have hlow := role_hexChar (n := c.toNat % 16) (by omega)
    simp only [mem_cons, not_mem_nil, or_false] at hd
    rcases hd with rfl | rfl | rfl | rfl
    · decide
    · decide
    · simp [hhigh]
    · simp [hlow]
  · refine scan_in_literal (fun d hd => ?_) opened
    rw [mem_singleton.mp hd]
    refine ⟨hslash, ?_⟩
    unfold role
    split <;> simp_all

theorem scan_flatMap_escape :
    scan (.literal .double opened) (cs.flatMap Text.escape) = some (.literal .double opened) := by
  induction cs with
  | nil => rfl
  | cons c cs ih =>
    rw [flatMap_cons, scan_append, scan_escape]
    exact ih

theorem quoted (s : String) : Closed (Text.quoted s) := by
  unfold Closed Reads Text.quoted Text.quotedChars
  rw [String.toList_ofList]
  show scan (.literal .double []) (s.toList.flatMap Text.escape ++ ['"']) = _
  rw [scan_append, scan_flatMap_escape]
  rfl

theorem scan_escapeSeparator (s : Lexer) : s.scan (escapeSeparator c) = s.step c := by
  unfold escapeSeparator
  split
  · next hc => subst hc; cases s <;> rfl
  · split
    · next hc => subst hc; cases s <;> rfl
    · show (s.step c).bind some = s.step c
      cases s.step c <;> rfl

theorem scan_flatMap_escapeSeparator (s : Lexer) :
    s.scan (cs.flatMap escapeSeparator) = s.scan cs := by
  induction cs generalizing s with
  | nil => rfl
  | cons c cs ih =>
    rw [flatMap_cons, scan_append, scan_escapeSeparator]
    congr 1
    funext next
    exact ih next

theorem escapeSeparators (h : Closed s) : Closed (escapeSeparators s) := by
  unfold Closed Reads Text.escapeSeparators
  rw [toList_ofList, scan_flatMap_escapeSeparator]
  exact h

theorem literal (s : String) : Closed (literal s) := (quoted s).escapeSeparators

/-! ## Blanks at the ends -/

theorem role_of_isBlankChar (h : isBlankChar c) : role c = .plain := by
  unfold role
  split <;> first | rfl | (exfalso; revert h; decide)

theorem trim (h : Closed s) : Closed (Text.trim s) := by
  have hstart : scan (.code []) (trimStart s.toList) = some (.code []) := by
    have hsplit := takeWhile_append_dropWhile (p := isBlankChar) (l := s.toList)
    unfold Closed Reads at h
    rw [← hsplit, scan_append, scan_plain fun c hc => ?_] at h
    · exact h
    · exact role_of_isBlankChar (List.all_eq_true.mp all_takeWhile c hc)
  have hsplit := takeWhile_append_dropWhile (p := isBlankChar) (l := (trimStart s.toList).reverse)
  have hends := congrArg List.reverse hsplit
  rw [reverse_append, reverse_reverse] at hends
  unfold Closed Reads Text.trim Text.trimmed Text.trimEnd
  rw [toList_ofList]
  rw [← hends, scan_append] at hstart
  obtain ⟨last, hlast, hrest⟩ := Option.bind_eq_some_iff.mp hstart
  rw [hlast, eq_of_scan_plain (fun c hc => ?_) hrest]
  exact role_of_isBlankChar (List.all_eq_true.mp all_takeWhile c (mem_reverse.mp hc))

/-! ## JSON -/

theorem reprInt (n : Int) : Closed n.repr := by
  cases n with
  | ofNat n => exact repr n
  | negSucc n => exact append rfl (repr (n + 1))

mutual

theorem compact : ∀ value : Json, Closed value.compact
  | .null => rfl
  | .bool true => rfl
  | .bool false => rfl
  | .number n => by
    exact reprInt n
  | .string text => by
    exact quoted text
  | .array items => by
    exact Reads.append (Reads.append rfl ((intercalate comma (compactItems items)).reads _)) rfl
  | .object fields => by
    exact Reads.append (Reads.append rfl ((intercalate comma (compactFields fields)).reads _)) rfl

theorem compactItems : ∀ (items : List Json), ∀ t ∈ Json.compactItems items, Closed t
  | [], _, h => by cases h
  | item :: rest, t, h => by
    rcases mem_cons.mp h with rfl | h
    · exact compact item
    · exact compactItems rest t h

theorem compactFields : ∀ (fields : List (String × Json)), ∀ t ∈ Json.compactFields fields, Closed t
  | [], _, h => by cases h
  | (key, value) :: rest, t, h => by
    rcases mem_cons.mp h with rfl | h
    · exact append (append (quoted key) rfl) (compact value)
    · exact compactFields rest t h

end

end Closed

/-! ## Line separators -/

namespace Text

/-- Whether a line of code ends at the character. -/
def isSeparator (c : Char) : Bool := c = '\u2028' || c = '\u2029'

theorem isSeparator_iff : isSeparator c ↔ c = '\u2028' ∨ c = '\u2029' := by
  simp [isSeparator]

def broken (s : String) : Bool := s.toList.any isSeparator

def Unbroken (s : String) : Prop := broken s = false

variable {s t : String} {cs front : List Char}

@[simp] theorem broken_append : broken (s ++ t) = (broken s || broken t) := by
  simp [broken]

theorem broken_ofList : broken (ofList cs) = cs.any isSeparator := by
  rw [broken, toList_ofList]

theorem unbroken_iff : Unbroken s ↔ ∀ c ∈ s.toList, isSeparator c = false := by
  simp [Unbroken, broken]

theorem broken_braced (s : String) : broken (braced s) = broken s := by
  have hopening : broken "\x7b" = false := rfl
  have hclosing : broken "\x7d" = false := rfl
  rw [braced, broken_append, broken_append, hopening, hclosing, Bool.or_false, Bool.false_or]

instance : DecidablePred Unbroken := fun s => inferInstanceAs (Decidable (broken s = false))

theorem unbroken_append_iff : Unbroken (s ++ t) ↔ Unbroken s ∧ Unbroken t := by
  simp [Unbroken]

namespace Unbroken

theorem empty : Unbroken "" := rfl

theorem append (hs : Unbroken s) (ht : Unbroken t) : Unbroken (s ++ t) :=
  unbroken_append_iff.mpr ⟨hs, ht⟩

theorem ofList (h : ∀ c ∈ cs, isSeparator c = false) : Unbroken (ofList cs) := by
  rwa [unbroken_iff, toList_ofList]

theorem subset (h : Unbroken s) (hsub : cs ⊆ s.toList) : Unbroken (String.ofList cs) :=
  .ofList fun c hc => unbroken_iff.mp h c (hsub hc)

theorem braced (h : Unbroken s) : Unbroken (TemplateCompiler.braced s) := (broken_braced s).trans h

theorem intercalate (hs : Unbroken s) (h : ∀ t ∈ texts, Unbroken t) :
    Unbroken (intercalate s texts) := intercalate_of empty (fun _ _ => append) hs h

theorem repr (n : Nat) : Unbroken n.repr := by
  refine ofList fun c hc => ?_
  have hdigit := Nat.isDigit_of_mem_toDigits (by decide) (by decide) hc
  refine Bool.eq_false_iff.mpr fun hseparator => ?_
  rcases isSeparator_iff.mp hseparator with rfl | rfl <;> exact absurd hdigit (by decide)

theorem escapeSeparators (s : String) : Unbroken (escapeSeparators s) := by
  have hescape (c : Char) : (escapeSeparator c).any isSeparator = false := by
    unfold escapeSeparator
    split
    · rfl
    split
    · rfl
    · next hline hparagraph => simp [isSeparator, hline, hparagraph]
  rw [Unbroken, Text.escapeSeparators, broken_ofList]
  simp [hescape]

theorem literal (s : String) : Unbroken (literal s) := escapeSeparators _

end Unbroken

end Text

end TemplateCompiler
