import TemplateCompiler.Markup.Basic
import TemplateCompiler.Markup.Cursor
import TemplateCompiler.Text.Numeral
import TemplateCompiler.Text.Reference

/-!
# Tags

Reading one start tag or end tag. A start tag that cannot be read to its `>` is no tag at all. Every
attribute takes at least one character, so reading a tag ends.
-/

namespace TemplateCompiler.Markup

open Text

def isNameStart (c : Char) : Bool := c.isAlpha || c == '_' || (128 ≤ c.toNat && isLetter c)

def isNameChar (c : Char) : Bool :=
  c.isAlphanum || ['-', '.', '_', ':'].contains c || (128 ≤ c.toNat && isAlphanumeric c)

/-- The characters of an attribute name outside brackets. -/
def isAttrNameChar (c : Char) : Bool :=
  !isBlankChar c && !(['"', '\'', '<', '>', '/', '='].contains c)

/-- The characters of an attribute value without quotes. -/
def isBareValueChar (c : Char) : Bool :=
  !isBlankChar c && !(['"', '\'', '=', '<', '>', '`'].contains c)

def tagName? : List Char → Option (List Char × List Char)
  | [] => none
  | c :: cs =>
    if isNameStart c then some (c :: cs.takeWhile isNameChar, cs.dropWhile isNameChar) else none

/-- The bracketed part of an attribute name after its `[`: up to the first `]`, if no `=` comes
before that. -/
def bracketed? (cs : List Char) : Option (List Char × List Char) :=
  (cut? [']'] cs).filter fun p => !p.1.contains '='

theorem length_lt_of_bracketed? {cs inner rest : List Char}
    (h : bracketed? cs = some (inner, rest)) : rest.length < cs.length := by
  have := length_eq_of_cut? (Option.eq_some_of_filter_eq_some h)
  simp only [List.length_cons, List.length_nil] at this
  omega

/-- Reads an attribute name, which may hold a bracketed argument with any other characters in it. -/
def attrName (cs : List Char) : List Char × List Char :=
  match cs with
  | [] => ([], [])
  | c :: cs =>
    match _h : (if c = '[' then bracketed? cs else none) with
    | some (inner, after) =>
      let more := attrName after
      (c :: inner ++ ']' :: more.1, more.2)
    | none =>
      if isAttrNameChar c then
        let more := attrName cs
        (c :: more.1, more.2)
      else ([], c :: cs)
termination_by cs.length
decreasing_by
  · split at _h
    · have := length_lt_of_bracketed? _h
      simp only [List.length_cons]
      omega
    · cases _h
  · simp

/-- Nothing is lost between an attribute name and what follows it. -/
theorem attrName_append (cs : List Char) : (attrName cs).1 ++ (attrName cs).2 = cs := by
  fun_induction attrName cs with
  | case1 => rfl
  | case2 c cs inner after h more ih =>
    split at h
    · have := append_eq_of_cut? (Option.eq_some_of_filter_eq_some h)
      simp only [← this, List.cons_append, List.append_assoc, List.nil_append]
      exact congrArg _ (congrArg _ (congrArg _ ih))
    · cases h
  | case3 c cs h hc more ih =>
    exact congrArg _ ih
  | case4 c cs h hc => rfl

theorem length_attrName_snd_lt {cs : List Char} (h : (attrName cs).1.isEmpty = false) :
    (attrName cs).2.length < cs.length := by
  have := congrArg List.length (attrName_append cs)
  have hpos : 0 < (attrName cs).1.length := by
    cases hn : (attrName cs).1 with
    | nil => simp [hn] at h
    | cons c cs => simp
  simp only [List.length_append] at this
  omega

/-- Reads an attribute value after its `=`: quoted, or up to white space or a delimiter. -/
def attrValue? (c : Cursor) : Option (List Char × Cursor) :=
  match c.rest with
  | [] => none
  | q :: rest =>
    if q = '"' ∨ q = '\'' then
      (cut? [q] rest).map fun p => (p.1, c.past (q :: p.1 ++ [q]) p.2)
    else
      let value := c.takeWhile isBareValueChar
      if value.1.isEmpty then none else some value

theorem length_le_of_attrValue? {c c' : Cursor} {value : List Char}
    (h : attrValue? c = some (value, c')) : c'.rest.length ≤ c.rest.length := by
  unfold attrValue? at h
  split at h
  · cases h
  · next q rest hrest =>
    split at h
    · obtain ⟨p, hp, heq⟩ := Option.map_eq_some_iff.mp h
      cases heq
      have := length_eq_of_cut? hp
      simp only [Cursor.past, hrest, List.length_cons]
      omega
    · dsimp only at h
      split at h
      · cases h
      · cases h
        exact (List.dropWhile_sublist _).length_le

def attribute? (c : Cursor) : Option (Attr × Cursor) :=
  let (name, after) := attrName c.rest
  if name.isEmpty then none
  else
    let named := c.past name after
    match named.skipBlank.rest with
    | '=' :: rest =>
      (attrValue? (named.skipBlank.past ['='] rest).skipBlank).map fun p =>
        ({ name := String.ofList name
           value := String.ofList (decodeChars p.1)
           span := ⟨c.offset, p.2.offset⟩ }, p.2)
    | _ =>
      some ({ name := String.ofList name, value := "", span := ⟨c.offset, named.offset⟩ }, named)

theorem length_lt_of_attribute? {c c' : Cursor} {attr : Attr}
    (h : attribute? c = some (attr, c')) : c'.rest.length < c.rest.length := by
  unfold attribute? at h
  dsimp only at h
  split at h
  · cases h
  · next hname =>
    have hlt := length_attrName_snd_lt (Bool.eq_false_iff.mpr hname)
    split at h
    · next rest hrest =>
      obtain ⟨p, hp, heq⟩ := Option.map_eq_some_iff.mp h
      cases heq
      have h1 := length_le_of_attrValue? hp
      have h2 := Cursor.length_rest_skipBlank_le
        ((c.past (attrName c.rest).1 (attrName c.rest).2).skipBlank.past ['='] rest)
      have h3 := Cursor.length_rest_skipBlank_le (c.past (attrName c.rest).1 (attrName c.rest).2)
      rw [hrest] at h3
      simp only [Cursor.past, List.length_cons] at h1 h2 h3 ⊢
      omega
    · cases h
      exact hlt

/-- What follows the name in a start tag. -/
structure TagEnd where
  attrs : List Attr
  selfClosing : Bool
  cursor : Cursor

/-- Reads attributes up to the end of a start tag. All but the first must follow white space. -/
def tagEnd? (first : Bool) (c : Cursor) : Option TagEnd :=
  match c.skipBlank.rest with
  | '/' :: '>' :: rest => some ⟨[], true, c.skipBlank.past ['/', '>'] rest⟩
  | '>' :: rest => some ⟨[], false, c.skipBlank.past ['>'] rest⟩
  | _ =>
    if c.skipBlank.offset = c.offset && !first then none
    else
      match _h : attribute? c.skipBlank with
      | some (attr, after) => (tagEnd? false after).map fun e => { e with attrs := attr :: e.attrs }
      | none => none
termination_by c.rest.length
decreasing_by
  have h1 := length_lt_of_attribute? _h
  have h2 := Cursor.length_rest_skipBlank_le c
  omega

/-- A start tag, with the cursor past it. -/
structure StartTag where
  tag : String
  attrs : List Attr
  selfClosing : Bool
  cursor : Cursor

def startTag? (c : Cursor) : Option StartTag :=
  match c.rest with
  | '<' :: cs =>
    match tagName? cs with
    | some (name, rest) =>
      (tagEnd? true (c.past ('<' :: name) rest)).map fun e =>
        ⟨String.ofList name, e.attrs, e.selfClosing, e.cursor⟩
    | none => none
  | _ => none

/-- Reads the end tag at the start of a text: its name, what stands between the name and the `>`,
and what follows. -/
def endTag? : List Char → Option (List Char × List Char × List Char)
  | '<' :: '/' :: cs =>
    match tagName? cs with
    | some (name, rest) => (cut? ['>'] rest).map fun p => (name, p.1, p.2)
    | none => none
  | _ => none

theorem append_eq_of_tagName? {cs name rest : List Char} (h : tagName? cs = some (name, rest)) :
    name ++ rest = cs := by
  cases cs with
  | nil => simp [tagName?] at h
  | cons c cs =>
    simp only [tagName?] at h
    split at h
    · cases h
      simp
    · cases h

theorem append_eq_of_endTag? {cs name gap rest : List Char}
    (h : endTag? cs = some (name, gap, rest)) :
    '<' :: '/' :: name ++ gap ++ '>' :: rest = cs := by
  unfold endTag? at h
  split at h
  · next cs =>
    split at h
    · next name' rest' hname =>
      obtain ⟨p, hp, heq⟩ := Option.map_eq_some_iff.mp h
      cases heq
      rw [← append_eq_of_tagName? hname, ← append_eq_of_cut? hp]
      simp
    · cases h
  · cases h

theorem length_le_of_tagEnd? {first : Bool} {c : Cursor} {e : TagEnd}
    (h : tagEnd? first c = some e) : e.cursor.rest.length < c.rest.length := by
  fun_induction tagEnd? first c generalizing e with
  | case1 first c rest hrest =>
    cases h
    have := Cursor.length_rest_skipBlank_le c
    rw [hrest] at this
    simp only [Cursor.past, List.length_cons] at this ⊢
    omega
  | case2 first c rest hrest =>
    cases h
    have := Cursor.length_rest_skipBlank_le c
    rw [hrest] at this
    simp only [Cursor.past, List.length_cons] at this ⊢
    omega
  | case3 => cases h
  | case4 first c hgap attr after hattr _ _ ih =>
    obtain ⟨e', he', heq⟩ := Option.map_eq_some_iff.mp h
    cases heq
    have h1 := length_lt_of_attribute? hattr
    have h2 := Cursor.length_rest_skipBlank_le c
    have h3 := ih he'
    dsimp only
    omega
  | case5 => cases h

theorem length_lt_of_startTag? {c : Cursor} {s : StartTag} (h : startTag? c = some s) :
    s.cursor.rest.length < c.rest.length := by
  unfold startTag? at h
  split at h
  · next cs hrest =>
    split at h
    · next name rest hname =>
      obtain ⟨e, he, heq⟩ := Option.map_eq_some_iff.mp h
      cases heq
      have h1 := length_le_of_tagEnd? he
      have h2 := congrArg List.length (append_eq_of_tagName? hname)
      simp only [Cursor.past, hrest, List.length_cons, List.length_append] at h1 h2 ⊢
      omega
    · cases h
  · cases h

end TemplateCompiler.Markup
