import TemplateCompiler.Proofs.Segments
import TemplateCompiler.Proofs.SlicedTexts

/-!
# Reading undoes printing

A `Forest` is markup as a tree: elements with their attributes and content, texts and comments.
`Forest.print` writes it out, with the ampersands and double quotes of attribute values as character
references, and `Forest.eventsFrom` lists its events in document order, with the place of each.

Main result: `read_print`. Whatever the forest, reading its written form gives exactly its events
and no warning, as long as names are names, texts and comments are written so that they end where
they end, and no tag changes the way its content is read.

The proof has one lemma per construct, about any text that may follow it. They are put together by
induction on the forest, for any open tags around it (`run_chars`).
-/

namespace TemplateCompiler.Markup

open Text Sliced List Option String

variable {content rest cs after : List Char} {c : Char} {a : String × String}
  {attrs : List (String × String)} {tag : String} {s : Scanner} {stack : List OpenTag} {f : Forest}
  {start : Nat} {span : Span}

/-! ## Forests and how they are written -/

/-- Markup as a tree. Each node comes with the nodes that follow it, and an element also with its
content. -/
inductive Forest where
  | nil
  | element (tag : String) (attrs : List (String × String)) (content rest : Forest)
  | unary (tag : String) (attrs : List (String × String)) (slash : Bool) (rest : Forest)
  | text (content : String) (rest : Forest)
  | comment (content : String) (rest : Forest)

/-- A character of an attribute value, as it is written between double quotes. -/
def escapeChar (c : Char) : List Char :=
  if c = '&' then "&amp;".toList else if c = '"' then "&quot;".toList else [c]

/-- An attribute value, as it is written between double quotes. -/
def escape (cs : List Char) : List Char := cs.flatMap escapeChar

/-- An attribute as it is written, given its name and its value. -/
def attrChars (a : String × String) : List Char :=
  a.1.toList ++ '=' :: '"' :: escape a.2.toList ++ ['"']

/-- The attributes of a start tag as they are written, each after a blank. -/
def attrsChars (attrs : List (String × String)) : List Char :=
  attrs.flatMap fun a => ' ' :: attrChars a

def startChars (tag : String) (attrs : List (String × String)) (slash : Bool) : List Char :=
  '<' :: tag.toList ++ (attrsChars attrs ++ tagClose slash)

def endChars (tag : String) : List Char := '<' :: '/' :: tag.toList ++ ['>']

def commentChars (content : String) : List Char := "<!--".toList ++ content.toList ++ "-->".toList

def Forest.chars : Forest → List Char
  | .nil => []
  | .element tag attrs content rest =>
    startChars tag attrs false ++ content.chars ++ endChars tag ++ rest.chars
  | .unary tag attrs slash rest => startChars tag attrs slash ++ rest.chars
  | .text content rest => content.toList ++ rest.chars
  | .comment content rest => commentChars content ++ rest.chars

def Forest.print (f : Forest) : String := String.ofList f.chars

/-- The attributes of a start tag, the first of them written at an offset with a blank before it. -/
def attrsFrom : Nat → List (String × String) → List Attr
  | _, [] => []
  | start, a :: attrs =>
    let stop := start + 1 + byteLength (attrChars a)
    ⟨a.1, a.2, ⟨start + 1, stop⟩⟩ :: attrsFrom stop attrs

def openedAt (start : Nat) (tag : String) (attrs : List (String × String)) (slash unary : Bool) :
    Event :=
  .opened tag (attrsFrom (start + byteLength ('<' :: tag.toList)) attrs) unary
    ⟨start, start + byteLength (startChars tag attrs slash)⟩

/-- The events of a forest that is written at an offset, in document order. -/
def Forest.eventsFrom : Nat → Forest → List Event
  | _, .nil => []
  | start, .element tag attrs content rest =>
    let inside := start + byteLength (startChars tag attrs false)
    let ended := inside + byteLength content.chars
    let stop := ended + byteLength (endChars tag)
    openedAt start tag attrs false false :: content.eventsFrom inside ++
      .closed tag ⟨ended, stop⟩ :: rest.eventsFrom stop
  | start, .unary tag attrs slash rest =>
    openedAt start tag attrs slash true ::
      rest.eventsFrom (start + byteLength (startChars tag attrs slash))
  | start, .text content rest =>
    let stop := start + byteLength content.toList
    .text content ⟨start, stop⟩ :: rest.eventsFrom stop
  | start, .comment content rest =>
    let stop := start + byteLength (commentChars content)
    .comment content ⟨start, stop⟩ :: rest.eventsFrom stop

/-! ## Forests that can be written -/

/-- A tag whose content is markup, all of it, from the first character on. -/
def IsPlainTag (t : TagTable) (tag : String) : Prop :=
  IsTagName tag ∧ ¬ t.isRawText tag ∧ asciiLower tag ≠ "pre" ∧ asciiLower tag ≠ "textarea"

/-- An attribute name without a bracketed argument. -/
def IsAttrName (name : String) : Prop :=
  name ≠ "" ∧ ∀ c ∈ name.toList, isAttrNameChar c ∧ c ≠ '['

def IsCommentText (content : List Char) : Prop :=
  ¬ "-->".toList <:+: content ∧ ¬ ">".toList <+: content ∧ ¬ "->".toList <+: content

def Forest.startsWithText : Forest → Bool
  | .text _ _ => true
  | _ => false

/-- A forest that a table of tags lets one write: a tag stands alone exactly if the table says so or
it is written with a slash, and no text follows a text. -/
def Forest.Fits (t : TagTable) : Forest → Prop
  | .nil => True
  | .element tag attrs content rest =>
    (IsPlainTag t tag ∧ (∀ a ∈ attrs, IsAttrName a.1) ∧ ¬ t.isUnary (asciiLower tag)) ∧
      content.Fits t ∧ rest.Fits t
  | .unary tag attrs slash rest =>
    (IsPlainTag t tag ∧ (∀ a ∈ attrs, IsAttrName a.1) ∧ (t.isUnary (asciiLower tag) ∨ slash)) ∧
      rest.Fits t
  | .text content rest =>
    (content ≠ "" ∧ '<' ∉ content.toList ∧ ¬ rest.startsWithText) ∧ rest.Fits t
  | .comment content rest => IsCommentText content.toList ∧ rest.Fits t

instance (t : TagTable) (tag : String) : Decidable (IsPlainTag t tag) :=
  inferInstanceAs (Decidable (_ ∧ _))

instance (name : String) : Decidable (IsAttrName name) :=
  have := List.decidableBAll (fun c => isAttrNameChar c ∧ c ≠ '[') name.toList
  inferInstanceAs (Decidable (_ ∧ _))

instance (content : List Char) : Decidable (IsCommentText content) :=
  inferInstanceAs (Decidable (_ ∧ _))

instance Forest.decidableFits (t : TagTable) : (f : Forest) → Decidable (f.Fits t)
  | .nil => isTrue trivial
  | .element _ _ content rest =>
    have := decidableFits t content
    have := decidableFits t rest
    inferInstanceAs (Decidable (_ ∧ _ ∧ _))
  | .unary _ _ _ rest =>
    have := decidableFits t rest
    inferInstanceAs (Decidable (_ ∧ _))
  | .text _ rest =>
    have := decidableFits t rest
    inferInstanceAs (Decidable (_ ∧ _))
  | .comment _ rest =>
    have := decidableFits t rest
    inferInstanceAs (Decidable (_ ∧ _))

/-! ## Comments -/

theorem cut?_comment (h : IsCommentText content) (after : List Char) :
    cut? "-->".toList ("<!--".toList ++ content ++ "-->".toList ++ after) =
      some ("<!--".toList ++ content, after) := by
  refine cut?_eq_some_iff.mpr ⟨rfl, fun xs ys hsplit hys hfound => ?_⟩
  match ys, hys, hsplit, hfound with
  -- of the mark behind the content alone, a shorter part would be found
  | [y], _, _, hfound => simp at hfound
  | [y, z], _, _, hfound => simp at hfound
  | y :: z :: w :: ys, _, hsplit, hfound =>
    obtain ⟨rfl, rfl, rfl⟩ : '-' = y ∧ '-' = z ∧ '>' = w := by simpa using hfound
    match xs, hsplit with
    | [], hsplit => simp at hsplit
    | [_], hsplit => simp at hsplit
    | [_, _], hsplit =>
      have hcont : content = '>' :: ys := by simp at hsplit; exact hsplit.2.2
      exact h.2.1 ⟨ys, hcont.symm⟩
    | [_, _, _], hsplit =>
      have hcont : content = '-' :: '>' :: ys := by simp at hsplit; exact hsplit.2.2.2
      exact h.2.2 ⟨ys, hcont.symm⟩
    | _ :: _ :: _ :: _ :: xs, hsplit =>
      have hcont : content = xs ++ '-' :: '-' :: '>' :: ys := by
        simp at hsplit; exact hsplit.2.2.2.2
      exact h.1 ⟨xs, ys, by rw [hcont]; simp⟩

/-! ## Attribute values -/

theorem reference?_append {body : List Char} (h : referenceBody? body = some c)
    (hbody : ';' ∉ body) (after : List Char) :
    reference? (body ++ ';' :: after) = some (c, after) := by
  rw [reference?, cut?_singleton_append hbody]
  exact congrArg (Option.map fun c => (c, after)) h

theorem decodeChars_escapeChar : decodeChars (escapeChar c ++ after) = c :: decodeChars after := by
  unfold escapeChar
  split
  · next hc =>
    subst hc
    have hread := reference?_append (show referenceBody? "amp".toList = some '&' by decide)
      (by decide) after
    exact decodeChars_reference hread
  split
  · next hc =>
    subst hc
    have hread := reference?_append (show referenceBody? "quot".toList = some '"' by decide)
      (by decide) after
    exact decodeChars_reference hread
  · next hamp _ =>
    have hplain : '&' ∉ [c] := by simpa using Ne.symm hamp
    exact decodeChars_append hplain after

theorem decodeChars_escape : decodeChars (escape cs) = cs := by
  induction cs with
  | nil => rw [escape, flatMap_nil, decodeChars]
  | cons c cs ih =>
    rw [escape, flatMap_cons, decodeChars_escapeChar]
    exact congrArg (c :: ·) ih

theorem quote_not_mem_escape : '"' ∉ escape cs := by
  intro h
  obtain ⟨c, -, hc⟩ := mem_flatMap.mp h
  unfold escapeChar at hc
  split at hc
  · exact absurd hc (by decide)
  split at hc
  · exact absurd hc (by decide)
  · next hquote => exact hquote (mem_singleton.mp hc).symm

/-! ## Attributes -/

theorem skipBlank_append (gap : List Char) (hgap : IsGap gap)
    (h : ∀ x ∈ rest.head?, isBlankChar x = false) :
    Cursor.skipBlank ⟨start, gap ++ rest⟩ = ⟨start + byteLength gap, rest⟩ := by
  obtain ⟨htake, hdrop⟩ := takeWhile_dropWhile_iff.mpr ⟨hgap, h, rfl⟩
  simp only [Cursor.skipBlank, Cursor.takeWhile, Cursor.past, htake, hdrop]

theorem skipBlank_of_head {c : Cursor} (h : ∀ x ∈ c.rest.head?, isBlankChar x = false) :
    c.skipBlank = c :=
  skipBlank_append [] (forall_mem_nil _) h

theorem attrName_append_front {front : List Char}
    (h : ∀ c ∈ front, isAttrNameChar c ∧ c ≠ '[') :
    attrName (front ++ cs) = (front ++ (attrName cs).1, (attrName cs).2) := by
  induction front with
  | nil => rfl
  | cons c front ih =>
    obtain ⟨hc, hbracket⟩ := h c mem_cons_self
    rw [cons_append, attrName_cons fun heq => absurd heq hbracket, if_pos hc,
      ih fun x hx => h x (mem_cons_of_mem c hx)]
    rfl

theorem attrName_append_of_plain {name : List Char} (h : ∀ c ∈ name, isAttrNameChar c ∧ c ≠ '[')
    (hrest : ∀ c ∈ rest.head?, isAttrNameChar c = false ∧ c ≠ '[') :
    attrName (name ++ rest) = (name, rest) := by
  have hstop : attrName rest = ([], rest) := by
    cases rest with
    | nil => rw [attrName]
    | cons c rest =>
      obtain ⟨hc, hbracket⟩ := hrest c rfl
      rw [attrName_cons fun heq => absurd heq hbracket, hc]
      rfl
  rw [attrName_append_front h, hstop, append_nil]

theorem attribute?_attrChars (h : IsAttrName a.1) (start : Nat) (rest : List Char) :
    attribute? ⟨start, attrChars a ++ rest⟩ =
      some (⟨a.1, a.2, ⟨start, start + byteLength (attrChars a)⟩⟩,
        ⟨start + byteLength (attrChars a), rest⟩) := by
  obtain ⟨name, value⟩ := a
  have hchars : attrChars (name, value) ++ rest =
      name.toList ++ '=' :: '"' :: (escape value.toList ++ '"' :: rest) := by simp [attrChars]
  have hname : attrName (name.toList ++ '=' :: '"' :: (escape value.toList ++ '"' :: rest)) =
      (name.toList, '=' :: '"' :: (escape value.toList ++ '"' :: rest)) := by
    refine attrName_append_of_plain h.2 fun c hc => ?_
    cases hc
    exact ⟨by decide, by decide⟩
  have hsome : ¬ name.toList.isEmpty := by simpa using h.1
  have hequals (offset : Nat) (cs : List Char) : Cursor.skipBlank ⟨offset, '=' :: cs⟩ = _ :=
    skipBlank_of_head fun c hc => by cases hc; decide
  have hquote (offset : Nat) (cs : List Char) : Cursor.skipBlank ⟨offset, '"' :: cs⟩ = _ :=
    skipBlank_of_head fun c hc => by cases hc; decide
  have hvalue (offset : Nat) :
      attrValue? ⟨offset, '"' :: (escape value.toList ++ '"' :: rest)⟩ = some (escape value.toList,
        ⟨offset + byteLength ('"' :: escape value.toList ++ ['"']), rest⟩) := by
    simp only [attrValue?, true_or, if_true, Cursor.past,
      cut?_singleton_append quote_not_mem_escape rest, map_some]
  have hlength : byteLength (attrChars (name, value)) = byteLength name.toList +
      byteLength ['='] + byteLength ('"' :: escape value.toList ++ ['"']) := by
    simp [attrChars]; omega
  simp only [attribute?, hchars, hname, if_neg hsome, Cursor.past, hequals, hquote, hvalue,
    map_some, decodeChars_escape, ofList_toList, hlength, Nat.add_assoc]

/-! ## Tags -/

/-- A written attribute starts with a character that is neither blank nor the end of a tag. -/
theorem head_attrChars (h : IsAttrName a.1) : ∃ x xs, attrChars a = x :: xs ∧ isAttrNameChar x := by
  obtain ⟨hne, hchars⟩ := h
  cases hname : a.1.toList with
  | nil => exact absurd (String.toList_eq_nil_iff.mp hname) hne
  | cons x xs =>
    refine ⟨x, _, by rw [attrChars, hname, cons_append, cons_append], ?_⟩
    exact (hchars x (by rw [hname]; exact mem_cons_self)).1

theorem tagEnd?_attrsChars (h : ∀ a ∈ attrs, IsAttrName a.1)
    (first slash : Bool) (start : Nat) (rest : List Char) :
    tagEnd? first ⟨start, attrsChars attrs ++ tagClose slash ++ rest⟩ =
      some ⟨attrsFrom start attrs, slash,
        ⟨start + byteLength (attrsChars attrs ++ tagClose slash), rest⟩⟩ := by
  rw [tagEnd?_eq_some_iff]
  induction attrs generalizing first start with
  | nil =>
    have hclose : Cursor.skipBlank ⟨start, attrsChars [] ++ tagClose slash ++ rest⟩ = _ :=
      skipBlank_of_head fun x hx => by
        cases slash <;> cases hx <;> decide
    have hread : ReadsTagEnd first ⟨start, attrsChars [] ++ tagClose slash ++ rest⟩ _ :=
      .close slash (by rw [hclose]; rfl)
    rwa [hclose] at hread
  | cons a attrs ih =>
    have hchars : attrsChars (a :: attrs) ++ tagClose slash ++ rest =
        ' ' :: (attrChars a ++ (attrsChars attrs ++ tagClose slash ++ rest)) := by
      simp [attrsChars]
    have hattr := h a mem_cons_self
    obtain ⟨x, xs, hhead, hx⟩ := head_attrChars hattr
    have hblank : Cursor.skipBlank
        ⟨start, ' ' :: (attrChars a ++ (attrsChars attrs ++ tagClose slash ++ rest))⟩ =
        ⟨start + 1, attrChars a ++ (attrsChars attrs ++ tagClose slash ++ rest)⟩ := by
      refine skipBlank_append [' '] (forall_mem_singleton.mpr (by decide)) fun y hy => ?_
      rw [hhead] at hy
      cases hy
      exact (Bool.not_eq_true' _).mp (Bool.and_eq_true_iff.mp hx).1
    have hread := attribute?_attrChars hattr (start + 1)
      (attrsChars attrs ++ tagClose slash ++ rest)
    rw [← hblank] at hread
    have hlength : byteLength (attrsChars (a :: attrs) ++ tagClose slash) =
        1 + byteLength (attrChars a) + byteLength (attrsChars attrs ++ tagClose slash) := by
      simp [attrsChars, show Char.utf8Size ' ' = 1 from rfl]
      omega
    have hall : ReadsTagEnd first _ _ := .attr hread (.inr (cons_ne_nil _ _))
      (ih (fun b hb => h b (mem_cons_of_mem a hb)) false _)
    rw [hchars, hlength, ← Nat.add_assoc, ← Nat.add_assoc]
    exact hall

theorem tagName?_append (h : IsTagName tag) (hrest : ∀ c ∈ rest.head?, isNameChar c = false) :
    tagName? (tag.toList ++ rest) = some (tag.toList, rest) :=
  tagName?_eq_some_iff.mpr ⟨by rwa [ofList_toList], hrest, rfl⟩

theorem startTag?_startChars (htag : IsTagName tag)
    (hattrs : ∀ a ∈ attrs, IsAttrName a.1) (slash : Bool) :
    startTag? ⟨start, startChars tag attrs slash ++ rest⟩ =
      some ⟨tag, attrsFrom (start + byteLength ('<' :: tag.toList)) attrs, slash,
        ⟨start + byteLength (startChars tag attrs slash), rest⟩⟩ := by
  have hname : tagName? (tag.toList ++ (attrsChars attrs ++ tagClose slash ++ rest)) =
      some (tag.toList, attrsChars attrs ++ tagClose slash ++ rest) := by
    refine tagName?_append htag fun c hc => ?_
    cases attrs with
    | nil => cases slash <;> cases hc <;> decide
    | cons a attrs => cases hc; decide
  have hchars : startChars tag attrs slash ++ rest =
      '<' :: (tag.toList ++ (attrsChars attrs ++ tagClose slash ++ rest)) := by simp [startChars]
  have hlength : byteLength (startChars tag attrs slash) =
      byteLength ('<' :: tag.toList) + byteLength (attrsChars attrs ++ tagClose slash) :=
    byteLength_append
  simp only [startTag?, hchars, hname, Cursor.past, tagEnd?_attrsChars hattrs, map_some,
    ofList_toList, hlength, Nat.add_assoc]

theorem endTag?_endChars (htag : IsTagName tag) :
    endTag? (endChars tag ++ rest) = some (tag.toList, [], rest) := by
  refine endTag?_eq_some_iff.mpr ⟨by rwa [ofList_toList], ?_, not_mem_nil, by simp [endChars]⟩
  rintro x ⟨⟩

/-! ## Constructs -/

namespace Scanner

variable {t : TagTable} {comments : Bool}

def ReadsMarkup (t : TagTable) (stack : List OpenTag) : Prop :=
  ∀ o ∈ stack.head?, ¬ t.isRawText o.key

theorem rawTag?_eq_none (h : ReadsMarkup t s.stack) : s.rawTag? t = none := by
  unfold rawTag?
  rw [map_eq_none_iff, filter_eq_none_iff]
  exact h

theorem readsMarkup_cons (h : IsPlainTag t tag) : ReadsMarkup t (⟨tag, span⟩ :: stack) := by
  intro o ho
  cases ho
  have hraw := h.2.1
  rwa [TagTable.isRawText, OpenTag.key, asciiLower_asciiLower]

theorem run_of_construct? {r : List Signal × Scanner}
    (hmarkup : ReadsMarkup t s.stack) (h : s.construct? t comments = some r) :
    run t comments s = r.1 ++ run t comments r.2 := by
  have hne : s.cursor.rest ≠ [] := by
    intro hnil
    have hlt := length_lt_of_construct? h
    rw [hnil] at hlt
    exact Nat.not_lt_zero _ hlt
  have hstep : s.step t comments = r := by
    rw [step, rawTag?_eq_none hmarkup, h]
    rfl
  rw [run, dif_neg hne, hstep]

theorem construct?_of_name (hrest : s.cursor.rest = '<' :: c :: cs) (hc : isNameStart c) :
    s.construct? t comments = s.start? t := by
  have hbang : c ≠ '!' := by rintro rfl; exact absurd hc (by decide)
  have hslash : c ≠ '/' := by rintro rfl; exact absurd hc (by decide)
  have hdoctype : ((('<' :: c :: cs).take 10).map Char.toLower) ≠ "<!doctype ".toList := by
    intro heq
    exact hbang (eq_of_toLower_eq (List.cons.inj (List.cons.inj heq).2).1 (by decide))
  unfold construct?
  simp only [hrest]
  rw [if_neg (by simp [hbang.symm]), if_neg (by simp [hbang.symm]), if_neg (by simp [hbang.symm]),
    if_neg hdoctype, if_neg (by simp [hslash.symm]), head?_cons, if_pos rfl]

theorem run_of_start? {slash : Bool} {r : List Signal × Scanner} (hmarkup : ReadsMarkup t stack)
    (htag : IsTagName tag)
    (h : start? t ⟨⟨start, startChars tag attrs slash ++ rest⟩, stack⟩ = some r) :
    run t comments ⟨⟨start, startChars tag attrs slash ++ rest⟩, stack⟩ =
      r.1 ++ run t comments r.2 := by
  obtain ⟨c, cs, hname, hc⟩ := htag.exists_cons
  refine run_of_construct? hmarkup ?_
  rw [construct?_of_name (by simp [startChars, hname]; rfl) hc, h]

theorem run_startChars (hhtml : t.expectHtml = false) (htag : IsPlainTag t tag)
    (hattrs : ∀ a ∈ attrs, IsAttrName a.1) (hmarkup : ReadsMarkup t stack) (slash : Bool)
    (start : Nat) (rest : List Char) :
    let unary := t.isUnary (asciiLower tag) || slash
    let stop := start + byteLength (startChars tag attrs slash)
    run t comments ⟨⟨start, startChars tag attrs slash ++ rest⟩, stack⟩ =
      .event (openedAt start tag attrs slash unary) ::
        run t comments ⟨⟨stop, rest⟩, if unary then stack else ⟨tag, ⟨start, stop⟩⟩ :: stack⟩ := by
  intro unary stop
  have hread : start? t ⟨⟨start, startChars tag attrs slash ++ rest⟩, stack⟩ =
      some ([.event (openedAt start tag attrs slash unary)],
        ⟨⟨stop, rest⟩, if unary then stack else ⟨tag, ⟨start, stop⟩⟩ :: stack⟩) := by
    have hkeeps : dropsNewline tag = false := by simp [dropsNewline, htag.2.2]
    simp only [start?, startTag?_startChars htag.1 hattrs, map_some, openTag, closeImplied,
      hhtml, hkeeps, Bool.not_false, if_true, nil_append]
    split <;> rfl
  exact run_of_start? hmarkup htag.1 hread

theorem run_endChars (htag : IsPlainTag t tag) :
    run t comments ⟨⟨start, endChars tag ++ rest⟩, ⟨tag, span⟩ :: stack⟩ =
      .event (.closed tag ⟨start, start + byteLength (endChars tag)⟩) ::
        run t comments ⟨⟨start + byteLength (endChars tag), rest⟩, stack⟩ := by
  have hread : construct? t comments ⟨⟨start, endChars tag ++ rest⟩, ⟨tag, span⟩ :: stack⟩ =
      Scanner.end? t ⟨⟨start, endChars tag ++ rest⟩, ⟨tag, span⟩ :: stack⟩ := by
    simp [construct?, endChars, List.isPrefixOf]
  have hend : end? t ⟨⟨start, endChars tag ++ rest⟩, ⟨tag, span⟩ :: stack⟩ =
      some ([.event (.closed tag ⟨start, start + byteLength (endChars tag)⟩)],
        ⟨⟨start + byteLength (endChars tag), rest⟩, stack⟩) := by
    have hchars : '<' :: '/' :: tag.toList ++ [] ++ ['>'] = endChars tag := by simp [endChars]
    simp only [end?, endTag?_endChars htag.1, map_some, Cursor.past, hchars, ofList_toList]
    simp [closeTag, OpenTag.key, closeSignals]
  exact run_of_construct? (readsMarkup_cons htag) (hread.trans hend)

theorem run_commentChars {content : String}
    (hcont : IsCommentText content.toList) (hmarkup : ReadsMarkup t stack) :
    run t true ⟨⟨start, commentChars content ++ rest⟩, stack⟩ =
      .event (.comment content ⟨start, start + byteLength (commentChars content)⟩) ::
        run t true ⟨⟨start + byteLength (commentChars content), rest⟩, stack⟩ := by
  have hread : construct? t true ⟨⟨start, commentChars content ++ rest⟩, stack⟩ =
      comment? true ⟨⟨start, commentChars content ++ rest⟩, stack⟩ := by
    have hopening : "<!--".toList.isPrefixOf (commentChars content ++ rest) := rfl
    simp only [construct?, hopening, if_true]
  have hcom : comment? true ⟨⟨start, commentChars content ++ rest⟩, stack⟩ =
      some ([.event (.comment content ⟨start, start + byteLength (commentChars content)⟩)],
        ⟨⟨start + byteLength (commentChars content), rest⟩, stack⟩) := by
    have hcut : cut? "-->".toList (commentChars content ++ rest) = _ := cut?_comment hcont rest
    have hdrop : ("<!--".toList ++ content.toList).drop 4 = content.toList := rfl
    simp only [comment?, hcut, map_some, if_true, hdrop, ofList_toList, Cursor.past]
    rfl
  exact run_of_construct? hmarkup (hread.trans hcom)

def EndsText (rest : List Char) : Prop :=
  rest = [] ∨ ∃ cs, rest = '<' :: cs ∧ startsMarkup rest

theorem textRun_append_of_endsText (hcont : '<' ∉ content)
    (hrest : EndsText rest) : textRun (content ++ rest) = (content, rest) := by
  have hstop : (textRun rest).1 = [] := by
    obtain rfl | ⟨cs, rfl, hstarts⟩ := hrest
    · rfl
    · rw [textRun, if_pos ⟨rfl, hstarts⟩]
  have hrun : (textRun (content ++ rest)).1 = content := by
    rw [textRun_append_of_not_mem hcont, hstop, append_nil]
  have happend := textRun_append (content ++ rest)
  rw [hrun] at happend
  exact Prod.ext hrun (append_cancel_left happend)

theorem construct?_eq_none_of_head (h : s.cursor.rest.head? ≠ some '<') :
    s.construct? t comments = none := by
  have hopening (opening : List Char) (hhead : opening.head? = some '<') :
      ¬ opening.isPrefixOf s.cursor.rest := by
    intro hstarts
    obtain ⟨after, hafter⟩ := isPrefixOf_iff_prefix.mp hstarts
    exact h (by rw [← hafter, head?_append, hhead]; rfl)
  have hdoctype : (s.cursor.rest.take 10).map Char.toLower ≠ "<!doctype ".toList := by
    cases hrest : s.cursor.rest with
    | nil => decide
    | cons c cs =>
      rw [hrest] at h
      intro heq
      have hc : c = '<' := eq_of_toLower_eq (List.cons.inj heq).1 (by decide)
      exact h (by rw [hc]; rfl)
  unfold construct?
  rw [if_neg (hopening _ rfl), if_neg (hopening _ rfl), if_neg (hopening _ rfl), if_neg hdoctype,
    if_neg (hopening _ rfl), if_neg h]

theorem run_text {content : String} (hne : content ≠ "")
    (hcont : '<' ∉ content.toList) (hmarkup : ReadsMarkup t stack)
    (hrest : EndsText rest) :
    run t comments ⟨⟨start, content.toList ++ rest⟩, stack⟩ =
      .event (.text content ⟨start, start + byteLength content.toList⟩) ::
        run t comments ⟨⟨start + byteLength content.toList, rest⟩, stack⟩ := by
  have hsome : content.toList ≠ [] := fun hnil => hne (String.toList_eq_nil_iff.mp hnil)
  have hnone : construct? t comments ⟨⟨start, content.toList ++ rest⟩, stack⟩ = none := by
    refine construct?_eq_none_of_head fun hhead => ?_
    have hhead' : content.toList.head? = some '<' := by simpa [head?_append, hsome] using hhead
    exact hcont (mem_of_head? hhead')
  have hstep : step t comments ⟨⟨start, content.toList ++ rest⟩, stack⟩ =
      ([.event (.text content ⟨start, start + byteLength content.toList⟩)],
        ⟨⟨start + byteLength content.toList, rest⟩, stack⟩) := by
    have hempty : ¬ content.toList.isEmpty := by simpa using hsome
    rw [step, rawTag?_eq_none hmarkup, hnone, getD_none]
    simp only [text, textRun_append_of_endsText hcont hrest, textSignals, if_neg hempty,
      ofList_toList, Cursor.past]
  rw [run, dif_neg (by simp [hne]), hstep]
  rfl

theorem construct?_of_not_startsMarkup {tail : List Char}
    (hrest : s.cursor.rest = '<' :: tail) (hmarkup : startsMarkup s.cursor.rest = false) :
    s.construct? t comments =
      if (s.cursor.rest.take 10).map Char.toLower = "<!doctype ".toList then s.skipTo? ['>']
      else none := by
  unfold startsMarkup at hmarkup
  simp only [Bool.or_eq_false_iff] at hmarkup
  obtain ⟨⟨⟨hcom, hmarked⟩, hend⟩, hname⟩ := hmarkup
  have hcdata : ¬ "<![CDATA[".toList.isPrefixOf s.cursor.rest := by
    intro hstarts
    have hopening : "<![".toList <+: "<![CDATA[".toList := ⟨"CDATA[".toList, by decide⟩
    have hopened := hopening.trans <| isPrefixOf_iff_prefix.mp hstarts
    rw [ isPrefixOf_iff_prefix.mpr hopened] at hmarked
    cases hmarked
  have hnoEnd : s.end? t = none := by
    unfold end?
    rw [isSome_eq_false_iff, isNone_iff_eq_none] at hend
    rw [hend]
    rfl
  have hnoStart : s.start? t = none := by
    have hnoName : tagName? tail = none := by
      rw [hrest] at hname
      cases tail with
      | nil => rfl
      | cons x tail => exact if_neg (by simpa using hname)
    unfold start? startTag?
    rw [hrest]
    simp only [hnoName, map_none]
  unfold construct?
  rw [if_neg (by rw [hcom]; simp), if_neg hcdata, if_neg (by rw [hmarked]; simp), hnoEnd,
    hnoStart, ite_self, ite_self]

end Scanner

/-! ## Forests -/

namespace Forest

open Scanner

variable {t : TagTable}

theorem endsText_startChars (htag : IsTagName tag)
    (slash : Bool) : EndsText (startChars tag attrs slash ++ rest) := by
  obtain ⟨c, cs, hname, hc⟩ := htag.exists_cons
  refine .inr ⟨_, rfl, ?_⟩
  simp [startsMarkup, startChars, hname, hc]

theorem endsText_endChars (htag : IsTagName tag) : EndsText (endChars tag ++ rest) := by
  refine .inr ⟨_, rfl, ?_⟩
  simp [startsMarkup, endTag?_endChars htag]

theorem endsText_append (hf : f.Fits t) (hstart : ¬ f.startsWithText)
    (hrest : EndsText rest) : EndsText (f.chars ++ rest) := by
  cases f with
  | nil => exact hrest
  | element tag attrs content after =>
    rw [chars, List.append_assoc, List.append_assoc, List.append_assoc]
    exact endsText_startChars hf.1.1.1 false
  | unary tag attrs slash after =>
    rw [chars, List.append_assoc]
    exact endsText_startChars hf.1.1.1 slash
  | text content after => exact absurd rfl hstart
  | comment content after => exact .inr ⟨_, rfl, rfl⟩

/-- Reading a written forest gives its events, whatever is open around it and whatever follows. -/
theorem run_chars (hhtml : t.expectHtml = false) (hf : f.Fits t) (start : Nat)
    (hmarkup : ReadsMarkup t stack)
    (hrest : EndsText rest) :
    run t true ⟨⟨start, f.chars ++ rest⟩, stack⟩ = (f.eventsFrom start).map Signal.event ++
        run t true ⟨⟨start + byteLength f.chars, rest⟩, stack⟩ := by
  induction f generalizing start stack rest with
  | nil => rfl
  | element tag attrs content after ihContent ihAfter =>
    obtain ⟨⟨htag, hattrs, hunary⟩, hcont, hafter⟩ := hf
    -- the content is read with the element open, and the end tag closes it again
    have hopen : run t true _ = _ := run_startChars hhtml htag hattrs hmarkup false start
      (content.chars ++ (endChars tag ++ (after.chars ++ rest)))
    simp only [hunary, Bool.or_false, Bool.false_eq_true, if_false] at hopen
    rw [chars, List.append_assoc, List.append_assoc, List.append_assoc, hopen,
      ihContent hcont _ (readsMarkup_cons htag) (endsText_endChars htag.1),
      run_endChars htag, ihAfter hafter _ hmarkup hrest]
    simp [eventsFrom, Nat.add_assoc]
  | unary tag attrs slash after ih =>
    obtain ⟨⟨htag, hattrs, hunary⟩, hafter⟩ := hf
    have hopen : run t true _ = _ := run_startChars hhtml htag hattrs hmarkup slash start
      (after.chars ++ rest)
    have halone : (t.isUnary (asciiLower tag) || slash) := by simpa using hunary
    simp only [halone, if_true] at hopen
    rw [chars, List.append_assoc, hopen, ih hafter _ hmarkup hrest]
    simp [eventsFrom, Nat.add_assoc]
  | text content after ih =>
    obtain ⟨⟨hne, hplain, hnext⟩, hafter⟩ := hf
    rw [chars, List.append_assoc, run_text hne hplain hmarkup
      (endsText_append hafter hnext hrest), ih hafter _ hmarkup hrest]
    simp [eventsFrom, Nat.add_assoc]
  | comment content after ih =>
    obtain ⟨hcont, hafter⟩ := hf
    rw [chars, List.append_assoc, run_commentChars hcont hmarkup, ih hafter _ hmarkup hrest]
    simp [eventsFrom, Nat.add_assoc]

end Forest

/-- Reading a written forest gives its events in document order, with its names and values as they
were, and nothing else. -/
theorem read_print (t : TagTable) (hhtml : t.expectHtml = false) (f : Forest) (hf : f.Fits t) :
    read t true f.print = (f.eventsFrom 0).map Signal.event := by
  have hnone : Scanner.ReadsMarkup t [] := fun _ ho => nomatch ho
  have hrun := Forest.run_chars hhtml hf 0 hnone (.inl rfl : Scanner.EndsText [])
  have hend (offset : Nat) : Scanner.run t true ⟨⟨offset, []⟩, []⟩ = [] := by
    rw [Scanner.run]
    rfl
  rw [hend, append_nil, append_nil] at hrun
  rw [read, Forest.print, toList_ofList]
  exact hrun

/-- A paragraph with an attribute to escape, text, a line break, a comment that ends in hyphens and
an empty element. -/
def paragraph : Forest :=
  .element "p" [("title", "a & \"b\""), (":x", "")]
    (.text "\n1 > 0 " (.unary "BR" [] false (.comment " - -" (.unary "i" [("k", "v")] true .nil))))
    (.text "é" .nil)

theorem read_print_paragraph : paragraph.print = "<p title=\"a &amp; &quot;b&quot;\" :x=\"\">" ++
        "\n1 > 0 <BR><!-- - ---><i k=\"v\"/></p>é" ∧
      read { unary := ["br"] } true paragraph.print =
        [.event (.opened "p" [⟨"title", "a & \"b\"", ⟨3, 32⟩⟩, ⟨":x", "", ⟨33, 38⟩⟩] false ⟨0, 39⟩),
          .event (.text "\n1 > 0 " ⟨39, 46⟩),
          .event (.opened "BR" [] true ⟨46, 50⟩),
          .event (.comment " - -" ⟨50, 61⟩),
          .event (.opened "i" [⟨"k", "v", ⟨64, 69⟩⟩] true ⟨61, 71⟩),
          .event (.closed "p" ⟨71, 75⟩),
          .event (.text "é" ⟨75, 77⟩)] := by
  refine ⟨by decide, ?_⟩
  rw [read_print { unary := ["br"] } rfl paragraph (by decide)]
  decide

end TemplateCompiler.Markup
