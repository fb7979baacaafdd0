import TemplateCompiler.Markup.Scanner
import TemplateCompiler.Proofs.Slices

/-!
# The form of tags

A start tag as a grammar: a name, attributes with white space before each, and `>` or `/>`. An
attribute has a name, which may hold bracketed arguments, and maybe a value, in quotes or bare.

What each reader does is said once, as an equivalence (`attribute?_eq_some_iff`,
`tagEnd?_eq_some_iff`, `startTag?_eq_some_iff`). Main result: `text_of_startTag?`. Whatever is read
as a start tag has this form, and the cursor has gone past exactly the characters of it.
-/

namespace TemplateCompiler.Markup

open Text Option

variable {tag s : String} {c : Char} {name rest ahead cs : List Char}

/-! ## The grammar -/

/-- A tag name: a letter or underscore, and then any characters of tag names. -/
def IsTagName (tag : String) : Prop :=
  tag.toList.head?.any isNameStart ∧ tag.toList.tail.all isNameChar

instance (tag : String) : Decidable (IsTagName tag) := inferInstanceAs (Decidable (_ ∧ _))

theorem IsTagName.exists_cons (h : IsTagName tag) :
    ∃ c cs, tag.toList = c :: cs ∧ isNameStart c := by
  obtain ⟨c, hhead, hc⟩ := (Option.any_eq_true _ _).mp h.1
  obtain ⟨cs, hname⟩ := List.head?_eq_some_iff.mp hhead
  exact ⟨c, cs, hname, hc⟩

theorem IsTagName.isNameChar_of_mem (h : IsTagName tag)
    (hc : c ∈ tag.toList) : isNameStart c || isNameChar c := by
  obtain ⟨x, xs, hname, hx⟩ := h.exists_cons
  have htail := h.2
  rw [hname] at hc htail
  rcases List.mem_cons.mp hc with rfl | hc
  · exact Bool.or_eq_true_iff.mpr (.inl hx)
  · exact Bool.or_eq_true_iff.mpr (.inr (List.all_eq_true.mp htail c hc))

def IsGap (cs : List Char) : Prop := ∀ c ∈ cs, isBlankChar c

/-- Part of an attribute name: characters of names, and arguments in brackets that may hold anything
but an equals sign. -/
inductive AttrNameText : List Char → Prop
  | nil : AttrNameText []
  | plain {c : Char} {cs : List Char} (hc : isAttrNameChar c) (hcs : AttrNameText cs) :
      AttrNameText (c :: cs)
  | argument {inner cs : List Char} (hend : ']' ∉ inner) (hequals : '=' ∉ inner)
      (hcs : AttrNameText cs) : AttrNameText ('[' :: inner ++ ']' :: cs)

/-- An attribute value as it is written. -/
inductive AttrValueText : List Char → Prop
  | quoted {quote : Char} {inner : List Char} (hquote : quote = '"' ∨ quote = '\'')
      (hinner : quote ∉ inner) : AttrValueText (quote :: inner ++ [quote])
  | bare {cs : List Char} (hne : cs ≠ []) (hcs : ∀ c ∈ cs, isBareValueChar c) : AttrValueText cs

/-- An attribute as it is written. -/
inductive AttrText : List Char → Prop
  | flag {name : List Char} (hne : name ≠ []) (hname : AttrNameText name) : AttrText name
  | valued {name before after value : List Char} (hne : name ≠ []) (hname : AttrNameText name)
      (hbef : IsGap before) (hafter : IsGap after) (hvalue : AttrValueText value) :
      AttrText (name ++ (before ++ ('=' :: (after ++ value))))

def tagClose (slash : Bool) : List Char := if slash then ['/', '>'] else ['>']

/-- What follows the name in a start tag. Every attribute but the first must have white space before
it. -/
inductive TagBody : Bool → List Char → Prop
  | close {first : Bool} {gap : List Char} (hgap : IsGap gap) (slash : Bool) :
      TagBody first (gap ++ tagClose slash)
  | attr {first : Bool} {gap attr rest : List Char} (hgap : IsGap gap) (hne : gap ≠ [] ∨ first)
      (hattr : AttrText attr) (hrest : TagBody false rest) : TagBody first (gap ++ (attr ++ rest))

/-! ## Letter case -/

theorem val_toLower_of_upper (h : c.val ≥ 'A'.val ∧ c.val ≤ 'Z'.val) :
    c.toLower.val = c.val + 32 := by
  unfold Char.toLower
  rw [dif_pos h]
  rfl

theorem toLower_toLower : c.toLower.toLower = c.toLower := by
  by_cases h : c.val ≥ 'A'.val ∧ c.val ≤ 'Z'.val
  · refine dif_neg ?_
    rw [val_toLower_of_upper h]
    grind
  · have hsame : c.toLower = c := dif_neg h
    rw [hsame, hsame]

theorem asciiLower_asciiLower : asciiLower (asciiLower s) = asciiLower s := by
  have hmap : (s.toList.map Char.toLower).map Char.toLower = s.toList.map Char.toLower := by
    rw [List.map_map]
    exact List.map_congr_left fun c _ => toLower_toLower
  rw [asciiLower, asciiLower, String.toList_ofList, hmap]

/-- Only a letter has another lower case than itself. -/
theorem eq_of_toLower_eq {d : Char} (h : c.toLower = d)
    (hd : ¬ ('a'.val ≤ d.val ∧ d.val ≤ 'z'.val)) : c = d := by
  by_cases hc : c.val ≥ 'A'.val ∧ c.val ≤ 'Z'.val
  · have hval := val_toLower_of_upper hc
    rw [h] at hval
    exact absurd (by rw [hval]; grind) hd
  · have hsame : c.toLower = c := dif_neg hc
    rw [← hsame, h]

theorem isAlpha_of_upper (h : c.val ≥ 'A'.val ∧ c.val ≤ 'Z'.val) :
    c.isAlpha ∧ c.toLower.isAlpha := by
  have hlower : c.toLower.val ≥ 'a'.val ∧ c.toLower.val ≤ 'z'.val := by
    rw [val_toLower_of_upper h]
    grind
  constructor
  · exact Bool.or_eq_true_iff.mpr (.inl (decide_eq_true h))
  · exact Bool.or_eq_true_iff.mpr
      (.inr (Bool.and_eq_true_iff.mpr ⟨decide_eq_true hlower.1, decide_eq_true hlower.2⟩))

theorem isNameStart_toLower : isNameStart c.toLower = isNameStart c := by
  by_cases h : c.val ≥ 'A'.val ∧ c.val ≤ 'Z'.val
  · obtain ⟨hupper, hlower⟩ := isAlpha_of_upper h
    simp [isNameStart, hupper, hlower]
  · rw [show c.toLower = c from dif_neg h]

theorem isNameChar_toLower : isNameChar c.toLower = isNameChar c := by
  by_cases h : c.val ≥ 'A'.val ∧ c.val ≤ 'Z'.val
  · obtain ⟨hupper, hlower⟩ := isAlpha_of_upper h
    simp [isNameChar, Char.isAlphanum, hupper, hlower]
  · rw [show c.toLower = c from dif_neg h]

theorem IsTagName.of_toLower (h : IsTagName tag)
    {name : String} (hname : asciiLower name = asciiLower tag) : IsTagName name := by
  have hstart (cs : List Char) :
      (cs.map Char.toLower).head?.any isNameStart = cs.head?.any isNameStart := by
    cases cs with
    | nil => rfl
    | cons c cs => exact isNameStart_toLower
  have hrest (cs : List Char) :
      (cs.map Char.toLower).tail.all isNameChar = cs.tail.all isNameChar := by
    cases cs with
    | nil => rfl
    | cons c cs => simp [Function.comp_def, isNameChar_toLower]
  have hchars := congrArg String.toList hname
  rw [asciiLower, asciiLower, String.toList_ofList, String.toList_ofList] at hchars
  rw [IsTagName, ← hstart, ← hrest, hchars, hstart, hrest]
  exact h

/-! ## Going past characters -/

/-- One cursor is another one gone past some characters. -/
structure Cursor.Passes (c : Cursor) (taken : List Char) (c' : Cursor) : Prop where
  rest : c.rest = taken ++ c'.rest
  offset : c'.offset = c.offset + byteLength taken

namespace Cursor.Passes

variable {c c' c'' : Cursor} {first second : List Char}

theorem past {taken : List Char} (h : c.rest = taken ++ rest) :
    c.Passes taken (c.past taken rest) := ⟨h, rfl⟩

theorem trans (h : c.Passes first c') (h' : c'.Passes second c'') :
    c.Passes (first ++ second) c'' := by
  refine ⟨?_, ?_⟩
  · rw [h.rest, h'.rest, List.append_assoc]
  · rw [h'.offset, h.offset, byteLength_append, Nat.add_assoc]

theorem takeWhile (c : Cursor) (p : Char → Bool) : c.Passes (c.takeWhile p).1 (c.takeWhile p).2 :=
  past List.takeWhile_append_dropWhile.symm

theorem skipBlank (c : Cursor) : ∃ gap, IsGap gap ∧ c.Passes gap c.skipBlank :=
  ⟨_, fun _ hx => List.mem_takeWhile_imp hx, takeWhile c isBlankChar⟩

theorem attrName (h : attrName c.rest = (name, ahead)) : c.Passes name (c.past name ahead) := by
  have hparts := attrName_append c.rest
  rw [h] at hparts
  exact past hparts.symm

theorem tagName (hrest : c.rest = '<' :: cs) (hname : tagName? cs = some (name, ahead)) :
    c.Passes ('<' :: name) (c.past ('<' :: name) ahead) := by
  refine past ?_
  rw [hrest, ← append_eq_of_tagName? hname]
  rfl

end Cursor.Passes

/-! ## What the readers do -/

theorem attrName_argument {inner after : List Char} (h : bracketed? cs = some (inner, after)) :
    attrName ('[' :: cs) = ('[' :: inner ++ ']' :: (attrName after).1, (attrName after).2) := by
  rw [attrName]
  split
  · next inner' after' heq =>
    rw [h] at heq
    cases heq
    rfl
  · next heq =>
    rw [h] at heq
    cases heq

theorem attrName_cons (h : c = '[' → bracketed? cs = none) : attrName (c :: cs) =
      if isAttrNameChar c then (c :: (attrName cs).1, (attrName cs).2) else ([], c :: cs) := by
  rw [attrName]
  split
  · next inner after heq =>
    split at heq
    · next hc =>
      rw [h hc] at heq
      cases heq
    · cases heq
  · rfl

variable {c c' : Cursor} {first : Bool} {attr : Attr} {e : TagEnd}

/-- An attribute is a name, with a value if an equals sign comes next. -/
theorem attribute?_eq_some_iff {after : Cursor} : attribute? c = some (attr, after) ↔
      ∃ name ahead, attrName c.rest = (name, ahead) ∧ name ≠ [] ∧
        attr.name = String.ofList name ∧ attr.span = ⟨c.offset, after.offset⟩ ∧
        ((∃ tail value, (c.past name ahead).skipBlank.rest = '=' :: tail ∧
            attrValue? ((c.past name ahead).skipBlank.past ['='] tail).skipBlank =
              some (value, after) ∧ attr.value = String.ofList (decodeChars value)) ∨
          ((c.past name ahead).skipBlank.rest.head? ≠ some '=' ∧ after = c.past name ahead ∧
            attr.value = "")) := by
  obtain ⟨attrname, attrvalue, attrspan⟩ := attr
  unfold attribute?
  dsimp only
  constructor
  · intro h
    split at h
    · cases h
    · next hname =>
      refine ⟨_, _, rfl, by simpa using hname, ?_⟩
      split at h
      · next tail htail =>
        obtain ⟨⟨value, after'⟩, hval, heq⟩ := map_eq_some_iff.mp h
        cases heq
        exact ⟨rfl, rfl, .inl ⟨tail, value, htail, hval, rfl⟩⟩
      · next hflag =>
        cases h
        refine ⟨rfl, rfl, .inr ⟨fun hequals => ?_, rfl, rfl⟩⟩
        obtain ⟨tail, htail⟩ := List.head?_eq_some_iff.mp hequals
        exact hflag tail htail
  · rintro ⟨name, ahead, hread, hname, rfl, rfl, hval⟩
    rw [hread]
    rw [if_neg (by simpa using hname)]
    rcases hval with ⟨tail, value, htail, hval, rfl⟩ | ⟨hflag, rfl, rfl⟩
    · rw [htail]
      simp only [hval, map_some]
    · split
      · next tail htail => exact absurd (by rw [htail]; rfl) hflag
      · rfl

theorem offset_skipBlank_eq_iff :
    c.skipBlank.offset = c.offset ↔ c.rest.takeWhile isBlankChar = [] := by
  show c.offset + byteLength (c.rest.takeWhile isBlankChar) = c.offset ↔ _
  rw [← byteLength_eq_zero_iff]
  omega

/-- How the rest of a start tag is read: it ends, or an attribute comes first. -/
inductive ReadsTagEnd : Bool → Cursor → TagEnd → Prop
  | close {first : Bool} {c : Cursor} {tail : List Char} (slash : Bool)
      (htail : c.skipBlank.rest = tagClose slash ++ tail) :
      ReadsTagEnd first c ⟨[], slash, c.skipBlank.past (tagClose slash) tail⟩
  | attr {first : Bool} {c after : Cursor} {attr : Attr} {e : TagEnd}
      (hattr : attribute? c.skipBlank = some (attr, after))
      (hgap : first ∨ c.rest.takeWhile isBlankChar ≠ [])
      (hrest : ReadsTagEnd false after e) :
      ReadsTagEnd first c { e with attrs := attr :: e.attrs }

/-- An attribute starts with neither of the characters that end a tag. -/
theorem attribute?_eq_none {x : Char} {tail : List Char} (hrest : c.rest = x :: tail)
    (hx : isAttrNameChar x = false) (hbracket : x ≠ '[') : attribute? c = none := by
  have hname : attrName (x :: tail) = ([], x :: tail) := by
    rw [attrName_cons fun h => absurd h hbracket, hx]
    rfl
  unfold attribute?
  rw [hrest, hname]
  rfl

theorem tagEnd?_eq_some_iff : tagEnd? first c = some e ↔ ReadsTagEnd first c e := by
  constructor
  · intro h
    fun_induction tagEnd? first c generalizing e with
    | case1 first c tail htail =>
      cases h
      exact .close true htail
    | case2 first c tail htail =>
      cases h
      exact .close false htail
    | case4 first c hgap attr after hattr _ _ ih =>
      obtain ⟨e', he', rfl⟩ := map_eq_some_iff.mp h
      refine .attr hattr ?_ (ih he')
      rw [ne_eq, ← offset_skipBlank_eq_iff]
      cases first with
      | true => exact .inl rfl
      | false => exact .inr (by simpa using hgap)
    | case3 | case5 => cases h
  · intro h
    induction h with
    | close slash htail =>
      rw [tagEnd?]
      cases slash <;> rw [htail] <;> rfl
    | @attr first c after attr e hattr hgap _ ih =>
      rw [tagEnd?]
      split
      · next htail =>
        rw [attribute?_eq_none htail (by decide) (by decide)] at hattr
        cases hattr
      · next htail =>
        rw [attribute?_eq_none htail (by decide) (by decide)] at hattr
        cases hattr
      · have hopen : ¬ (c.skipBlank.offset = c.offset && !first) := by
          rw [ne_eq, ← offset_skipBlank_eq_iff] at hgap
          cases first with
          | true => simp
          | false => simpa using hgap
        rw [if_neg hopen]
        split
        · next hattr' =>
          rw [hattr] at hattr'
          cases hattr'
          rw [ih]
          rfl
        · next hnone =>
          rw [hattr] at hnone
          cases hnone

theorem ReadsTagEnd.length_lt (h : ReadsTagEnd first c e) :
    e.cursor.rest.length < c.rest.length := length_le_of_tagEnd? (tagEnd?_eq_some_iff.mpr h)

theorem startTag?_eq_some_iff {tag : StartTag} : startTag? c = some tag ↔
      ∃ cs name ahead e, c.rest = '<' :: cs ∧ tagName? cs = some (name, ahead) ∧
        ReadsTagEnd true (c.past ('<' :: name) ahead) e ∧
        tag = ⟨String.ofList name, e.attrs, e.selfClosing, e.cursor⟩ := by
  simp only [← tagEnd?_eq_some_iff]
  unfold startTag?
  constructor
  · intro h
    split at h
    · next cs hrest =>
      split at h
      · next name ahead hname =>
        obtain ⟨e, he, rfl⟩ := map_eq_some_iff.mp h
        exact ⟨cs, name, ahead, e, hrest, hname, he, rfl⟩
      · cases h
    · cases h
  · rintro ⟨cs, name, ahead, e, hrest, hname, he, rfl⟩
    rw [hrest]
    simp only [hname, he, map_some]

/-! ## What is read has the form -/

theorem attrNameText_attrName (cs : List Char) : AttrNameText (attrName cs).1 := by
  fun_induction attrName cs with
  | case1 => exact .nil
  | case2 c cs inner after h more ih =>
    split at h
    · next hc =>
      subst hc
      obtain ⟨hcut, hequals⟩ := filter_eq_some_iff.mp h
      exact .argument (not_mem_of_cut? hcut) (by simpa using hequals) ih
    · cases h
  | case3 c cs h hc more ih => exact .plain hc ih
  | case4 c cs h hc => exact .nil

theorem text_of_attrValue? {value : List Char} (h : attrValue? c = some (value, c')) :
    ∃ text, AttrValueText text ∧ c.Passes text c' := by
  unfold attrValue? at h
  split at h
  · cases h
  · next quote rest hrest =>
    split at h
    · next hquote =>
      obtain ⟨p, hp, heq⟩ := map_eq_some_iff.mp h
      cases heq
      refine ⟨_, .quoted hquote (not_mem_of_cut? hp), .past ?_⟩
      rw [hrest, ← append_eq_of_cut? hp]
      simp
    · dsimp only at h
      split at h
      · cases h
      · next hne =>
        cases h
        refine ⟨_, .bare (by simpa using hne) ?_, .takeWhile c isBareValueChar⟩
        exact fun x hx => List.mem_takeWhile_imp hx

theorem text_of_attribute? (h : attribute? c = some (attr, c')) :
    ∃ text, AttrText text ∧ c.Passes text c' := by
  obtain ⟨name, ahead, hname, hne, -, -, hval⟩ := attribute?_eq_some_iff.mp h
  have hform := attrNameText_attrName c.rest
  rw [hname] at hform
  have hpass := Cursor.Passes.attrName hname
  rcases hval with ⟨tail, value, htail, hval, -⟩ | ⟨-, rfl, -⟩
  · obtain ⟨before, hbef, hskip⟩ := Cursor.Passes.skipBlank (c.past name ahead)
    have hequals : Cursor.Passes _ ['='] _ := .past htail
    obtain ⟨after, hafter, hskip'⟩ :=
      Cursor.Passes.skipBlank ((c.past name ahead).skipBlank.past ['='] tail)
    obtain ⟨text, htext, hlast⟩ := text_of_attrValue? hval
    exact ⟨_, .valued hne hform hbef hafter htext,
      hpass.trans (hskip.trans (hequals.trans (hskip'.trans hlast)))⟩
  · exact ⟨_, .flag hne hform, hpass⟩

theorem ReadsTagEnd.body (h : ReadsTagEnd first c e) :
    ∃ body, TagBody first body ∧ c.Passes body e.cursor := by
  induction h with
  | @close first c _ slash htail =>
    obtain ⟨gap, hgap, hskip⟩ := Cursor.Passes.skipBlank c
    exact ⟨_, .close hgap slash, hskip.trans (.past htail)⟩
  | @attr first c _ _ _ hattr hgap _ ih =>
    obtain ⟨text, htext, hpass⟩ := text_of_attribute? hattr
    obtain ⟨body, hbody, hpass'⟩ := ih
    have hblank : IsGap (c.rest.takeWhile isBlankChar) := fun _ hx => List.mem_takeWhile_imp hx
    exact ⟨_, .attr hblank hgap.symm htext hbody,
      (Cursor.Passes.takeWhile c isBlankChar).trans (hpass.trans hpass')⟩

/-- A name is read up to the first character that is not in names. -/
theorem tagName?_eq_some_iff : tagName? cs = some (name, rest) ↔ IsTagName (String.ofList name) ∧
      (∀ x ∈ rest.head?, isNameChar x = false) ∧ cs = name ++ rest := by
  rw [IsTagName, String.toList_ofList]
  constructor
  · intro h
    unfold tagName? at h
    split at h
    · cases h
    · next x xs =>
      split at h
      · next hx =>
        obtain ⟨rfl, hdrop⟩ := Prod.mk.inj (Option.some.inj h)
        obtain ⟨hall, hrest, heq⟩ := takeWhile_dropWhile_iff.mp ⟨rfl, hdrop⟩
        exact ⟨⟨hx, List.all_eq_true.mpr hall⟩, hrest, congrArg (x :: ·) heq⟩
      · cases h
  · rintro ⟨⟨hhead, htail⟩, hrest, rfl⟩
    cases name with
    | nil => cases hhead
    | cons x xs =>
      have hx : isNameStart x := hhead
      have hxs : ∀ y ∈ xs, isNameChar y := List.all_eq_true.mp htail
      obtain ⟨htake, hdrop⟩ := takeWhile_dropWhile_iff.mpr ⟨hxs, hrest, rfl⟩
      rw [List.cons_append, tagName?, if_pos hx, htake, hdrop]

theorem endTag?_eq_some_iff {gap : List Char} : endTag? cs = some (name, gap, rest) ↔
      IsTagName (String.ofList name) ∧ (∀ x ∈ gap.head?, isNameChar x = false) ∧ '>' ∉ gap ∧
        cs = '<' :: '/' :: (name ++ (gap ++ '>' :: rest)) := by
  constructor
  · intro h
    unfold endTag? at h
    split at h
    · split at h
      · next hname =>
        obtain ⟨p, hp, heq⟩ := map_eq_some_iff.mp h
        cases heq
        obtain ⟨htag, hhead, rfl⟩ := tagName?_eq_some_iff.mp hname
        have hgap := append_eq_of_cut? hp
        refine ⟨htag, fun x hx => hhead x ?_, not_mem_of_cut? hp, by simp [← hgap]⟩
        rw [← hgap, List.append_assoc, List.head?_append, hx]
        rfl
      · cases h
    · cases h
  · rintro ⟨htag, hhead, hgap, rfl⟩
    have hname : tagName? (name ++ (gap ++ '>' :: rest)) = some (name, gap ++ '>' :: rest) := by
      refine tagName?_eq_some_iff.mpr ⟨htag, fun x hx => ?_, rfl⟩
      rw [List.head?_append] at hx
      rcases or_eq_some_iff.mp hx with hx | ⟨-, hx⟩
      · exact hhead x hx
      · cases hx
        decide
    simp only [endTag?, hname, cut?_singleton_append hgap, map_some]

/-- What is read as a start tag is one: a name and then attributes up to the end of the tag. -/
theorem text_of_startTag? {s : StartTag} (h : startTag? c = some s) : IsTagName s.tag ∧
      ∃ body, TagBody true body ∧ c.Passes ('<' :: s.tag.toList ++ body) s.cursor := by
  obtain ⟨cs, name, ahead, e, hrest, hname, he, rfl⟩ := startTag?_eq_some_iff.mp h
  obtain ⟨body, hbody, hpass⟩ := he.body
  refine ⟨(tagName?_eq_some_iff.mp hname).1, body, hbody, ?_⟩
  rw [String.toList_ofList]
  exact (Cursor.Passes.tagName hrest hname).trans hpass

end TemplateCompiler.Markup
