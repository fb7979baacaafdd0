import Mathlib.Data.List.Pairwise
import TemplateCompiler.Proofs.Relocation

/-!
# A name of an attribute in its long form

In the source of a template, the mark of one attribute is replaced by the word it stands for, with a
blank before it if the attribute touches the name of its tag. What is read is the same, but for
places and for the name of that one attribute (`read_respelled`).

The argument goes through the source once. Before the tag nothing tells the two sources apart, in
the tag the attribute is read under its other name, and behind the tag the sources are the same.
-/

namespace TemplateCompiler

open Text Markup List Option

variable {x source : String} {attr : Attr} {behind : Cursor} {first : Bool} {e : TagEnd}
  {name : List Char} {attrs : List Attr}

namespace Text

variable {a b c d : List Char}

theorem eq_of_byteLength_eq (h : a ++ b = c ++ d) (heq : byteLength a = byteLength c) :
    a = c ∧ b = d := by
  obtain ⟨more, rfl, rfl⟩ := exists_append_of_byteLength_le h (Nat.le_of_eq heq)
  have hnil : more = [] := byteLength_eq_zero_iff.mp (by rw [byteLength_append] at heq; omega)
  subst hnil
  simp

end Text

namespace Sign

theorem short_injective (sign : Sign) {y : String} (h : sign.short x = sign.short y) : x = y := by
  have hlist := congrArg String.toList h
  rw [short, short, String.toList_append, String.toList_append] at hlist
  exact String.toList_injective (append_cancel_left hlist)

theorem short_ne_long (sign : Sign) : sign.short x ≠ sign.long x := by
  intro heq
  have hlist := congrArg String.toList heq
  cases sign <;> simp [short, long, mark, word] at hlist

end Sign

namespace Markup

/-! ## The attribute -/

variable {sign : Sign} {c c' : Cursor} {after : List Char}

theorem attribute?_respelled
    (hread : attribute? c = some (attr, behind)) (hc : c.rest = sign.mark :: after)
    (hmore : behind.rest ≠ []) (hc' : c'.rest = sign.word.toList ++ after) :
    ∃ name attr' behind', attribute? c' = some (attr', behind') ∧ behind'.rest = behind.rest ∧
      attr.name = sign.short name ∧ attr'.name = sign.long name ∧ attr'.value = attr.value := by
  have hmark : ∀ x ∈ [sign.mark], isAttrNameChar x ∧ x ≠ '[' := by
    cases sign <;> simp [Sign.mark] <;> decide
  have hword : ∀ x ∈ sign.word.toList, isAttrNameChar x ∧ x ≠ '[' := by
    cases sign <;> simp [Sign.word] <;> decide
  obtain ⟨name, ahead, hname, -, hattrName, -, hval⟩ := attribute?_eq_some_iff.mp hread
  rw [hc, ← singleton_append, attrName_append_front hmark] at hname
  obtain ⟨rfl, hahead⟩ := Prod.mk.inj hname
  have hname' : attrName c'.rest = (sign.word.toList ++ (attrName after).1, ahead) := by
    rw [hc', attrName_append_front hword, hahead]
  have hlong : sign.word.toList ++ (attrName after).1 ≠ [] := by
    cases sign <;> simp [Sign.word]
  refine ⟨String.ofList (attrName after).1, ?_⟩
  have hshort : attr.name = sign.short (String.ofList (attrName after).1) := by
    rw [hattrName, Sign.short, String.ofList_append, String.singleton_eq_ofList]
  have hnames : sign.long (String.ofList (attrName after).1) =
      String.ofList (sign.word.toList ++ (attrName after).1) := by
    rw [Sign.long, String.ofList_append, String.ofList_toList]
  rcases hval with ⟨tail, value, htail, hval, hattrValue⟩ | ⟨hflag, rfl, hattrValue⟩
  · have htail' :
        (c'.past (sign.word.toList ++ (attrName after).1) ahead).skipBlank.rest = '=' :: tail :=
      htail
    have hsame : ((c'.past (sign.word.toList ++ (attrName after).1) ahead).skipBlank.past ['=']
        tail).skipBlank.rest = tail.dropWhile isBlankChar ++ [] := (append_nil _).symm
    obtain ⟨behind', hval', hbehind'⟩ := attrValue?_interchange hval (append_nil _).symm
      (append_nil behind.rest).symm hmore hsame
    refine ⟨⟨sign.long (String.ofList (attrName after).1), attr.value,
      ⟨c'.offset, behind'.offset⟩⟩, behind', attribute?_eq_some_iff.mpr ⟨_, ahead, hname', hlong,
        hnames, rfl, .inl ⟨tail, value, htail', hval', hattrValue⟩⟩, ?_, hshort, rfl, rfl⟩
    rw [hbehind', append_nil]
  · exact ⟨⟨sign.long (String.ofList (attrName after).1), attr.value, ⟨c'.offset, _⟩⟩,
      c'.past (sign.word.toList ++ (attrName after).1) ahead, attribute?_eq_some_iff.mpr ⟨_, ahead,
        hname', hlong, hnames, rfl, .inr ⟨hflag, rfl, hattrValue⟩⟩, rfl, hshort, rfl, rfl⟩

/-! ## The tag -/

/-- White space that sets what follows it apart from what is before. -/
structure SetsApart (before gap : List Char) : Prop where
  blank : IsGap gap
  apart : gap ≠ [] ∨ ∃ front x, before = front ++ [x] ∧ isBlankChar x

theorem SetsApart.of_suffix {front before gap : List Char} (h : SetsApart (front ++ before) gap)
    (hne : before ≠ []) : SetsApart before gap := by
  refine ⟨h.blank, h.apart.imp_right fun ⟨lead, x, heq, hx⟩ => ?_⟩
  refine ⟨before.dropLast, before.getLast hne, (dropLast_concat_getLast hne).symm, ?_⟩
  have hlast := congrArg List.getLast? heq
  rw [getLast?_append_of_ne_nil _ hne, getLast?_eq_some_getLast hne, getLast?_concat] at hlast
  rwa [Option.some.inj hlast]

variable {before gap : List Char}

/-- From before, the attribute looks the same in both forms. -/
theorem interchange_respelled (sign : Sign) (hgap : IsGap gap) (after : List Char) :
    Interchange (sign.mark :: after) (gap ++ (sign.word.toList ++ after)) := by
  have hblank : (gap ++ (sign.word.toList ++ after)).dropWhile isBlankChar =
      sign.word.toList ++ after := by
    rw [dropWhile_append_of_pos hgap]
    cases sign <;> rfl
  constructor
  · have hskip : gap.find? endsArgument = none := by
      refine find?_eq_none.mpr fun x hx hends => ?_
      have hx := hgap x hx
      rcases Bool.or_eq_true_iff.mp hends with heq | heq <;>
        rw [of_decide_eq_true heq] at hx <;> revert hx <;> decide
    rw [find?_append, hskip]
    cases sign <;> rfl
  · have hmark : (sign.mark :: after).dropWhile isBlankChar = sign.mark :: after := by
      cases sign <;> rfl
    rw [hblank, hmark]
    cases sign <;> simp [Sign.word, Sign.mark]

/-- Ahead of the cursor, the name of an attribute stands where the attribute starts. -/
def Cursor.Shows (c : Cursor) (attr : Attr) : Prop :=
  ∃ front rest, c.rest = front ++ (attr.name.toList ++ rest) ∧
    attr.span.start = c.offset + byteLength front

theorem Cursor.Shows.le_start (h : c.Shows attr) : c.offset ≤ attr.span.start := by
  obtain ⟨front, -, -, hstart⟩ := h
  omega

theorem Cursor.Passes.shows {text : List Char} (h : c.Passes text c')
    (hshows : c'.Shows attr) : c.Shows attr := by
  obtain ⟨front, rest, hrest, hstart⟩ := hshows
  refine ⟨text ++ front, rest, ?_, ?_⟩
  · rw [h.rest, hrest, List.append_assoc]
  · rw [hstart, h.offset, byteLength_append, Nat.add_assoc]

theorem shows_of_attribute? (h : attribute? c = some (attr, behind)) : c.Shows attr := by
  obtain ⟨name, ahead, hname, -, hattrName, hspan, -⟩ := attribute?_eq_some_iff.mp h
  have hparts := attrName_append c.rest
  rw [hname] at hparts
  refine ⟨[], ahead, ?_, by rw [hspan]; rfl⟩
  rw [hattrName, String.toList_ofList]
  exact hparts.symm

theorem ReadsTagEnd.shows (h : ReadsTagEnd first c e) : ∀ attr ∈ e.attrs, c.Shows attr := by
  induction h with
  | close => exact fun _ hattr => by cases hattr
  | @attr first c _ _ _ hattr _ _ ih =>
    obtain ⟨gap, -, hblank⟩ := Cursor.Passes.skipBlank c
    obtain ⟨text, -, hpass⟩ := text_of_attribute? hattr
    intro other hother
    rcases mem_cons.mp hother with rfl | hother
    · exact hblank.shows (shows_of_attribute? hattr)
    · exact hblank.shows (hpass.shows (ih other hother))

/-- The attributes of a tag, one of them under its long name. -/
def RespelledAt (sign : Sign) (earlier : List Attr) (attr : Attr) (later attrs' : List Attr) :
    Prop :=
  ∃ name earlier' attr' later', attrs' = earlier' ++ attr' :: later' ∧
    List.Forall₂ (Attr.Respelled none) earlier earlier' ∧
    List.Forall₂ (Attr.Respelled none) later later' ∧
    attr.name = sign.short name ∧ attr'.name = sign.long name ∧ attr'.value = attr.value

variable {earlier later : List Attr} {attr : Attr}

section

variable (hc : c.rest = before ++ sign.mark :: after)
  (hstart : attr.span.start = c.offset + byteLength before) (hgap : SetsApart before gap)
  (hc' : c'.rest = before ++ (gap ++ (sign.word.toList ++ after)))

include hc hstart hgap hc' in
/-- The attribute that comes first is read under its long name, and the rest as it was. -/
theorem ReadsTagEnd.respelled_first
    (hread : ReadsTagEnd first c e) (hattrs : e.attrs = attr :: later) :
    ∃ e', ReadsTagEnd first c' e' ∧ RespelledAt sign [] attr later e'.attrs ∧
      e'.selfClosing = e.selfClosing ∧ e'.cursor.rest = e.cursor.rest := by
  rcases hread with _ | @⟨_, _, behind, attr₁, e₁, hattr, -, he₁⟩
  · cases hattrs
  obtain ⟨rfl, rfl⟩ := List.cons.inj hattrs
  obtain ⟨-, -, -, -, -, hspan, -⟩ := attribute?_eq_some_iff.mp hattr
  -- it is the first one, so all before it is blank
  have hbytes : byteLength (c.rest.takeWhile isBlankChar) = byteLength before := by
    rw [hspan] at hstart
    have hoff : c.offset + byteLength (c.rest.takeWhile isBlankChar) =
      c.offset + byteLength before := hstart
    omega
  obtain ⟨hblank, hskip⟩ :=
    eq_of_byteLength_eq (takeWhile_append_dropWhile.trans hc) hbytes
  have hbef : ∀ x ∈ before ++ gap, isBlankChar x := by
    intro x hx
    rcases mem_append.mp hx with hx | hx
    · rw [← hblank] at hx
      exact mem_takeWhile_imp hx
    · exact hgap.blank x hx
  rw [← List.append_assoc] at hc'
  have hskip' : c'.skipBlank.rest = sign.word.toList ++ after := by
    show c'.rest.dropWhile isBlankChar = _
    rw [hc', dropWhile_append_of_pos hbef]
    cases sign <;> rfl
  have hopen' : c'.rest.takeWhile isBlankChar ≠ [] := by
    rw [hc', takeWhile_append_of_pos hbef]
    rcases hgap.apart with hne | ⟨front, x, rfl, -⟩ <;> simp_all
  have hmore : behind.rest ≠ [] := by
    intro hnil
    have hlt := he₁.length_lt
    simp [hnil] at hlt
  obtain ⟨name, attr', behind', hattr', hbehind', hshort, hlong, hval⟩ :=
    attribute?_respelled hattr hskip hmore hskip'
  obtain ⟨e', he', hlater, hclosing, hcur⟩ := he₁.interchange (.refl [])
    (append_nil _).symm (append_nil _).symm
    (hbehind'.trans (append_nil _).symm)
  refine ⟨_, .attr hattr' (.inr hopen') he', ⟨name, [], attr', e'.attrs, rfl, .nil, hlater, hshort,
    hlong, hval⟩, hclosing, ?_⟩
  exact hcur.trans (append_nil _)

/-- Behind an attribute, the next one does not follow at once. -/
theorem ReadsTagEnd.rest_ne (h : ReadsTagEnd false c e) : c.rest ≠ sign.mark :: after := by
  intro hrest
  have hskipped : c.skipBlank.rest = sign.mark :: after := by
    show c.rest.dropWhile isBlankChar = _
    rw [hrest]
    cases sign <;> rfl
  have htouching : c.rest.takeWhile isBlankChar = [] := by
    rw [hrest]
    cases sign <;> rfl
  cases h with
  | close slash htail =>
    rw [hskipped] at htail
    cases sign <;> cases slash <;> cases htail
  | attr _ hopen _ =>
    rw [htouching] at hopen
    simp at hopen

include hc hstart hgap hc' in
theorem ReadsTagEnd.respelled
    (hread : ReadsTagEnd first c e) (hattrs : e.attrs = earlier ++ attr :: later) :
    ∃ e', ReadsTagEnd first c' e' ∧ RespelledAt sign earlier attr later e'.attrs ∧
      e'.selfClosing = e.selfClosing ∧ e'.cursor.rest = e.cursor.rest := by
  induction earlier generalizing first c c' e before with
  | nil => exact respelled_first hc hstart hgap hc' hread hattrs
  | cons other earlier ih =>
    rcases hread with _ | @⟨_, _, behind, attr₁, e₁, hattr, hopen, he₁⟩
    · cases hattrs
    obtain ⟨rfl, hattrs₁⟩ := List.cons.inj hattrs
    obtain ⟨gap₁, -, hskip⟩ := Cursor.Passes.skipBlank c
    obtain ⟨text, -, hpass⟩ := text_of_attribute? hattr
    have hpassed := hskip.trans hpass
    -- the attribute starts behind the first one, with white space between them
    have hle := (he₁.shows attr (by rw [hattrs₁]; simp)).le_start
    obtain ⟨before₁, rfl, hbehind⟩ := exists_append_of_byteLength_le
      (hpassed.rest.symm.trans hc) (by rw [hpassed.offset] at hle; omega)
    have hne₁ : before₁ ≠ [] := by
      rintro rfl
      exact he₁.rest_ne hbehind
    have hlt := length_lt_of_attribute? hattr
    obtain ⟨front, -, hskipped, hblank⟩ := skipBlank_interchange hc
      (by rw [hbehind, length_append] at hlt; omega) (gap ++ (sign.word.toList ++ after))
    obtain ⟨hskipped', hgap'⟩ := hblank c' hc'
    obtain ⟨other', behind', hattr', hbehind', hsame⟩ := attribute?_interchange
      (interchange_respelled sign hgap.blank after) hattr hskipped hbehind hne₁ hskipped'
    have hstart₁ : attr.span.start = behind.offset + byteLength before₁ := by
      rw [hstart, hpassed.offset, byteLength_append]
      omega
    obtain ⟨e', he', ⟨name, earlier', attr', later', hattrs', hearlier, hlater, hnames⟩, hclosing,
      hcur⟩ := ih hbehind hstart₁ (hgap.of_suffix hne₁) hbehind' he₁ hattrs₁
    refine ⟨_, .attr hattr' (by rwa [hgap']) he', ⟨name, other' :: earlier', attr', later', ?_,
      .cons hsame hearlier, hlater, hnames⟩, hclosing, hcur⟩
    rw [hattrs']
    rfl

def blankPoints : List Nat :=
  [0x9, 0xA, 0xB, 0xC, 0xD, 0x20, 0x85, 0xA0, 0x1680, 0x2000, 0x2001, 0x2002, 0x2003, 0x2004,
    0x2005, 0x2006, 0x2007, 0x2008, 0x2009, 0x200A, 0x2028, 0x2029, 0x202F, 0x205F, 0x3000]

theorem isNameChar_of_isBlankChar {x : Char} (h : isBlankChar x) :
    isNameStart x = false ∧ isNameChar x = false := by
  have hpoint : x.toNat ∈ blankPoints := by
    unfold isBlankChar at h
    simp only [blankRanges, inRanges, Bool.if_false_left, Bool.and_eq_true, Bool.or_eq_true,
      Bool.not_eq_true', decide_eq_false_iff_not, decide_eq_true_eq, Bool.false_eq_true, or_false]
      at h
    simp only [blankPoints, mem_cons, not_mem_nil, or_false]
    omega
  have hnone : (blankPoints.all fun n =>
      !isNameStart (Char.ofNat n) && !isNameChar (Char.ofNat n)) := by decide +kernel
  have hx := List.all_eq_true.mp hnone _ hpoint
  rw [Char.ofNat_toNat, Bool.and_eq_true, Bool.not_eq_true', Bool.not_eq_true'] at hx
  exact hx

theorem ReadsTagEnd.mem (h : ReadsTagEnd first c e) : '>' ∈ c.rest := by
  obtain ⟨body, hbody, hpass⟩ := h.body
  rw [hpass.rest]
  refine mem_append_left _ ?_
  clear hpass h
  induction hbody with
  | close hgap slash => cases slash <;> simp [tagClose]
  | attr _ _ _ _ ih => simp [ih]

theorem SetsApart.of_tagName (htagName : IsTagName (String.ofList name))
    (h : SetsApart ('<' :: name ++ before) gap) : SetsApart before gap := by
  by_cases hne : before = []
  · subst hne
    refine ⟨h.blank, .inl ?_⟩
    rcases h.apart with hne | ⟨front, x, heq, hx⟩
    · exact hne
    · have hmem : x ∈ '<' :: name := by
        rw [← append_nil ('<' :: name), heq]
        simp
      rcases mem_cons.mp hmem with rfl | hmem
      · exact absurd hx (by decide)
      · have hclass := htagName.isNameChar_of_mem (by simpa using hmem)
        rw [(isNameChar_of_isBlankChar hx).1, (isNameChar_of_isBlankChar hx).2] at hclass
        cases hclass
  · exact h.of_suffix hne

/-- The name of a tag ends where it did: nothing that follows it belongs to a name. -/
theorem SetsApart.isNameChar_head (h : SetsApart before gap) (rest : List Char)
    (hbef : ∀ x ∈ before.head?, isNameChar x = false) :
    ∀ x ∈ (before ++ (gap ++ rest)).head?, isNameChar x = false := by
  intro x hx
  cases before with
  | cons y before =>
    cases hx
    exact hbef x rfl
  | nil =>
    cases gap with
    | nil =>
      rcases h.apart with hne | ⟨front, y, heq, -⟩
      · exact absurd rfl hne
      · simp at heq
    | cons y gap =>
      cases hx
      exact (isNameChar_of_isBlankChar (h.blank _ mem_cons_self)).2

theorem startsTag_of_isTagName (h : IsTagName (String.ofList name))
    {ahead : List Char} (hmem : '>' ∈ ahead) : StartsTag ('<' :: name ++ ahead) := by
  obtain ⟨hhead, -⟩ := h
  cases name with
  | nil => cases hhead
  | cons x name => exact ⟨x, name ++ ahead, rfl, by simpa using hhead, by simp [hmem]⟩

include hc hstart hgap hc' in
theorem startTag?_respelled {tag : StartTag}
    (hread : startTag? c = some tag) (hattrs : tag.attrs = earlier ++ attr :: later) :
    StartsTag c.rest ∧ StartsTag c'.rest ∧
    ∃ tag', startTag? c' = some tag' ∧ RespelledAt sign earlier attr later tag'.attrs ∧
      tag'.tag = tag.tag ∧ tag'.selfClosing = tag.selfClosing ∧
      tag'.cursor.rest = tag.cursor.rest := by
  obtain ⟨cs, name, ahead, e, hrest, hname, he, rfl⟩ := startTag?_eq_some_iff.mp hread
  have hpass := Cursor.Passes.tagName hrest hname
  have hle := (he.shows attr (by rw [show e.attrs = _ from hattrs]; simp)).le_start
  obtain ⟨before₁, rfl, hahead⟩ := exists_append_of_byteLength_le (hpass.rest.symm.trans hc)
    (by rw [hpass.offset] at hle; omega)
  obtain rfl : ahead = before₁ ++ sign.mark :: after := hahead
  obtain ⟨htagName, hahead, -⟩ := tagName?_eq_some_iff.mp hname
  have hgap₁ := hgap.of_tagName htagName
  have hbef₁ : ∀ x ∈ before₁.head?, isNameChar x = false := by
    intro x hx
    cases before₁ with
    | nil => cases hx
    | cons y before₁ =>
      cases hx
      exact hahead _ rfl
  have hname' := tagName?_eq_some_iff.mpr
    ⟨htagName, hgap₁.isNameChar_head (sign.word.toList ++ after) hbef₁, rfl⟩
  have hnamed' : (c'.past ('<' :: name) (before₁ ++ (gap ++ (sign.word.toList ++ after)))).rest =
      before₁ ++ (gap ++ (sign.word.toList ++ after)) := rfl
  obtain ⟨e', he', hattrs', hclosing, hcur⟩ := ReadsTagEnd.respelled rfl
    (by rw [hstart, hpass.offset, byteLength_append]; omega) hgap₁ hnamed' he hattrs
  have hrest' : c'.rest = '<' :: (name ++ (before₁ ++ (gap ++ (sign.word.toList ++ after)))) := by
    rw [hc']
    simp
  refine ⟨?_, ?_, _, startTag?_eq_some_iff.mpr ⟨_, name, _, e', hrest', hname', he', rfl⟩, hattrs',
    rfl, hclosing, hcur⟩
  · rw [hpass.rest]
    exact startsTag_of_isTagName htagName he.mem
  · rw [hrest']
    exact startsTag_of_isTagName htagName he'.mem

end

/-- If no other attribute has the name in either form, the names differ by the respelling. -/
theorem RespelledAt.spells {earlier later attrs' : List Attr}
    (h : RespelledAt sign earlier attr later attrs') (hname : attr.name = sign.short x)
    (hother : ∀ other ∈ earlier ++ later, other.name ≠ sign.short x ∧ other.name ≠ sign.long x) :
    Respelling.Spells (some (sign, x)) (earlier ++ attr :: later) attrs' := by
  obtain ⟨name, earlier', attr', later', rfl, hearlier, hlater, hshort, hlong, hval⟩ := h
  obtain rfl := sign.short_injective (hshort.symm.trans hname)
  have hkept (attrs attrs' : List Attr) (hattrs : List.Forall₂ (Attr.Respelled none) attrs attrs')
      (hmem : ∀ other ∈ attrs, other ∈ earlier ++ later) :
      List.Forall₂ (Attr.Respelled (some (sign, name))) attrs attrs' := by
    refine ((forall₂_and_left _ _).mpr ⟨hmem, hattrs⟩).imp fun other other' hpair => ?_
    refine ⟨?_, hpair.2.value⟩
    rw [hpair.2.name]
    exact (Equiv.swap_apply_of_ne_of_ne (hother other hpair.1).1 (hother other hpair.1).2).symm
  refine ⟨rel_append (hkept _ _ hearlier (by simp +contextual))
    (.cons ⟨?_, hval⟩ (hkept _ _ hlater (by simp +contextual))), fun long hmem other hin => ?_⟩
  · rw [hlong, hshort]
    exact (Equiv.swap_apply_left _ _).symm
  · cases hmem
    rcases mem_append.mp hin with hin | hin
    · exact (hother other (by simp [hin])).2
    · rcases mem_cons.mp hin with rfl | hin
      · rw [hname]
        exact sign.short_ne_long
      · exact (hother other (by simp [hin])).2

/-! ## The source -/

namespace Scanner

variable {t : TagTable} {comments : Bool} {s s' : Scanner}

theorem attrs_of_mem_closeTag {stack : List OpenTag} {name tag : String} {span span' : Span}
    {unary : Bool}
    (h : Signal.event (.opened tag attrs unary span') ∈ (closeTag t name span stack).1) :
    attrs = [] := by
  have hplaced := mem_placed h rfl
  rcases placed_closeTag t name span stack with hnone | ⟨-, unary', hone⟩
  · rw [hnone] at hplaced
    cases hplaced
  · rw [hone] at hplaced
    cases mem_singleton.mp hplaced
    rfl

theorem text?_of_mem_textSignals {content : List Char} {start : Nat} {e : Event}
    (h : Signal.event e ∈ textSignals content start) : e.text?.isSome := by
  unfold textSignals at h
  split at h
  · cases h
  · cases mem_singleton.mp h
    rfl

variable {tag : String} {attrs : List Attr} {unary : Bool} {span : Span}

theorem startTag?_of_mem_step
    (h : Signal.event (.opened tag attrs unary span) ∈ (s.step t comments).1)
    (hattrs : attrs ≠ []) :
    s.rawTag? t = none ∧ ∃ st, startTag? s.cursor = some st ∧ st.attrs = attrs := by
  have htakes := s.takes_step t comments
  generalize s.step t comments = r at htakes h
  cases htakes with
  | raw | cdata | run => cases text?_of_mem_textSignals h
  | malformed =>
    rcases mem_append.mp h with h | h
    · cases text?_of_mem_textSignals h
    · simp at h
  | comment | skipped => simp at h
  | closed =>
    rcases mem_append.mp h with h | h
    · cases text?_of_mem_textSignals h
    · exact absurd (attrs_of_mem_closeTag h) hattrs
  | opened hraw htag =>
    refine ⟨hraw, _, htag, ?_⟩
    have hplaced := mem_placed h rfl
    dsimp only [openTag] at hplaced
    rw [placed_append, placed_closeImplied] at hplaced
    cases mem_singleton.mp hplaced
    rfl

/-- An attribute is in the source, behind the name of its tag. -/
theorem shows_of_mem_run (hsound : SoundTags t s.stack)
    (h : Signal.event (.opened tag attrs unary span) ∈ run t comments s) :
    ∀ attr ∈ attrs, s.cursor.Shows attr ∧ s.cursor.offset < attr.span.start := by
  induction hn : s.cursor.rest.length using Nat.strongRecOn generalizing s with
  | _ n ih =>
  intro attr hattr
  rw [run.eq_def t comments s] at h
  split at h
  · obtain ⟨o, -, hmem⟩ := mem_flatMap.mp h
    unfold closeSignals at hmem
    split at hmem <;> simp at hmem
  · next hend =>
    obtain ⟨taken, htaken⟩ : ∃ taken, Reads t comments s taken (s.step t comments) :=
      reads_step hsound hend
    rcases mem_append.mp h with h | h
    · obtain ⟨-, st, hst, rfl⟩ := startTag?_of_mem_step h (ne_nil_of_mem hattr)
      obtain ⟨cs, name, ahead, e, hrest, hname, he, rfl⟩ := startTag?_eq_some_iff.mp hst
      have hpass := Cursor.Passes.tagName hrest hname
      have hshows := he.shows attr hattr
      have hle := hshows.le_start
      have hpos : 0 < byteLength ('<' :: name) := byteLength_pos (cons_ne_nil _ _)
      rw [hpass.offset] at hle
      exact ⟨hpass.shows hshows, by omega⟩
    · obtain ⟨hshows, hlt⟩ := ih _ (by rw [← hn]; exact length_step_lt t comments s hend)
        htaken.stack h rfl attr hattr
      rw [htaken.passes.offset] at hlt
      exact ⟨htaken.passes.shows hshows, by omega⟩

variable {x : String}

section

variable (hs : s.cursor.rest = before ++ sign.mark :: after)
  (hstart : attr.span.start = s.cursor.offset + byteLength before)
  (hname : attr.name = sign.short x) (hother : ∀ other ∈ earlier ++ later,
    other.name ≠ sign.short x ∧ other.name ≠ sign.long x) (hgap : SetsApart before gap)
  (hs' : s'.cursor.rest = before ++ (gap ++ (sign.word.toList ++ after)))
  (hstk : List.Forall₂ OpenTag.Alike s.stack s'.stack)

include hs hstart hname hother hgap hs' hstk

theorem step_respelled (comments : Bool) (hraw : s.rawTag? t = none) {st : StartTag}
    (hst : startTag? s.cursor = some st) (hattrs : st.attrs = earlier ++ attr :: later) :
    Border s.cursor.rest s'.cursor.rest ∧
      StepsBeside [] [] (s.step t comments) (s'.step t comments) := by
  obtain ⟨hstarts, hstarts', st', hst', hrespelled, htag, hclosing, hcur⟩ :=
    startTag?_respelled hs hstart hgap hs' hst hattrs
  have hbord : Border s.cursor.rest s'.cursor.rest := by
    refine ⟨?_, .inr ⟨hstarts, hstarts'⟩⟩
    rw [hs, hs']
    exact (interchange_respelled sign hgap.blank after).append before
  have hbeside : s.Beside s.cursor.rest s'.cursor.rest s' := ⟨hstk, [], rfl, rfl⟩
  have halike : st.Alike st' :=
    ⟨htag, ⟨some (sign, x), hattrs ▸ hrespelled.spells hname hother⟩, hclosing⟩
  have hstep (s : Scanner) (hraw : s.rawTag? t = none) (hstarts : StartsTag s.cursor.rest) :
      s.step t comments = (s.start? t).getD s.text := by
    obtain ⟨y, tail, hrest, hy, -⟩ := hstarts
    unfold step
    rw [hraw]
    rw [construct?_of_name hrest hy]
  refine ⟨hbord, ?_⟩
  rw [hstep s hraw hstarts, hstep s' ((rawTag?_beside hbeside).trans hraw) hstarts']
  obtain ⟨hsigs, hopened⟩ := openTag_alike hstk halike
    ⟨s.cursor.offset, st.cursor.offset⟩ ⟨s'.cursor.offset, st'.cursor.offset⟩
  unfold start?
  rw [hst, hst']
  refine ⟨hsigs, hopened, ?_⟩
  simp only [map_some, getD_some, append_nil, exists_eq_left']
  rw [htag, hcur]
  split
  · split
    · rfl
    · exact hcur
  · exact hcur

/-- From any place before the attribute on, the two sources are told apart by nothing that is read
before its tag, and they give the same signals but for the respelling. -/
theorem run_respelled (hsound : SoundTags t s.stack)
    (hevent : .event (.opened tag (earlier ++ attr :: later) unary span) ∈ run t comments s) :
    (∃ rest rest', Border rest rest' ∧ StartsTag rest ∧ s.Beside rest rest' s') ∧
      List.Forall₂ Signal.Alike (run t comments s) (run t comments s') := by
  induction hn : s.cursor.rest.length using Nat.strongRecOn generalizing s s' before with
  | _ n ih =>
  have hend : s.cursor.rest ≠ [] := by simp [hs]
  have hend' : s'.cursor.rest ≠ [] := by
    rw [hs']
    cases sign <;> simp [Sign.word]
  rw [run.eq_def t comments s, dif_neg hend] at hevent
  rw [run.eq_def t comments s, run.eq_def t comments s', dif_neg hend, dif_neg hend']
  obtain ⟨taken, htaken⟩ : ∃ taken, Reads t comments s taken (s.step t comments) :=
    reads_step hsound hend
  rcases mem_append.mp hevent with hevent | hevent
  · -- this is the tag, and what is behind it is the same in both sources
    obtain ⟨hraw, st, hst, hattrs⟩ := startTag?_of_mem_step hevent (by simp)
    obtain ⟨hbord, hsigs, hnext⟩ :=
      step_respelled hs hstart hname hother hgap hs' hstk comments hraw hst hattrs
    obtain ⟨hstarts, -⟩ := startTag?_respelled hs hstart hgap hs' hst hattrs
    exact ⟨⟨_, _, hbord, hstarts, hstk, [], rfl, rfl⟩,
      rel_append hsigs (run_beside comments htaken.stack hnext)⟩
  · -- the tag is further on, and this step stays before it
    have hlt := (shows_of_mem_run htaken.stack hevent attr (by simp)).2
    rw [hstart, htaken.passes.offset] at hlt
    obtain ⟨before₁, rfl, hrest₁⟩ :=
      exists_append_of_byteLength_le (htaken.passes.rest.symm.trans hs)
      (by omega)
    have hne₁ : before₁ ≠ [] := by
      rintro rfl
      simp at hlt
    have hstart₁ : attr.span.start = (s.step t comments).2.cursor.offset + byteLength before₁ := by
      rw [hstart, htaken.passes.offset, byteLength_append]
      omega
    have hshorter := length_step_lt t comments s hend
    have hlater (next : Scanner)
        (hnext : next.cursor.rest = before₁ ++ (gap ++ (sign.word.toList ++ after)))
        (hstk' : List.Forall₂ OpenTag.Alike (s.step t comments).2.stack next.stack) :=
      ih _ (by rw [← hn]; exact hshorter) hrest₁ hstart₁ (hgap.of_suffix hne₁) hnext hstk'
        htaken.stack hevent rfl
    obtain ⟨⟨rest, rest', hbord, hstarts, -, front, hfront, hfront'⟩, -⟩ :=
      hlater ⟨⟨0, before₁ ++ (gap ++ (sign.word.toList ++ after))⟩, (s.step t comments).2.stack⟩ rfl
        (forall₂_same.mpr fun _ _ => rfl)
    have hbeside : s.Beside rest rest' s' := by
      refine ⟨hstk, taken.flatMap Segment.chars ++ front, ?_, ?_⟩
      · rw [htaken.passes.rest, hfront, List.append_assoc]
      · rw [hs', List.append_assoc, List.append_assoc]
        exact congrArg _ hfront'
    have hlen : rest.length ≤ (s.step t comments).2.cursor.rest.length := by simp [hfront]
    obtain ⟨hsigs, hnext⟩ :=
      step_beside hbord hsound hbeside (by omega) hlen
    obtain ⟨front', hsame, hnext'⟩ := hnext.text
    obtain rfl : front = front' := append_cancel_right (hfront.symm.trans hsame)
    refine ⟨⟨rest, rest', hbord, hstarts, hbeside⟩, rel_append hsigs ?_⟩
    exact (hlater _ (hnext'.trans hfront'.symm) hnext.stack).2

end

end Scanner

variable {t : TagTable} {comments : Bool} {tag : String} {unary : Bool} {span : Span}

theorem name_of_mem_read
    (h : .event (.opened tag attrs unary span) ∈ read t comments source) (hattr : attr ∈ attrs) :
    ∃ front rest, front ≠ [] ∧ source.toList = front ++ (attr.name.toList ++ rest) ∧
      attr.span.start = byteLength front := by
  obtain ⟨⟨front, rest, hrest, hstart⟩, hpos⟩ := Scanner.shows_of_mem_run
    (s := { cursor := { rest := source.toList } }) trivial h attr hattr
  dsimp only at hrest hstart hpos
  refine ⟨front, rest, ?_, hrest, by omega⟩
  rintro rfl
  rw [byteLength] at hstart
  omega

theorem read_respelled {source' : String}
    (hevent : .event (.opened tag (earlier ++ attr :: later) unary span) ∈ read t comments source)
    (hsrc : source.toList = before ++ sign.mark :: after)
    (hstart : attr.span.start = byteLength before) (hname : attr.name = sign.short x)
    (hother : ∀ other ∈ earlier ++ later, other.name ≠ sign.short x ∧ other.name ≠ sign.long x)
    (hgap : SetsApart before gap)
    (hsrc' : source'.toList = before ++ (gap ++ (sign.word.toList ++ after))) :
    List.Forall₂ Signal.Alike (read t comments source) (read t comments source') := by
  have hsound : SoundTags t [] := trivial
  have hstart' : attr.span.start = 0 + byteLength before := by omega
  have hs' : ({ cursor := { rest := source'.toList } } : Scanner).cursor.rest =
      before ++ (gap ++ (sign.word.toList ++ after)) := hsrc'
  exact (Scanner.run_respelled hsrc hstart' hname hother hgap hs' .nil hsound hevent).2

theorem text_ne_source {content : String} {place : Span}
    (hopened : .event (.opened tag attrs unary span) ∈ read t comments source)
    (htext : .event (.text content place) ∈ read t comments source) : content ≠ source := by
  rintro rfl
  obtain ⟨segments, hchars, hprop, -, hyields⟩ := Scanner.segments_of_run t comments
    { cursor := { rest := content.toList } } trivial
  have hlies := hyields.liesIn hprop
  rw [hchars] at hlies
  obtain ⟨front, inner, rest, hparts, -, hspan, hwhole⟩ := hlies _ (mem_placed htext rfl)
  have hbounds := (hlies _ (mem_placed hopened rfl)).bounds
  have hinner : inner = content.toList := by
    rw [hwhole content rfl, String.toList_ofList]
  have hbytes := congrArg byteLength hparts
  rw [byteLength_append, byteLength_append, hinner] at hbytes
  -- the text takes all the bytes there are, so the tag has no place before or behind it
  have happart : (placed (read t comments content)).Pairwise fun e f =>
      e.span.stop ≤ f.span.start ∨ f.span.stop ≤ e.span.start :=
    (hyields.ordered hprop).imp .inl
  have : Std.Symm fun e f : Event => e.span.stop ≤ f.span.start ∨ f.span.stop ≤ e.span.start :=
    ⟨fun _ _ h => h.symm⟩
  have hdisjoint := happart.forall (mem_placed htext rfl) (mem_placed hopened rfl) (by simp)
  rw [hspan, hinner] at hdisjoint
  dsimp only at hbytes hdisjoint hbounds
  omega

end Markup

end TemplateCompiler
