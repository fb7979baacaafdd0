import TemplateCompiler.Proofs.Printing
import TemplateCompiler.Proofs.Spelling

/-!
# Reading the same characters elsewhere

What the scanner makes of some characters depends on them alone: not on how far into the source
they stand, and nearly not on what follows them. It looks ahead of what it takes in two places only.
A bracket in the name of an attribute opens an argument if a closing bracket is ahead before any
equals sign, and the name has a value if an equals sign is the next character that is not blank.

`Interchange` says of two ends of a source that they look the same from before. With such an end in
the place of the other, a start tag before it is read as it was (`startTag?_interchange`). `Border`
asks a little more of the two ends, and then all that is read before them is (`step_beside`).
-/

namespace TemplateCompiler

open Text Markup List Option

variable {front front' rest after name mark cs tail tail' : List Char} {o o' : OpenTag}
  {tag : String} {span span' : Span}

/-! ## Parts of a text -/

namespace Text

/-- A run of characters that ends before a border does not depend on what is behind it. -/
theorem dropWhile_border {p : Char → Bool}
    (h : (front ++ rest).dropWhile p = front' ++ rest) (hne : front' ≠ []) (rest' : List Char) :
    (front ++ rest').takeWhile p = (front ++ rest).takeWhile p ∧
      (front ++ rest').dropWhile p = front' ++ rest' := by
  obtain ⟨hrun, hrest, hparts⟩ := takeWhile_dropWhile_iff.mp ⟨rfl, h⟩
  generalize (front ++ rest).takeWhile p = run at hrun hparts ⊢
  rw [← List.append_assoc] at hparts
  rw [append_cancel_right hparts, takeWhile_dropWhile_iff, List.append_assoc]
  rw [head?_append_of_ne_nil _ hne] at hrest ⊢
  exact ⟨hrun, hrest, rfl⟩

theorem border_of_append {taken : List Char} (h : taken ++ after = front ++ rest)
    (hlen : rest.length ≤ after.length) :
    ∃ front', after = front' ++ rest ∧ front = taken ++ front' := by
  rcases append_eq_append_iff.mp h with ⟨front', hfront, hafter⟩ | ⟨more, htaken, hrest⟩
  · exact ⟨front', hafter, hfront⟩
  · have hmore : more = [] := by
      have hlengths := congrArg List.length hrest
      rw [length_append] at hlengths
      exact length_eq_zero_iff.mp (by omega)
    subst hmore
    exact ⟨[], by simp [hrest], by simp [htaken]⟩

end Text

namespace Markup

/-! ## Ends that look the same from before -/

/-- Whether a character decides if a bracket opens an argument. -/
def endsArgument (c : Char) : Bool := c = ']' || c = '='

/-- Two ends of a source that cannot be told apart from before. -/
structure Interchange (rest rest' : List Char) : Prop where
  argument : rest'.find? endsArgument = rest.find? endsArgument
  value : (rest'.dropWhile isBlankChar).head? = some '=' ↔
    (rest.dropWhile isBlankChar).head? = some '='

theorem Interchange.refl (rest : List Char) : Interchange rest rest := ⟨rfl, Iff.rfl⟩

theorem Interchange.append {rest' : List Char} (h : Interchange rest rest')
    (front : List Char) : Interchange (front ++ rest) (front ++ rest') := by
  refine ⟨by rw [find?_append, find?_append, h.argument], ?_⟩
  induction front with
  | nil => exact h.value
  | cons c front ih =>
    rw [cons_append, cons_append, dropWhile_cons, dropWhile_cons]
    exact rel_ite (R := fun x y : List Char => y.head? = some '=' ↔ x.head? = some '=') Iff.rfl ih
      Iff.rfl

/-! ## Attributes -/

theorem bracketed?_cons (c : Char) : bracketed? (c :: cs) =
      if c = ']' then some ([], cs)
      else if c = '=' then none else (bracketed? cs).map fun p => (c :: p.1, p.2) := by
  unfold bracketed?
  rw [cut?_singleton_cons]
  by_cases hclose : c = ']'
  · subst hclose
    rfl
  · rw [if_neg (Ne.symm hclose), if_neg hclose]
    cases cut? [']'] cs with
    | none => simp
    | some p =>
      by_cases hequals : c = '='
      · simp [hequals]
      · simp [hequals, filter_some, Ne.symm hequals, apply_ite (Option.map _)]

theorem isSome_bracketed?_iff (cs : List Char) :
    (bracketed? cs).isSome ↔ cs.find? endsArgument = some ']' := by
  induction cs with
  | nil => simp [bracketed?, cut?, List.isPrefixOf?]
  | cons c cs ih =>
    rw [bracketed?_cons]
    by_cases hclose : c = ']'
    · simp [hclose, endsArgument]
    · by_cases hequals : c = '='
      · simp [hequals, endsArgument]
      · simp [hclose, hequals, endsArgument, ← ih]

variable {rest rest' : List Char}

theorem attrName_interchange (h : Interchange rest rest')
    (hread : attrName (front ++ rest) = (name, front' ++ rest)) (hne : front' ≠ []) :
    attrName (front ++ rest') = (name, front' ++ rest') := by
  -- on the length, since an argument is taken as a whole
  induction hn : front.length using Nat.strongRecOn generalizing front name with
  | _ n ih =>
  have hlost := attrName_append (front ++ rest)
  rw [hread] at hlost
  obtain ⟨front₁, hfront₁, hfront⟩ := border_of_append hlost (by simp)
  obtain rfl := append_cancel_right hfront₁
  cases front with
  | nil =>
    rw [eq_comm, append_eq_nil_iff] at hfront
    exact absurd hfront.2 hne
  | cons c front =>
    have hsome := isSome_bracketed?_iff (front ++ rest)
    have hsome' := isSome_bracketed?_iff (front ++ rest')
    rw [find?_append, h.argument, ← find?_append, ← hsome] at hsome'
    by_cases harg : c = '[' ∧ (bracketed? (front ++ rest)).isSome
    · obtain ⟨rfl, harg⟩ := harg
      obtain ⟨⟨inner, after⟩, hinner⟩ := isSome_iff_exists.mp harg
      rw [cons_append, attrName_argument hinner] at hread
      obtain ⟨hname, hafter⟩ := Prod.mk.inj hread
      have hcut := append_eq_of_cut? (eq_some_of_filter_eq_some hinner)
      have hlen := congrArg List.length (attrName_append after)
      rw [hafter] at hlen
      obtain ⟨front₂, rfl, rfl⟩ := border_of_append hcut (by
        simp only [length_append] at hlen
        omega)
      have hinner' : bracketed? (inner ++ [']'] ++ front₂ ++ rest') =
          some (inner, front₂ ++ rest') := by
        obtain ⟨hfound, hplain⟩ := filter_eq_some_iff.mp hinner
        refine filter_eq_some_iff.mpr ⟨?_, hplain⟩
        have hmark := cut?_mark hfound (front₂ ++ rest')
        simpa using hmark
      have hmore := ih front₂.length (by simp at hn; omega) (Prod.ext rfl hafter) rfl
      rw [cons_append, attrName_argument hinner', hmore, ← hname]
    · have hplain : c = '[' → bracketed? (front ++ rest) = none := fun hc =>
        isNone_iff_eq_none.mp (by simpa using fun hs => harg ⟨hc, hs⟩)
      have hplain' : c = '[' → bracketed? (front ++ rest') = none := fun hc =>
        isNone_iff_eq_none.mp (by
          simpa [isSome_iff_ne_none] using fun hs => harg ⟨hc, hsome'.mp hs⟩)
      rw [cons_append, attrName_cons hplain] at hread
      rw [cons_append, attrName_cons hplain']
      split at hread
      · next hc =>
        obtain ⟨hname, hafter⟩ := Prod.mk.inj hread
        have hmore := ih front.length (by simp at hn; omega) (Prod.ext rfl hafter) rfl
        rw [if_pos hc, hmore, ← hname]
      · next hc =>
        obtain ⟨hname, hafter⟩ := Prod.mk.inj hread
        rw [← cons_append] at hafter
        rw [if_neg hc, ← hname, ← cons_append, append_cancel_right hafter]

variable {c c' : Cursor} {front front' : List Char}

theorem attrValue?_interchange {value : List Char} {after : Cursor}
    (hread : attrValue? c = some (value, after)) (hc : c.rest = front ++ rest)
    (hafter : after.rest = front' ++ rest) (hne : front' ≠ []) (hc' : c'.rest = front ++ rest') :
    ∃ after', attrValue? c' = some (value, after') ∧ after'.rest = front' ++ rest' := by
  obtain ⟨text, -, hpass⟩ := text_of_attrValue? hread
  have hfront : front = text ++ front' := by
    obtain ⟨front₁, hfront₁, hfront⟩ :=
      border_of_append (hpass.rest.symm.trans hc) (by simp [hafter])
    rw [hfront, append_cancel_right (hafter.symm.trans hfront₁)]
  unfold attrValue? at hread ⊢
  split at hread
  · cases hread
  · next q tail hrest =>
    cases front with
    | nil =>
      rw [eq_comm, append_eq_nil_iff] at hfront
      exact absurd hfront.2 hne
    | cons q' front =>
      rw [hc] at hrest
      obtain ⟨rfl, rfl⟩ := List.cons.inj hrest
      rw [hc']
      simp only [cons_append]
      split at hread
      · next hquote =>
        obtain ⟨⟨inner, tail⟩, hcut, heq⟩ := map_eq_some_iff.mp hread
        cases heq
        obtain rfl : tail = front' ++ rest := hafter
        have hparts := append_eq_of_cut? hcut
        rw [← List.append_assoc] at hparts
        rw [← append_cancel_right hparts, if_pos hquote, List.append_assoc _ front', cut?_mark hcut]
        exact ⟨_, rfl, rfl⟩
      · next hquote =>
        dsimp only at hread
        split at hread
        · cases hread
        · next hval =>
          cases hread
          rw [hc] at hafter
          obtain ⟨htake, hdrop⟩ := dropWhile_border hafter hne rest'
          have htaken : (c'.takeWhile isBareValueChar).1 = (c.takeWhile isBareValueChar).1 := by
            unfold Cursor.takeWhile
            rw [hc, hc', htake]
          rw [if_neg hquote, htaken, if_neg hval]
          refine ⟨(c'.takeWhile isBareValueChar).2, congrArg some (Prod.ext htaken rfl), ?_⟩
          show c'.rest.dropWhile isBareValueChar = _
          rw [hc', hdrop]

/-- What has been passed lies before the border, if more than the rest behind it is ahead. -/
theorem border_of_passes {text : List Char} {after : Cursor} (hpass : c.Passes text after)
    (hc : c.rest = front ++ rest) (hlong : rest.length < after.rest.length) :
    ∃ front', front' ≠ [] ∧ after.rest = front' ++ rest ∧ front = text ++ front' := by
  obtain ⟨front', hafter, hfront⟩ := border_of_append (hpass.rest.symm.trans hc) (by omega)
  refine ⟨front', fun hnil => ?_, hafter, hfront⟩
  rw [hafter, hnil] at hlong
  simp at hlong

theorem skipBlank_interchange (hc : c.rest = front ++ rest)
    (hlong : rest.length < c.skipBlank.rest.length) (rest' : List Char) :
    ∃ front', front' ≠ [] ∧ c.skipBlank.rest = front' ++ rest ∧
      ∀ c' : Cursor, c'.rest = front ++ rest' → c'.skipBlank.rest = front' ++ rest' ∧
        c'.rest.takeWhile isBlankChar = c.rest.takeWhile isBlankChar := by
  obtain ⟨front', hne, hskip, -⟩ :=
    border_of_passes (Cursor.Passes.takeWhile c isBlankChar) hc hlong
  have hdrop : (front ++ rest).dropWhile isBlankChar = front' ++ rest := by rw [← hc]; exact hskip
  obtain ⟨htake', hdrop'⟩ := dropWhile_border hdrop hne rest'
  refine ⟨front', hne, hskip, fun c' hc' => ⟨?_, ?_⟩⟩
  · show c'.rest.dropWhile isBlankChar = _
    rw [hc', hdrop']
  · rw [hc, hc', htake']

theorem attribute?_interchange (h : Interchange rest rest') {attr : Attr} {after : Cursor}
    (hread : attribute? c = some (attr, after)) (hc : c.rest = front ++ rest)
    (hafter : after.rest = front' ++ rest) (hne : front' ≠ []) (hc' : c'.rest = front ++ rest') :
    ∃ attr' after', attribute? c' = some (attr', after') ∧ after'.rest = front' ++ rest' ∧
      attr.Respelled none attr' := by
  have hlong : rest.length < after.rest.length := by
    have := length_pos_iff.mpr hne
    rw [hafter, length_append]
    omega
  obtain ⟨name, ahead, hname, hsome, hattrName, -, hval⟩ := attribute?_eq_some_iff.mp hread
  have hpass := Cursor.Passes.attrName hname
  have hskip := Cursor.length_rest_skipBlank_le (c.past name ahead)
  rcases hval with ⟨tail, value, htail, hval, hattrValue⟩ | ⟨hflag, rfl, hattrValue⟩
  · -- each step of reading the value still has text before the border ahead
    have hlast := length_le_of_attrValue? hval
    have hskip' : ((c.past name ahead).skipBlank.past ['='] tail).skipBlank.rest.length ≤
        tail.length := Cursor.length_rest_skipBlank_le _
    rw [htail, length_cons] at hskip
    obtain ⟨front₁, hne₁, hnamed, -⟩ := border_of_passes hpass hc (by omega)
    obtain ⟨front₂, hne₂, hskipped, hblank⟩ := skipBlank_interchange hnamed
      (by rw [htail, length_cons]; omega) rest'
    cases front₂ with
    | nil => exact absurd rfl hne₂
    | cons d front₂ =>
      rw [htail, cons_append] at hskipped
      obtain ⟨rfl, rfl⟩ := List.cons.inj hskipped
      obtain ⟨front₃, hne₃, hskip₃, hblank₃⟩ := skipBlank_interchange
        (c := (c.past name ahead).skipBlank.past ['='] (front₂ ++ rest)) rfl (by omega) rest'
      have hahead : ahead = front₁ ++ rest := hnamed
      rw [hc, hahead] at hname
      have hname' := attrName_interchange h hname hne₁
      have hnamed' : (c'.past name (front₁ ++ rest')).rest = front₁ ++ rest' := rfl
      obtain ⟨after', hval', hafter'⟩ := attrValue?_interchange hval hskip₃ hafter hne
        (hblank₃ ((c'.past name (front₁ ++ rest')).skipBlank.past ['='] (front₂ ++ rest')) rfl).1
      refine ⟨⟨attr.name, attr.value, ⟨c'.offset, after'.offset⟩⟩, after',
        attribute?_eq_some_iff.mpr ⟨name, front₁ ++ rest', by rw [hc', hname'], hsome, hattrName,
          rfl, .inl ⟨front₂ ++ rest', value, (hblank _ hnamed').1, hval', hattrValue⟩⟩, hafter',
        rfl, rfl⟩
  · have hahead : ahead = front' ++ rest := hafter
    rw [hc, hahead] at hname
    have hname' := attrName_interchange h hname hne
    refine ⟨⟨attr.name, attr.value, ⟨c'.offset, (c'.past name (front' ++ rest')).offset⟩⟩,
      c'.past name (front' ++ rest'), attribute?_eq_some_iff.mpr ⟨name, front' ++ rest',
        by rw [hc', hname'], hsome, hattrName, rfl, .inr ⟨?_, rfl, hattrValue⟩⟩, rfl, rfl, rfl⟩
    intro hequals
    refine hflag ?_
    rw [hahead]
    exact (h.append front').value.mp hequals

/-! ## Start tags -/

theorem ReadsTagEnd.interchange (h : Interchange rest rest') {first : Bool} {e : TagEnd}
    (hread : ReadsTagEnd first c e) (hc : c.rest = front ++ rest)
    (he : e.cursor.rest = front' ++ rest) (hc' : c'.rest = front ++ rest') :
    ∃ e', ReadsTagEnd first c' e' ∧ List.Forall₂ (Attr.Respelled none) e.attrs e'.attrs ∧
      e'.selfClosing = e.selfClosing ∧ e'.cursor.rest = front' ++ rest' := by
  induction hread generalizing c' front with
  | @close first c tail slash htail =>
    have hclose : tagClose slash ≠ [] := by cases slash <;> simp [tagClose]
    obtain rfl : tail = front' ++ rest := he
    obtain ⟨front₁, -, hskipped, hblank⟩ := skipBlank_interchange hc (by
      have := length_pos_iff.mpr hclose
      rw [htail, length_append, length_append]
      omega) rest'
    rw [htail, ← List.append_assoc] at hskipped
    obtain rfl := append_cancel_right hskipped
    have hskipped' : c'.skipBlank.rest = tagClose slash ++ (front' ++ rest') := by
      rw [(hblank c' hc').1, List.append_assoc]
    exact ⟨_, .close slash hskipped', .nil, rfl, rfl⟩
  | @attr first c after attr e hattr hgap hrest ih =>
    have hlt := length_lt_of_attribute? hattr
    have hlt' := hrest.length_lt
    have hend : rest.length ≤ e.cursor.rest.length := by simp [show e.cursor.rest = _ from he]
    obtain ⟨text, -, hpass⟩ := text_of_attribute? hattr
    obtain ⟨front₁, -, hskipped, hblank⟩ := skipBlank_interchange hc (by omega) rest'
    obtain ⟨front₂, hne₂, hafter, -⟩ := border_of_passes hpass hskipped (by omega)
    obtain ⟨hskipped', hgap'⟩ := hblank c' hc'
    obtain ⟨attr', after', hattr', hafter', hsame⟩ :=
      attribute?_interchange h hattr hskipped hafter hne₂ hskipped'
    obtain ⟨e', he', hattrs, hclosing, hcur⟩ := ih hafter he hafter'
    exact ⟨_, .attr hattr' (by rwa [hgap']) he', .cons hsame hattrs, hclosing, hcur⟩

theorem tagName?_interchange
    (hread : tagName? (front ++ rest) = some (name, front' ++ rest)) (hne : front' ≠ [])
    (rest' : List Char) : tagName? (front ++ rest') = some (name, front' ++ rest') := by
  obtain ⟨hname, hrest, hparts⟩ := tagName?_eq_some_iff.mp hread
  rw [← List.append_assoc] at hparts
  rw [append_cancel_right hparts, tagName?_eq_some_iff, List.append_assoc]
  rw [head?_append_of_ne_nil _ hne] at hrest ⊢
  exact ⟨hname, hrest, rfl⟩

/-- The same start tag, but for places and for the spelling of attributes. -/
structure StartTag.Alike (s s' : StartTag) : Prop where
  tag : s'.tag = s.tag
  attrs : ∃ r : Respelling, r.Spells s.attrs s'.attrs
  selfClosing : s'.selfClosing = s.selfClosing

theorem startTag?_interchange (h : Interchange rest rest') {tag : StartTag}
    (hread : startTag? c = some tag) (hc : c.rest = front ++ rest)
    (htag : tag.cursor.rest = front' ++ rest) (hc' : c'.rest = front ++ rest') :
    ∃ tag', startTag? c' = some tag' ∧ tag.Alike tag' ∧ tag'.cursor.rest = front' ++ rest' := by
  obtain ⟨cs, name, ahead, e, hrest, hname, he, rfl⟩ := startTag?_eq_some_iff.mp hread
  have hlt := he.length_lt
  have hpass := Cursor.Passes.tagName hrest hname
  obtain ⟨front₁, hne₁, hahead, rfl⟩ := border_of_passes hpass hc (by
    rw [show e.cursor.rest = front' ++ rest from htag, length_append] at hlt
    omega)
  obtain rfl : ahead = front₁ ++ rest := hahead
  obtain rfl : cs = name ++ front₁ ++ rest := by
    rw [hc] at hrest
    simpa using hrest.symm
  have hnamed' : (c'.past ('<' :: name) (front₁ ++ rest')).rest = front₁ ++ rest' := rfl
  obtain ⟨e', he', hattrs, hclosing, hcur⟩ := he.interchange h rfl htag hnamed'
  have hname' := tagName?_interchange hname hne₁ rest'
  refine ⟨_, startTag?_eq_some_iff.mpr ⟨name ++ front₁ ++ rest', name, front₁ ++ rest', e', ?_,
    hname', he', rfl⟩, ⟨rfl, ⟨none, hattrs, fun _ h => by cases h⟩, hclosing⟩, hcur⟩
  rw [hc']
  rfl

/-! ## Signals -/

/-- The same signal, but for places and for the spelling of attributes. -/
inductive Signal.Alike : Signal → Signal → Prop
  | opened {attrs attrs' : List Attr} (tag : String) (unary : Bool) (span span' : Span)
      (h : ∃ r : Respelling, r.Spells attrs attrs') :
      Alike (.event (.opened tag attrs unary span)) (.event (.opened tag attrs' unary span'))
  | closed (tag : String) (span span' : Span) :
      Alike (.event (.closed tag span)) (.event (.closed tag span'))
  | text (content : String) (span span' : Span) :
      Alike (.event (.text content span)) (.event (.text content span'))
  | comment (content : String) (span span' : Span) :
      Alike (.event (.comment content span)) (.event (.comment content span'))
  | warning (w : Warning) (span span' : Span) : Alike (.warning w span) (.warning w span')

def OpenTag.Alike (o o' : OpenTag) : Prop := o'.tag = o.tag

/-- The same signals and the same open tags, but for places and for the spelling of attributes. -/
def AlikeStacks (r r' : List Signal × List OpenTag) : Prop :=
  List.Forall₂ Signal.Alike r.1 r'.1 ∧ List.Forall₂ OpenTag.Alike r.2 r'.2

theorem spells_none (attrs : List Attr) : Respelling.Spells none attrs attrs :=
  ⟨forall₂_same.mpr fun _ _ => ⟨rfl, rfl⟩, fun _ h => by cases h⟩

theorem textSignals_alike (content : List Char) (start start' : Nat) :
    List.Forall₂ Signal.Alike (textSignals content start) (textSignals content start') := by
  exact rel_ite Iff.rfl .nil (.cons (.text ..) .nil)

variable {t : TagTable} {stack stack' : List OpenTag}

theorem OpenTag.Alike.key (h : o.Alike o') : o'.key = o.key := by
  unfold OpenTag.key
  rw [show o'.tag = o.tag from h]

theorem closeSignals_alike (h : o.Alike o') (missing : Bool) :
    List.Forall₂ Signal.Alike (closeSignals t span missing o)
      (closeSignals t span' missing o') := by
  unfold closeSignals
  rw [h.key, show o'.tag = o.tag from h]
  exact rel_append (rel_ite Iff.rfl (.cons (.warning ..) .nil) .nil) (.cons (.closed ..) .nil)

theorem unmatchedSignals_alike (name : String) :
    List.Forall₂ Signal.Alike (unmatchedSignals name span) (unmatchedSignals name span') := by
  have hopened (unary : Bool) : Signal.Alike (.event (.opened name [] unary span))
      (.event (.opened name [] unary span')) := .opened _ _ _ _ ⟨none, spells_none []⟩
  refine rel_ite Iff.rfl (.cons (hopened true) .nil) (rel_ite Iff.rfl ?_ ?_)
  · exact .cons (hopened false) (.cons (.closed ..) .nil)
  · exact .cons (.warning ..) .nil

section

variable (h : List.Forall₂ OpenTag.Alike stack stack')

include h

theorem span_alike (p : String → Bool) :
    List.Forall₂ OpenTag.Alike (stack.takeWhile fun o => p o.key)
        (stack'.takeWhile fun o => p o.key) ∧
      List.Forall₂ OpenTag.Alike (stack.dropWhile fun o => p o.key)
        (stack'.dropWhile fun o => p o.key) := by
  induction h with
  | nil => exact ⟨.nil, .nil⟩
  | @cons o o' stack stack' ho hrest ih =>
    simp only [takeWhile_cons, dropWhile_cons, ho.key]
    cases p o.key with
    | true => exact ⟨.cons ho ih.1, ih.2⟩
    | false => exact ⟨.nil, .cons ho hrest⟩

theorem closeTag_alike (name : String) (span span' : Span) :
    AlikeStacks (closeTag t name span stack) (closeTag t name span' stack') := by
  obtain ⟨hinner, houter⟩ := span_alike h fun key => key ≠ asciiLower name
  unfold closeTag
  generalize stack.dropWhile _ = outer, stack'.dropWhile _ = outer' at houter ⊢
  cases houter with
  | nil => exact ⟨unmatchedSignals_alike name, h⟩
  | cons htgt houter =>
    refine ⟨rel_append (rel_flatMap hinner fun _ _ ho => ?_) ?_, houter⟩
    · exact closeSignals_alike ho true
    · exact closeSignals_alike htgt false

theorem innermost?_alike : innermost? stack' = innermost? stack := by
  cases h with
  | nil => rfl
  | cons ho _ => exact congrArg some ho.key

theorem closeImplied_alike (name : String) (span span' : Span) :
    AlikeStacks (closeImplied t name span stack) (closeImplied t name span' stack') := by
  refine rel_ite Iff.rfl ⟨.nil, h⟩ ?_
  have hout : AlikeStacks (if innermost? stack = some "p" && t.isNonPhrasing (asciiLower name) then
        closeTag t "p" span stack else ([], stack))
      (if innermost? stack' = some "p" && t.isNonPhrasing (asciiLower name) then
        closeTag t "p" span' stack' else ([], stack')) := by
    refine rel_ite ?_ (closeTag_alike h "p" span span') ⟨.nil, h⟩
    rw [innermost?_alike h]
  refine rel_ite ?_ ?_ hout
  · rw [innermost?_alike hout.2]
  · have hclosed := closeTag_alike (t := t) hout.2 name span span'
    exact ⟨rel_append hout.1 hclosed.1, hclosed.2⟩

theorem openTag_alike {s s' : StartTag} (hs : s.Alike s') (span span' : Span) :
    AlikeStacks (openTag t s span stack) (openTag t s' span' stack') := by
  have himplied := closeImplied_alike (t := t) h s.tag span span'
  unfold openTag
  rw [hs.tag, hs.selfClosing]
  refine ⟨rel_append himplied.1 (.cons (.opened _ _ _ _ hs.attrs) .nil), ?_⟩
  exact rel_ite Iff.rfl himplied.2 (.cons rfl himplied.2)

end

/-! ## Borders between constructs -/

/-- A start tag may be ahead: a name follows its `<`, and there is a `>` later on. -/
def StartsTag (cs : List Char) : Prop :=
  ∃ x tail, cs = '<' :: x :: tail ∧ isNameStart x ∧ '>' ∈ tail

/-- Two ends of a source that cannot be told apart from before: both start with a tag, or there is
nothing there. -/
structure Border (rest rest' : List Char) : Prop extends Interchange rest rest' where
  shape : rest = [] ∧ rest' = [] ∨ StartsTag rest ∧ StartsTag rest'

theorem Border.nil : Border [] [] := ⟨.refl [], .inl ⟨rfl, rfl⟩⟩

theorem Border.symm (h : Border rest rest') : Border rest' rest :=
  ⟨⟨h.argument.symm, h.value.symm⟩, h.shape.imp And.symm And.symm⟩

theorem isPrefixOf_append_of_not_mem (h : '<' ∉ mark) :
    mark.isPrefixOf (front ++ '<' :: tail) = mark.isPrefixOf front := by
  induction mark generalizing front with
  | nil => simp
  | cons m mark ih =>
    rw [mem_cons, not_or] at h
    cases front with
    | nil => simp [isPrefixOf_cons_cons, Ne.symm h.1]
    | cons c front => simp [isPrefixOf_cons_cons, ih h.2]

/-- What starts before a border with a tag ends before it, unless it has another `<` in it. -/
theorem isPrefixOf_border (hmark : '<' ∉ mark.tail) (hne : front ≠ []) :
    mark.isPrefixOf (front ++ '<' :: tail') = mark.isPrefixOf (front ++ '<' :: tail) := by
  cases front with
  | nil => exact absurd rfl hne
  | cons c front =>
    cases mark with
    | nil => simp
    | cons m mark =>
      have hmark : '<' ∉ mark := hmark
      simp only [cons_append, isPrefixOf_cons_cons, isPrefixOf_append_of_not_mem hmark]

theorem Border.isPrefixOf (h : Border rest rest') (hne : front ≠ []) (hmark : '<' ∉ mark.tail) :
    mark.isPrefixOf (front ++ rest') = mark.isPrefixOf (front ++ rest) := by
  rcases h.shape with ⟨rfl, rfl⟩ | ⟨⟨x, tail, rfl, -, -⟩, ⟨x', tail', rfl, -, -⟩⟩
  · rfl
  · exact isPrefixOf_border hmark hne

theorem take_map_eq_iff : (cs.take 10).map Char.toLower = "<!doctype ".toList ↔
      "<!doctype ".toList.isPrefixOf (cs.map Char.toLower) := by
  rw [ isPrefixOf_iff_prefix, prefix_iff_eq_take, map_take, eq_comm]
  rfl

theorem Border.doctype (h : Border rest rest') (hne : front ≠ []) :
    ((front ++ rest').take 10).map Char.toLower = "<!doctype ".toList ↔
      ((front ++ rest).take 10).map Char.toLower = "<!doctype ".toList := by
  have hmark : '<' ∉ "<!doctype ".toList.tail := by decide
  have hless : Char.toLower '<' = '<' := by decide
  rw [take_map_eq_iff, take_map_eq_iff]
  rcases h.shape with ⟨rfl, rfl⟩ | ⟨⟨x, tail, rfl, -, -⟩, ⟨x', tail', rfl, -, -⟩⟩
  · exact Iff.rfl
  · have hne' : front.map Char.toLower ≠ [] := by simpa using hne
    simp only [map_append, map_cons, hless]
    rw [isPrefixOf_border hmark hne']

theorem cut?_border {before : List Char}
    (h : cut? mark (front ++ rest) = some (before, after)) (hlen : rest.length ≤ after.length)
    (rest' : List Char) :
    ∃ front', after = front' ++ rest ∧
      cut? mark (front ++ rest') = some (before, front' ++ rest') := by
  have hparts := append_eq_of_cut? h
  obtain ⟨front', rfl, rfl⟩ := border_of_append hparts hlen
  refine ⟨front', rfl, ?_⟩
  rw [List.append_assoc _ front']
  exact cut?_mark h (front' ++ rest')

theorem endTag?_border {gap : List Char}
    (h : endTag? (front ++ rest) = some (name, gap, after)) (hlen : rest.length ≤ after.length)
    (rest' : List Char) :
    ∃ front', after = front' ++ rest ∧
      endTag? (front ++ rest') = some (name, gap, front' ++ rest') := by
  obtain ⟨hname, hhead, hgap, hparts⟩ := endTag?_eq_some_iff.mp h
  have hparts' : ('<' :: '/' :: name ++ gap ++ ['>']) ++ after = front ++ rest := by simp [hparts]
  obtain ⟨front', rfl, rfl⟩ := border_of_append hparts' hlen
  exact ⟨front', rfl, endTag?_eq_some_iff.mpr ⟨hname, hhead, hgap, by simp⟩⟩

theorem isSome_endTag?_iff : (endTag? cs).isSome ↔
      ∃ x tail, cs = '<' :: '/' :: x :: tail ∧ isNameStart x ∧ '>' ∈ tail := by
  constructor
  · intro h
    obtain ⟨⟨name, gap, after⟩, hend⟩ := isSome_iff_exists.mp h
    obtain ⟨⟨hhead, -⟩, -, -, hparts⟩ := endTag?_eq_some_iff.mp hend
    cases name with
    | nil => cases hhead
    | cons x name =>
      refine ⟨x, name ++ gap ++ '>' :: after, by simp [hparts], ?_, by simp⟩
      simpa using hhead
  · rintro ⟨x, tail, rfl, hx, hmem⟩
    have hlater : '>' ∈ tail.dropWhile isNameChar := by
      rw [← takeWhile_append_dropWhile (l := tail), mem_append] at hmem
      exact hmem.resolve_left fun h => absurd (mem_takeWhile_imp h) (by decide)
    unfold endTag? tagName?
    simp only [hx, if_true, isSome_map]
    cases hcut : cut? ['>'] (tail.dropWhile isNameChar) with
    | none => exact absurd hlater (not_mem_of_cut?_eq_none hcut)
    | some p => rfl

theorem isSome_endTag?_border (hrest : StartsTag rest) (hrest' : StartsTag rest')
    (hne : front ≠ []) (h : (endTag? (front ++ rest)).isSome) :
    (endTag? (front ++ rest')).isSome := by
  rw [isSome_endTag?_iff] at h ⊢
  obtain ⟨x, tail, hcs, hx, -⟩ := h
  obtain ⟨y, later, rfl, -, -⟩ := hrest
  obtain ⟨y', later', rfl, -, hmem'⟩ := hrest'
  match front, hne, hcs with
  | [a], _, hcs => simp at hcs
  | [a, b], _, hcs =>
    simp only [cons_append, nil_append, List.cons.injEq] at hcs
    rw [← hcs.2.2.1] at hx
    exact absurd hx (by decide)
  | a :: b :: d :: front, _, hcs =>
    simp only [cons_append, List.cons.injEq] at hcs
    obtain ⟨rfl, rfl, rfl, -⟩ := hcs
    exact ⟨d, _, rfl, hx, by simp [hmem']⟩

theorem startsMarkup_border (hrest : StartsTag rest) (hrest' : StartsTag rest') (hne : front ≠ []) :
    startsMarkup (front ++ rest') = startsMarkup (front ++ rest) := by
  have hbord (mark : List Char) (hmark : '<' ∉ mark.tail) :
      mark.isPrefixOf (front ++ rest') = mark.isPrefixOf (front ++ rest) := by
    obtain ⟨x, tail, rfl, -, -⟩ := hrest
    obtain ⟨x', tail', rfl, -, -⟩ := hrest'
    exact isPrefixOf_border hmark hne
  have hend : (endTag? (front ++ rest')).isSome = (endTag? (front ++ rest)).isSome :=
    Bool.eq_iff_iff.mpr ⟨isSome_endTag?_border hrest' hrest hne,
      isSome_endTag?_border hrest hrest' hne⟩
  have hname : (front ++ rest').tail.head?.any isNameStart =
      (front ++ rest).tail.head?.any isNameStart := by
    obtain ⟨x, tail, rfl, -, -⟩ := hrest
    obtain ⟨x', tail', rfl, -, -⟩ := hrest'
    match front, hne with
    | [a], _ => rfl
    | a :: b :: front, _ => rfl
  unfold startsMarkup
  rw [hbord _ (by decide), hbord _ (by decide), hend, hname]

theorem textRun_startsTag (hrest : StartsTag rest) : textRun rest = ([], rest) := by
  obtain ⟨x, tail, rfl, hx, -⟩ := hrest
  unfold textRun
  rw [if_pos ⟨rfl, by simp [startsMarkup, hx]⟩]

/-- Text before a tag ends where it ends before another tag. -/
theorem textRun_border (hrest : StartsTag rest) (hrest' : StartsTag rest') (front : List Char) :
    ∃ taken front', textRun (front ++ rest) = (taken, front' ++ rest) ∧
      textRun (front ++ rest') = (taken, front' ++ rest') := by
  induction front with
  | nil => exact ⟨[], [], textRun_startsTag hrest, textRun_startsTag hrest'⟩
  | cons c front ih =>
    have hmarkup := startsMarkup_border hrest hrest' (cons_ne_nil c front)
    obtain ⟨taken, front', hrun, hrun'⟩ := ih
    rw [cons_append, cons_append] at hmarkup ⊢
    unfold textRun
    rw [hmarkup]
    split
    · exact ⟨[], c :: front, rfl, rfl⟩
    · rw [hrun, hrun']
      exact ⟨c :: taken, front', rfl, rfl⟩

/-! ## Steps of the scanner -/

theorem rawEnd?_border (htag : IsTagName tag) {content ended : List Char}
    (h : rawEnd? tag (front ++ rest) = some (content, ended, after))
    (hlen : rest.length ≤ after.length) (rest' : List Char) :
    ∃ front', after = front' ++ rest ∧
      rawEnd? tag (front ++ rest') = some (content, ended, front' ++ rest') := by
  obtain ⟨name, gap, hname, hgap, rfl, hparts, hfirst⟩ := (Scanner.rawEnd?_eq_some_iff htag).mp h
  obtain ⟨front', rfl, rfl⟩ := border_of_append ((List.append_assoc ..).trans hparts) hlen
  exact ⟨front', rfl, (Scanner.rawEnd?_eq_some_iff htag).mpr
    ⟨name, gap, hname, hgap, rfl, by simp, hfirst⟩⟩

namespace Scanner

variable {comments : Bool} {s s' : Scanner} {r : List Signal × Scanner}

/-- Scanners that have the same text ahead up to two ends of it, in the same open tags. -/
structure Beside (rest rest' : List Char) (s s' : Scanner) : Prop where
  stack : List.Forall₂ OpenTag.Alike s.stack s'.stack
  text : ∃ front, s.cursor.rest = front ++ rest ∧ s'.cursor.rest = front ++ rest'

def StepsBeside (rest rest' : List Char) (r r' : List Signal × Scanner) : Prop :=
  List.Forall₂ Signal.Alike r.1 r'.1 ∧ r.2.Beside rest rest' r'.2

/-- What is read before a border is read there whatever is behind it. -/
def ReadsBeside (rest rest' : List Char) (x x' : Option (List Signal × Scanner)) : Prop :=
  ∀ r, x = some r → rest.length ≤ r.2.cursor.rest.length →
    ∃ r', x' = some r' ∧ StepsBeside rest rest' r r'

theorem cut?_beside (h : s.Beside rest rest' s')
    {f f' : List Char × List Char → List Signal × Scanner} (hf : ∀ p, (f p).2.cursor.rest = p.2)
    (hsteps : ∀ before front',
      StepsBeside rest rest' (f (before, front' ++ rest)) (f' (before, front' ++ rest'))) :
    ReadsBeside rest rest' ((cut? mark s.cursor.rest).map f)
      ((cut? mark s'.cursor.rest).map f') := by
  obtain ⟨-, front, hs, hs'⟩ := h
  intro r hread hlen
  obtain ⟨⟨before, after⟩, hcut, rfl⟩ := map_eq_some_iff.mp hread
  rw [hs] at hcut
  rw [hf] at hlen
  obtain ⟨front', rfl, hcut'⟩ := cut?_border hcut hlen rest'
  rw [hs', hcut']
  exact ⟨_, rfl, hsteps before front'⟩

theorem skipTo?_beside (h : s.Beside rest rest' s') :
    ReadsBeside rest rest' (s.skipTo? mark) (s'.skipTo? mark) :=
  cut?_beside h (fun _ => rfl) fun _ front' => ⟨.nil, h.stack, front', rfl, rfl⟩

theorem end?_beside (h : s.Beside rest rest' s') :
    ReadsBeside rest rest' (s.end? t) (s'.end? t) := by
  obtain ⟨hstk, front, hs, hs'⟩ := h
  intro r hread hlen
  obtain ⟨⟨name, gap, after⟩, hend, rfl⟩ := map_eq_some_iff.mp hread
  rw [hs] at hend
  obtain ⟨front', rfl, hend'⟩ := endTag?_border hend hlen rest'
  unfold end?
  rw [hs', hend']
  obtain ⟨hsigs, hclosed⟩ := closeTag_alike hstk (String.ofList name) _ _
  exact ⟨_, rfl, hsigs, hclosed, front', rfl, rfl⟩

theorem start?_beside (hbord : Border rest rest') (h : s.Beside rest rest' s') :
    ReadsBeside rest rest' (s.start? t) (s'.start? t) := by
  obtain ⟨hstk, front, hs, hs'⟩ := h
  intro r hread hlen
  obtain ⟨tag, htag, rfl⟩ := map_eq_some_iff.mp hread
  obtain ⟨-, body, -, hpass⟩ := text_of_startTag? htag
  have htaken : rest.length ≤ tag.cursor.rest.length := by
    refine Nat.le_trans hlen ?_
    split
    · next tail htail =>
      split
      · simp [Cursor.past, htail]
      · exact Nat.le_refl _
    · exact Nat.le_refl _
  obtain ⟨front', hcur, -⟩ := border_of_append (hpass.rest.symm.trans hs) htaken
  obtain ⟨tag', htag', hsame, hcur'⟩ :=
    startTag?_interchange hbord.toInterchange htag hs hcur hs'
  unfold start?
  rw [htag']
  obtain ⟨hsigs, hopened⟩ := openTag_alike hstk hsame
    ⟨s.cursor.offset, tag.cursor.offset⟩ ⟨s'.cursor.offset, tag'.cursor.offset⟩
  refine ⟨_, rfl, hsigs, hopened, ?_⟩
  dsimp only
  rw [hcur, hcur', hsame.tag]
  -- a newline that is skipped stands before the border, since no tag starts with one
  cases front' with
  | nil =>
    rcases hbord.shape with ⟨rfl, rfl⟩ | ⟨⟨x, tail, rfl, -, -⟩, ⟨x', tail', rfl, -, -⟩⟩
    · exact ⟨[], hcur, hcur'⟩
    · exact ⟨[], hcur, hcur'⟩
  | cons d front' =>
    by_cases hd : d = '\n'
    · subst hd
      simp only [cons_append]
      split
      · exact ⟨front', rfl, rfl⟩
      · exact ⟨'\n' :: front', hcur, hcur'⟩
    · refine ⟨d :: front', ?_, ?_⟩
      · split
        · next heq => exact absurd (List.cons.inj heq).1 hd
        · exact hcur
      · split
        · next heq => exact absurd (List.cons.inj heq).1 hd
        · exact hcur'

theorem construct?_beside (hbord : Border rest rest') (h : s.Beside rest rest' s')
    (hmore : rest.length < s.cursor.rest.length) :
    ReadsBeside rest rest' (s.construct? t comments) (s'.construct? t comments) := by
  obtain ⟨front, hs, hs'⟩ := h.text
  have hne : front ≠ [] := by
    rintro rfl
    simp [hs] at hmore
  have hstarts (mark : List Char) (hmark : '<' ∉ mark.tail) :
      mark.isPrefixOf s'.cursor.rest = mark.isPrefixOf s.cursor.rest := by
    rw [hs, hs']
    exact hbord.isPrefixOf hne hmark
  have hdoctype := hbord.doctype hne
  have hhead : s'.cursor.rest.head? = s.cursor.rest.head? := by
    rw [hs, hs', head?_append_of_ne_nil _ hne, head?_append_of_ne_nil _ hne]
  rw [← hs, ← hs'] at hdoctype
  have hcom : ReadsBeside rest rest' (s.comment? comments) (s'.comment? comments) :=
    cut?_beside h (fun _ => rfl) fun _ front' =>
      ⟨rel_ite Iff.rfl (.cons (.comment ..) .nil) .nil, h.stack, front', rfl, rfl⟩
  have hcdata : ReadsBeside rest rest' s.cdata? s'.cdata? :=
    cut?_beside h (fun _ => rfl) fun _ front' =>
      ⟨textSignals_alike _ _ _, h.stack, front', rfl, rfl⟩
  unfold construct?
  dsimp only
  rw [hstarts _ (by decide), hstarts _ (by decide), hstarts _ (by decide), hstarts _ (by decide),
    hhead]
  refine rel_ite Iff.rfl hcom (rel_ite Iff.rfl hcdata ?_)
  refine rel_ite Iff.rfl (skipTo?_beside h) (rel_ite hdoctype (skipTo?_beside h) ?_)
  exact rel_ite Iff.rfl (end?_beside h) (rel_ite Iff.rfl (start?_beside hbord h) nofun)

theorem Beside.symm (h : s.Beside rest rest' s') : s'.Beside rest' rest s := by
  obtain ⟨hstk, front, hs, hs'⟩ := h
  exact ⟨hstk.flip.imp fun _ _ ho => Eq.symm ho, front, hs', hs⟩

/-- If text is read and it is not all that is left, no construct starts here. -/
theorem startsMarkup_of_text (hleft : s.text.2.cursor.rest ≠ [])
    (hrest : s.cursor.rest = '<' :: tail) : startsMarkup s.cursor.rest = false := by
  unfold text at hleft
  dsimp only at hleft
  split at hleft
  · exact absurd rfl hleft
  · next hrun =>
    rw [hrest] at hrun ⊢
    by_contra hmarkup
    refine hrun ?_
    unfold textRun
    rw [if_pos ⟨rfl, by simpa using hmarkup⟩]
    rfl

/-- Before a tag, a construct that cannot be read is one whatever the tag is. -/
theorem construct?_eq_none_beside (hbord : Border rest rest') (h : s.Beside rest rest' s')
    (hmore : rest.length < s.cursor.rest.length) (hnone : s.construct? t comments = none)
    (hlen : rest.length ≤ s.text.2.cursor.rest.length) : s'.construct? t comments = none := by
  obtain ⟨front, hs, hs'⟩ := h.text
  have hne : front ≠ [] := by
    rintro rfl
    simp [hs] at hmore
  rcases hbord.shape with ⟨rfl, rfl⟩ | ⟨hrest, hrest'⟩
  · cases hread : s'.construct? t comments with
    | none => rfl
    | some r =>
      have hmore' : 0 < s'.cursor.rest.length := by rw [hs', ← hs]; exact hmore
      obtain ⟨r', hread', -⟩ :=
        construct?_beside hbord.symm h.symm hmore' r hread (Nat.zero_le _)
      rw [hread'] at hnone
      cases hnone
  · have hleft : s.text.2.cursor.rest ≠ [] := by
      obtain ⟨x, tail, rfl, -, -⟩ := hrest
      intro hnil
      simp [hnil] at hlen
    have hmem : '>' ∈ rest := by
      obtain ⟨x, tail, rfl, -, hmem⟩ := hrest
      simp [hmem]
    have hhead : s'.cursor.rest.head? = s.cursor.rest.head? := by
      rw [hs, hs', head?_append_of_ne_nil _ hne, head?_append_of_ne_nil _ hne]
    by_cases hopen : s.cursor.rest.head? = some '<'
    · obtain ⟨tail, htail⟩ := head?_eq_some_iff.mp hopen
      obtain ⟨tail', htail'⟩ := head?_eq_some_iff.mp (hhead.trans hopen)
      have hmarkup := startsMarkup_of_text hleft htail
      have hmarkup' : startsMarkup s'.cursor.rest = false := by
        rw [hs', startsMarkup_border hrest hrest' hne, ← hs, hmarkup]
      rw [construct?_of_not_startsMarkup htail hmarkup] at hnone
      rw [construct?_of_not_startsMarkup htail' hmarkup', hs']
      simp only [hbord.doctype hne, ← hs]
      split at hnone
      · -- a doctype would end at the `>` of the tag at the latest
        have hcut := map_eq_none_iff.mp hnone
        exact absurd (by rw [hs]; simp [hmem]) (not_mem_of_cut?_eq_none hcut)
      · next hdoctype => rw [if_neg hdoctype]
    · exact construct?_eq_none_of_head (hhead ▸ hopen)

theorem text_beside (hbord : Border rest rest') (h : s.Beside rest rest' s')
    (hlen : rest.length ≤ s.text.2.cursor.rest.length) :
    StepsBeside rest rest' s.text s'.text := by
  obtain ⟨hstk, front, hs, hs'⟩ := h
  rcases hbord.shape with ⟨rfl, rfl⟩ | ⟨hrest, hrest'⟩
  · have hsame : s'.cursor.rest = s.cursor.rest := by rw [hs, hs']
    unfold text
    rw [hsame]
    refine rel_ite Iff.rfl ⟨?_, hstk, [], rfl, rfl⟩
      ⟨textSignals_alike _ _ _, hstk, (textRun s.cursor.rest).2, ?_⟩
    · exact rel_append (textSignals_alike _ _ _) (.cons (.warning ..) .nil)
    · simp [Cursor.past]
  · obtain ⟨taken, front', hrun, hrun'⟩ := textRun_border hrest hrest' front
    have hpos : 0 < rest.length := by
      obtain ⟨x, tail, rfl, -, -⟩ := hrest
      simp
    unfold text at hlen ⊢
    dsimp only at hlen ⊢
    rw [hs, hrun] at hlen ⊢
    rw [hs', hrun']
    split at hlen
    · exact absurd hlen (Nat.not_le.mpr hpos)
    · next htaken =>
      rw [if_neg htaken, if_neg htaken]
      exact ⟨textSignals_alike _ _ _, hstk, front', rfl, rfl⟩

theorem rawTag?_beside (h : s.Beside rest rest' s') : s'.rawTag? t = s.rawTag? t := by
  have hstk := h.stack
  unfold rawTag?
  generalize s.stack = stack, s'.stack = stack' at hstk ⊢
  cases hstk with
  | nil => rfl
  | @cons o o' _ _ ho _ =>
    simp only [head?_cons, filter_some, ho.key]
    split
    · exact congrArg some ho
    · rfl

theorem rawText_beside (hbord : Border rest rest') (h : s.Beside rest rest' s')
    (htag : IsTagName tag) (hlen : rest.length ≤ (s.rawText t tag).2.cursor.rest.length) :
    StepsBeside rest rest' (s.rawText t tag) (s'.rawText t tag) := by
  obtain ⟨hstk, front, hs, hs'⟩ := h
  rw [rest_rawText, hs] at hlen
  -- without an end tag all that is left is taken, so nothing is behind the border
  have hends : ∃ content ended front',
      (rawEnd? tag s.cursor.rest).getD (s.cursor.rest, [], []) = (content, ended, front' ++ rest) ∧
      (rawEnd? tag s'.cursor.rest).getD (s'.cursor.rest, [], []) =
        (content, ended, front' ++ rest') := by
    rw [hs, hs']
    cases hend : rawEnd? tag (front ++ rest) with
    | none =>
      rw [hend] at hlen
      obtain rfl : rest = [] := length_eq_zero_iff.mp (Nat.le_zero.mp hlen)
      obtain rfl : rest' = [] := by
        rcases hbord.shape with h | ⟨⟨x, tail, hnil, -, -⟩, -⟩
        · exact h.2
        · cases hnil
      rw [hend]
      exact ⟨_, _, [], rfl, rfl⟩
    | some p =>
      obtain ⟨content, ended, after⟩ := p
      rw [hend] at hlen
      obtain ⟨front', rfl, hend'⟩ := rawEnd?_border htag hend hlen rest'
      exact ⟨content, ended, front', rfl, by rw [hend']; rfl⟩
  obtain ⟨content, ended, front', hend, hend'⟩ := hends
  unfold rawText
  rw [hend, hend']
  dsimp only
  generalize (if dropsNewline tag && content.head? = some '\n' then ['\n'] else []) = skipped
  have htext := textSignals_alike (content.drop skipped.length)
    (s.cursor.offset + byteLength skipped) (s'.cursor.offset + byteLength skipped)
  split
  · exact ⟨htext, hstk, front', rfl, rfl⟩
  · obtain ⟨hsigs, hclosed⟩ := closeTag_alike hstk tag _ _
    exact ⟨rel_append htext hsigs, hclosed, front', rfl, rfl⟩

/-- A step that stays before the border does the same whatever is behind it. -/
theorem step_beside (hbord : Border rest rest') (hsound : SoundTags t s.stack)
    (h : s.Beside rest rest' s') (hmore : rest.length < s.cursor.rest.length)
    (hlen : rest.length ≤ (s.step t comments).2.cursor.rest.length) :
    StepsBeside rest rest' (s.step t comments) (s'.step t comments) := by
  unfold step at hlen ⊢
  rw [rawTag?_beside h]
  cases hraw : s.rawTag? t with
  | some tag =>
    rw [hraw] at hlen
    obtain ⟨o, outer, hstk, rfl, -⟩ := exists_of_rawTag? hraw
    rw [hstk] at hsound
    exact rawText_beside hbord h hsound.1 hlen
  | none =>
    rw [hraw] at hlen
    cases hread : s.construct? t comments with
    | some r =>
      rw [hread] at hlen
      obtain ⟨r', hread', hsteps⟩ := construct?_beside hbord h hmore r hread hlen
      rw [hread']
      exact hsteps
    | none =>
      rw [hread] at hlen
      rw [construct?_eq_none_beside hbord h hmore hread hlen]
      exact text_beside hbord h hlen

theorem run_beside (comments : Bool) (hsound : SoundTags t s.stack)
    (h : s.Beside [] [] s') : List.Forall₂ Signal.Alike (run t comments s) (run t comments s') := by
  induction hn : s.cursor.rest.length using Nat.strongRecOn generalizing s s' with
  | _ n ih =>
  obtain ⟨front, hs, hs'⟩ := h.text
  have hsame : s'.cursor.rest = s.cursor.rest := by rw [hs, hs']
  rw [run.eq_def t comments s, run.eq_def t comments s', hsame]
  by_cases hend : s.cursor.rest = []
  · rw [dif_pos hend, dif_pos hend]
    exact rel_flatMap h.stack fun _ _ ho => closeSignals_alike ho true
  · rw [dif_neg hend, dif_neg hend]
    obtain ⟨hsigs, hnext⟩ := step_beside .nil hsound h
      (length_pos_iff.mpr hend) (Nat.zero_le _)
    obtain ⟨taken, htaken⟩ : ∃ taken, Reads t comments s taken (s.step t comments) :=
      reads_step hsound hend
    refine rel_append hsigs (ih _ ?_ htaken.stack hnext rfl)
    rw [← hn]
    exact length_step_lt t comments s hend

end Scanner

end Markup

end TemplateCompiler
