import TemplateCompiler.Proofs.SlicedTexts
import TemplateCompiler.Proofs.TagGrammar

/-!
# Reading tags by byte offsets

Start tags and end tags read with offsets into the source. A cursor stands at its offset if what it
has ahead is the slice of the source from there on (`Cursor.At`). Readers move a cursor past what
they take, which keeps it at its offset; and at such a cursor the readers with offsets give what the
readers with cursors give.
-/

namespace TemplateCompiler

open Text Markup Option

variable {taken text before cs : List Char} {c' : Cursor}

/-! ## Cursors at their offset -/

namespace Markup.Cursor

def At (source : List Char) (c : Cursor) : Prop := sliceFrom? source c.offset = some c.rest

variable {source : List Char} {c : Cursor}

theorem At.slice (h : c.At source) : sliceFrom? source c.offset = some c.rest := h

theorem At.passes (h : c.At source) (hpass : c.Passes taken c') : c'.At source := by
  obtain ⟨before, hsrc, hoff⟩ := sliceFrom?_eq_some_iff.mp h
  have hparts : source = (before ++ taken) ++ c'.rest := by
    rw [hsrc, hpass.rest, List.append_assoc]
  exact sliceFrom?_of_eq hparts (by rw [byteLength_append, hoff, hpass.offset])

theorem At.past (h : c.At source) {rest : List Char} (hrest : taken ++ rest = c.rest) :
    (c.past taken rest).At source := h.passes (.past hrest.symm)

theorem At.skipBlank (h : c.At source) : c.skipBlank.At source :=
  h.past List.takeWhile_append_dropWhile

theorem At.byteLength_eq (h : c.At source) : byteLength source = c.offset + byteLength c.rest :=
  byteLength_of_sliceFrom? h

theorem At.offset_lt (h : c.At source) (h' : c'.At source)
    (hlt : c'.rest.length < c.rest.length) : c.offset < c'.offset := by
  obtain ⟨before, hsrc, hoff⟩ := sliceFrom?_eq_some_iff.mp h
  obtain ⟨before', hsrc', hoff'⟩ := sliceFrom?_eq_some_iff.mp h'
  rw [hsrc, List.append_eq_append_iff] at hsrc'
  rcases hsrc' with ⟨taken, hbef, hrest⟩ | ⟨extra, -, hrest⟩
  · have htaken : taken ≠ [] := by
      rintro rfl
      rw [hrest] at hlt
      exact Nat.lt_irrefl _ hlt
    have hpos := byteLength_pos htaken
    rw [← hoff', hbef, byteLength_append]
    omega
  · rw [hrest, List.length_append] at hlt
    omega

def ofOffset (source : List Char) (offset : Nat) : Cursor :=
  ⟨offset, (sliceFrom? source offset).getD []⟩

theorem At.ofOffset_eq (h : c.At source) : ofOffset source c.offset = c := by
  rw [ofOffset, h]
  rfl

end Markup.Cursor

namespace Sliced

/-! ## Attributes -/

def skipBlank (source : List Char) (offset : Nat) : Option Nat := do
  let rest ← sliceFrom? source offset
  return byteLength source - byteLength (trimStart rest)

/-- Takes a bracketed argument or a character of an attribute name. The state is how many bytes of
the name have been read. -/
def attrNameTurn (text : List Char) (i : Nat) : Option (Nat ⊕ Nat) := do
  let ahead ← sliceFrom? text i
  match ahead with
  | [] => return .inr i
  | c :: _ =>
    let plain : Nat ⊕ Nat := if isAttrNameChar c then .inl (i + c.utf8Size) else .inr i
    match if c = '[' then find? [']'] ahead else none with
    | some close =>
      let inner ← slice? text i (i + close)
      return if inner.contains '=' then plain else .inl (i + close + 1)
    | none => return plain

/-- How many bytes the attribute name at the start of a text takes. -/
def attrNameLength (text : List Char) : Option Nat :=
  loop? (fun i => byteLength text - i) (attrNameTurn text) 0

/-- Reads an attribute value: its text and the offset behind it. -/
def attrValue (source : List Char) (offset : Nat) : Option (Option (List Char × Nat)) := do
  let rest ← sliceFrom? source offset
  match rest with
  | [] => return none
  | q :: _ =>
    if q = '"' ∨ q = '\'' then
      let inside ← sliceFrom? rest 1
      match find? [q] inside with
      | none => return none
      | some close =>
        let value ← slice? rest 1 (close + 1)
        return some (value, offset + (close + 2))
    else
      let length := byteLength (rest.takeWhile isBareValueChar)
      if length = 0 then return none
      else
        let value ← sliceTo? rest length
        return some (value, offset + length)

def attr (source : List Char) (offset : Nat) : Option (Option (Attr × Nat)) := do
  let rest ← sliceFrom? source offset
  let length ← attrNameLength rest
  if length = 0 then return none
  else
    let name ← sliceTo? rest length
    let named := offset + length
    let equals ← skipBlank source named
    match ← sliceFrom? source equals with
    | '=' :: _ =>
      let start ← skipBlank source (equals + 1)
      match ← attrValue source start with
      | none => return none
      | some (raw, stop) =>
        let value ← decode raw
        return some ({
          name := String.ofList name, value := String.ofList value, span := ⟨offset, stop⟩ }, stop)
    | _ =>
      return some ({ name := String.ofList name, value := "", span := ⟨offset, named⟩ }, named)

variable {source : List Char} {c : Cursor}

theorem skipBlank_eq (h : c.At source) : skipBlank source c.offset = some c.skipBlank.offset := by
  have hlen' := h.skipBlank.byteLength_eq
  unfold skipBlank
  rw [h]
  refine congrArg some ?_
  show byteLength source - byteLength c.skipBlank.rest = c.skipBlank.offset
  omega

theorem find?_argument {inner after : List Char} (h : text = before ++ '[' :: cs)
    (hcut : cut? [']'] cs = some (inner, after)) :
    find? [']'] ('[' :: cs) = some (1 + byteLength inner) ∧
      slice? text (byteLength before) (byteLength before + (1 + byteLength inner)) =
        some ('[' :: inner) := by
  have hparts : text = before ++ (('[' :: inner) ++ ']' :: after) := by
    rw [h, ← append_eq_of_cut? hcut]
    simp
  refine ⟨?_, slice?_of_eq hparts rfl rfl⟩
  rw [find?_cons_of_ne (by decide), find?_of_cut? hcut]
  rfl

theorem attrNameTurn_argument {inner after : List Char}
    (h : text = before ++ '[' :: cs) (harg : bracketed? cs = some (inner, after)) :
    attrNameTurn text (byteLength before) =
      some (.inl (byteLength before + (1 + byteLength inner) + 1)) := by
  obtain ⟨hcut, hplain⟩ := filter_eq_some_iff.mp harg
  obtain ⟨hclose, hinner⟩ := find?_argument h hcut
  have hequals : ('[' :: inner).contains '=' = false := by simpa using hplain
  unfold attrNameTurn
  simp only [sliceFrom?_of_eq h rfl, bind_eq_bind, bind_some, if_true, hclose, hinner, hequals]
  rfl

theorem attrNameTurn_plain {c : Char}
    (h : text = before ++ c :: cs) (harg : c = '[' → bracketed? cs = none) :
    attrNameTurn text (byteLength before) =
      some (if isAttrNameChar c then .inl (byteLength before + c.utf8Size)
        else .inr (byteLength before)) := by
  unfold attrNameTurn
  simp only [sliceFrom?_of_eq h rfl, bind_eq_bind, bind_some]
  by_cases hc : c = '['
  · subst hc
    have hbracketed : bracketed? cs = none := harg rfl
    rw [if_pos rfl]
    cases hcut : cut? [']'] cs with
    | none =>
      rw [find?_cons_of_ne (by decide), find?, hcut]
      rfl
    | some p =>
      obtain ⟨hclose, hinner⟩ := find?_argument h hcut
      have hequals : ('[' :: p.1).contains '=' := by
        rw [bracketed?, hcut] at hbracketed
        simpa using hbracketed
      rw [hclose]
      dsimp only
      rw [hinner, bind_some, if_pos hequals]
      rfl
  · rw [if_neg hc]
    rfl

theorem attrNameLength_eq : attrNameLength text = some (byteLength (attrName text).1) := by
  have hstart : byteLength (attrName text).1 =
      0 + byteLength (attrName ((sliceFrom? text 0).getD [])).1 := by
    rw [sliceFrom?_zero, Nat.zero_add]
    rfl
  rw [hstart]
  -- what has been read and the name ahead are the name as a whole
  refine loop?_eq_some (fun i => (sliceFrom? text i).isSome)
    (fun i => i + byteLength (attrName ((sliceFrom? text i).getD [])).1) (fun i hi => ?_)
    (by rw [sliceFrom?_zero]; rfl)
  obtain ⟨ahead, hahead⟩ := isSome_iff_exists.mp hi
  obtain ⟨before, htext, rfl⟩ := sliceFrom?_eq_some_iff.mp hahead
  rw [hahead, getD_some]
  cases ahead with
  | nil =>
    left
    unfold attrNameTurn
    rw [hahead, attrName]
    rfl
  | cons c cs =>
    by_cases harg : c = '[' ∧ (bracketed? cs).isSome
    · right
      obtain ⟨rfl, hsome⟩ := harg
      obtain ⟨⟨inner, after⟩, harg⟩ := isSome_iff_exists.mp hsome
      have hparts : text = (before ++ '[' :: (inner ++ [']'])) ++ after := by
        rw [htext, ← append_eq_of_cut? (eq_some_of_filter_eq_some harg)]
        simp
      have hafter : sliceFrom? text (byteLength before + (1 + byteLength inner) + 1) =
          some after := sliceFrom?_of_eq hparts (by simp [Nat.add_assoc]; rfl)
      have hlen := byteLength_of_sliceFrom? hafter
      refine ⟨_, attrNameTurn_argument htext harg, ?_, by rw [hafter]; rfl, ?_⟩
      · omega
      · rw [hafter, attrName_argument harg]
        simp [Nat.add_assoc]
        rfl
    · have hplain : c = '[' → bracketed? cs = none := fun hc =>
        not_isSome_iff_eq_none.mp fun hs => harg ⟨hc, hs⟩
      rw [attrNameTurn_plain htext hplain, attrName_cons hplain]
      split
      · right
        have hparts : text = (before ++ [c]) ++ cs := by
          rw [htext]
          simp
        have hafter : sliceFrom? text (byteLength before + c.utf8Size) = some cs :=
          sliceFrom?_of_eq hparts (by simp)
        have hlen := byteLength_of_sliceFrom? hafter
        have hpos := c.utf8Size_pos
        refine ⟨_, rfl, ?_, by rw [hafter]; rfl, ?_⟩
        · omega
        · rw [hafter, getD_some, byteLength_cons, Nat.add_assoc]
      · exact .inl rfl

theorem attrValue_eq (h : c.At source) :
    attrValue source c.offset = some ((attrValue? c).map fun p => (p.1, p.2.offset)) := by
  unfold attrValue attrValue?
  simp only [h.slice, bind_eq_bind, bind_some]
  cases hrest : c.rest with
  | nil => rfl
  | cons q rest =>
    dsimp only
    split
    · next hq =>
      have hsize : q.utf8Size = 1 := by rcases hq with rfl | rfl <;> rfl
      have hinside : sliceFrom? (q :: rest) 1 = some rest := hsize ▸ sliceFrom?_cons q rest
      simp only [hinside, bind_some, find?]
      cases hcut : cut? [q] rest with
      | none => rfl
      | some p =>
        obtain ⟨value, after⟩ := p
        have hparts : q :: rest = [q] ++ (value ++ (q :: after)) := by
          rw [← append_eq_of_cut? hcut]
          simp
        have hval : slice? (q :: rest) 1 (byteLength value + 1) = some value :=
          slice?_of_eq hparts (by simp [hsize]) (Nat.add_comm _ _)
        simp only [map_some, hval, bind_some]
        simp [Cursor.past, hsize]
        omega
    · have hparts := (List.takeWhile_append_dropWhile (p := isBareValueChar) (l := q :: rest)).symm
      have hval := sliceTo?_of_eq hparts rfl
      simp only [Cursor.takeWhile, Cursor.past, hrest, hval, bind_some,
        byteLength_eq_zero_iff, List.isEmpty_iff]
      split <;> rfl

theorem attr_eq (h : c.At source) :
    attr source c.offset = some ((attribute? c).map fun p => (p.1, p.2.offset)) := by
  have hname := attrName_append c.rest
  have hnamed := h.past hname
  unfold attr attribute?
  simp only [h.slice, attrNameLength_eq,
    sliceTo?_of_eq hname.symm rfl, bind_eq_bind, bind_some, byteLength_eq_zero_iff,
    List.isEmpty_iff]
  generalize attrName c.rest = p at hnamed ⊢
  obtain ⟨name, after⟩ := p
  split
  · rfl
  · have hblank := hnamed.skipBlank
    have hskip : skipBlank source (c.offset + byteLength name) = _ := skipBlank_eq hnamed
    simp only [hskip, hblank.slice, bind_some]
    cases hrest : (c.past name after).skipBlank.rest with
    | nil => rfl
    | cons e rest =>
      by_cases he : e = '='
      · subst he
        have hbehind : ((c.past name after).skipBlank.past ['='] rest).At source :=
          hblank.past hrest.symm
        have hskip' : skipBlank source ((c.past name after).skipBlank.offset + 1) = _ :=
          skipBlank_eq hbehind
        simp only [hskip', attrValue_eq hbehind.skipBlank, bind_some]
        cases attrValue? (((c.past name after).skipBlank.past ['='] rest).skipBlank) with
        | none => rfl
        | some p => simp [decode_eq]
      · simp [he, Cursor.past]

/-! ## Start tags -/

/-- Takes the end of a start tag or one more attribute. The state is the offset and the attributes
that have been read. -/
def tagTurn (source : List Char) (s : Nat × List Attr) :
    Option ((Nat × List Attr) ⊕ Option (List Attr × Bool × Nat)) := do
  let offset ← skipBlank source s.1
  match ← sliceFrom? source offset with
  | '/' :: '>' :: _ => return .inr (some (s.2, true, offset + 2))
  | '>' :: _ => return .inr (some (s.2, false, offset + 1))
  | _ =>
    if offset = s.1 && !s.2.isEmpty then return .inr none
    else
      match ← attr source offset with
      | some (attr, next) => return .inl (next, s.2 ++ [attr])
      | none => return .inr none

def tagEnd (source : List Char) (offset : Nat) : Option (Option (List Attr × Bool × Nat)) :=
  loop? (fun s => byteLength source - s.1) (tagTurn source) (offset, [])

/-- How many bytes the tag name at the start of a text takes. -/
def nameLength (text : List Char) : Option Nat := (tagName? text).map fun p => byteLength p.1

/-- Reads the start tag at an offset: its name and attributes, whether it closes itself, and the
offset behind it. -/
def startTag (source : List Char) (offset : Nat) :
    Option (Option (String × List Attr × Bool × Nat)) := do
  let rest ← sliceFrom? source offset
  let named ← sliceFrom? rest 1
  match nameLength named with
  | none => return none
  | some length =>
    let tag ← slice? rest 1 (1 + length)
    let ended ← tagEnd source (offset + (1 + length))
    return ended.map fun e => (String.ofList tag, e)

/-- Reads the end tag at an offset: its name, and how many bytes it takes. -/
def endTag (source : List Char) (offset : Nat) : Option (Option (List Char × Nat)) := do
  match ← sliceFrom? source offset with
  | '<' :: '/' :: after =>
    match nameLength after with
    | none => return none
    | some length =>
      let gap ← sliceFrom? after length
      match find? ['>'] gap with
      | none => return none
      | some close =>
        let name ← sliceTo? after length
        return some (name, 2 + length + close + 1)
  | _ => return none

theorem tagEnd_eq (h : c.At source) : tagEnd source c.offset =
      some ((tagEnd? true c).map fun e => (e.attrs, e.selfClosing, e.cursor.offset)) := by
  have hstart : (tagEnd? true c).map (fun e => (e.attrs, e.selfClosing, e.cursor.offset)) =
      (tagEnd? true (.ofOffset source c.offset)).map
        fun e => ([] ++ e.attrs, e.selfClosing, e.cursor.offset) := by
    rw [h.ofOffset_eq]
    rfl
  rw [hstart]
  -- the attributes that have been read come before those that the rest of the tag has
  refine loop?_eq_some (s := (c.offset, []))
    (fun s : Nat × List Attr => ∃ c : Cursor, c.At source ∧ c.offset = s.1)
    (fun s => (tagEnd? s.2.isEmpty (.ofOffset source s.1)).map
      fun e => (s.2 ++ e.attrs, e.selfClosing, e.cursor.offset)) (fun s hs => ?_) ⟨c, h, rfl⟩
  obtain ⟨_, attrs⟩ := s
  obtain ⟨c, h, rfl⟩ := hs
  have hblank := h.skipBlank
  rw [h.ofOffset_eq]
  unfold tagTurn
  simp only [skipBlank_eq h, hblank.slice, bind_eq_bind, bind_some, attr_eq hblank]
  split
  · next rest hrest =>
    rw [tagEnd?, hrest]
    simp [Cursor.past]
    rfl
  · next rest hrest =>
    rw [tagEnd?, hrest]
    simp [Cursor.past]
    rfl
  · next hslash hgreater =>
    have hlast : tagEnd? attrs.isEmpty c =
        if c.skipBlank.offset = c.offset && !attrs.isEmpty then none
        else (attribute? c.skipBlank).bind fun p => (tagEnd? false p.2).map
          fun e => { e with attrs := p.1 :: e.attrs } := by
      rw [tagEnd?]
      split
      · next hrest => exact absurd hrest (hslash _)
      · next hrest => exact absurd hrest (hgreater _)
      · split
        · rfl
        · split
          · next hattr => rw [hattr]; rfl
          · next hattr => rw [hattr]; rfl
    rw [hlast]
    split
    · exact .inl rfl
    · cases hattr : attribute? c.skipBlank with
      | none => exact .inl rfl
      | some p =>
        right
        obtain ⟨attr, c'⟩ := p
        obtain ⟨text, -, hpass⟩ := text_of_attribute? hattr
        have hat := hblank.passes hpass
        have hlt := h.offset_lt hat (Nat.lt_of_lt_of_le (length_lt_of_attribute? hattr)
          (Cursor.length_rest_skipBlank_le c))
        have hlen := hat.byteLength_eq
        refine ⟨_, rfl, ?_, ⟨c', hat, rfl⟩, ?_⟩
        · dsimp only
          omega
        · rw [hat.ofOffset_eq, bind_some, List.isEmpty_eq_false_iff.mpr (by simp)]
          cases tagEnd? false c' with
          | none => rfl
          | some e => simp

theorem startTag_eq (h : c.At source) (hrest : c.rest = '<' :: cs) : startTag source c.offset =
      some ((startTag? c).map fun t => (t.tag, t.attrs, t.selfClosing, t.cursor.offset)) := by
  unfold startTag startTag? nameLength
  have hnamed : sliceFrom? ('<' :: cs) 1 = some cs := sliceFrom?_cons '<' cs
  simp only [h.slice, hrest, hnamed, bind_eq_bind, bind_some]
  cases hname : tagName? cs with
  | none => rfl
  | some p =>
    obtain ⟨name, rest⟩ := p
    have hcs := append_eq_of_tagName? hname
    have hparts : '<' :: cs = ['<'] ++ (name ++ rest) := by rw [hcs]; rfl
    have htag : slice? ('<' :: cs) 1 (1 + byteLength name) = some name :=
      slice?_of_eq hparts rfl rfl
    have hpast := h.passes (.tagName hrest hname)
    have hend : tagEnd source (c.offset + (1 + byteLength name)) = _ := tagEnd_eq hpast
    simp only [map_some, htag, hend, bind_some]
    cases tagEnd? true (c.past ('<' :: name) rest) <;> rfl

theorem endTag_eq (h : c.At source) :
    endTag source c.offset =
      some ((endTag? c.rest).map fun t => (t.1, 2 + byteLength t.1 + byteLength t.2.1 + 1)) := by
  unfold endTag nameLength
  simp only [h.slice, bind_eq_bind, bind_some]
  generalize c.rest = rest
  split
  · next after =>
    have hend : endTag? ('<' :: '/' :: after) = (tagName? after).bind fun p =>
        (cut? ['>'] p.2).map fun q => (p.1, q.1, q.2) := by
      rw [endTag?]
      cases tagName? after <;> rfl
    rw [hend]
    cases hname : tagName? after with
    | none => rfl
    | some p =>
      have hafter := append_eq_of_tagName? hname
      simp only [map_some, sliceFrom?_of_eq hafter.symm rfl, sliceTo?_of_eq hafter.symm rfl,
        bind_some, find?]
      cases cut? ['>'] p.2 <;> rfl
  · simp [endTag?]

end Sliced

end TemplateCompiler
