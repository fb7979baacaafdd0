import TemplateCompiler.Proofs.Slices
import TemplateCompiler.Template.Attributes
import TemplateCompiler.Web.StyleModule

/-!
# Reading attributes by byte offsets

Loop heads, names with modifiers, styles and model paths, each read with offsets and slices. They
give what the readers over lists of characters give.

The scan over a model path goes byte by byte. It only stops at a dot or a bracket, and such a byte
is always a character of its own: the bytes of all longer characters are 128 and up
(`utf8EncodeChar_cases`).
-/

namespace TemplateCompiler.Sliced

open Text Option ModelPath
open List hiding find?

/-! ## Loop heads -/

def iterators (source : String) (names : List Char) : Option LoopHead :=
  match findLast? ',' names with
  | none => some { source, binder := String.ofList names }
  | some comma => do
    let last ← sliceFrom? names (comma + 1)
    if !LoopHead.isIterator last then return { source, binder := String.ofList names }
    else
      let front ← sliceTo? names comma
      let single : LoopHead :=
        { source, binder := LoopHead.name front, iterator1 := LoopHead.name last }
      match findLast? ',' front with
      | none => return single
      | some comma =>
        let middle ← sliceFrom? front (comma + 1)
        if LoopHead.isIterator middle then
          let first ← sliceTo? front comma
          return {
            source
            binder := LoopHead.name first
            iterator1 := LoopHead.name middle
            iterator2 := LoopHead.name last }
        else return single

theorem iterators_eq (source : String) (names : List Char) :
    iterators source names = some (LoopHead.ofNames source names) := by
  unfold iterators LoopHead.ofNames findLast?
  cases hlast : cutLast? ',' names with
  | none => rfl
  | some p =>
    obtain ⟨front, last⟩ := p
    have hafter : sliceFrom? names (byteLength front + 1) = some last :=
      sliceFrom?_of_cutLast? hlast
    simp only [map_some, hafter, sliceTo?_of_cutLast? hlast, bind_eq_bind,
      bind_some]
    split
    · rfl
    · cases hmiddle : cutLast? ',' front with
      | none => rfl
      | some q =>
        obtain ⟨first, middle⟩ := q
        have hafter' : sliceFrom? front (byteLength first + 1) = some middle :=
          sliceFrom?_of_cutLast? hmiddle
        simp only [map_some, hafter', sliceTo?_of_cutLast? hmiddle, bind_some]
        split <;> rfl

/-! ## Names with modifiers -/

/-- The name of a directive and its modifiers, which start at the first dot from an offset on. -/
def modifiersFrom (rawName : List Char) (scanFrom : Nat) :
    Option (List Char × Option (List String)) := do
  let back ← sliceFrom? rawName scanFrom
  match find? ['.'] back with
  | none => return (rawName, none)
  | some dot =>
    let modifiers ← sliceFrom? rawName (scanFrom + dot + 1)
    let name ← sliceTo? rawName (scanFrom + dot)
    let pieces := splitAt '.' modifiers
    return (name, some (((pieces.1 :: pieces.2).filter fun p => !p.isEmpty).map String.ofList))

def modifiers (rawName : List Char) : Option (List Char × Option (List String)) :=
  modifiersFrom rawName ((findLast? ']' rawName).elim 0 (· + 1))

theorem modifiersFrom_eq (front back : List Char) :
    modifiersFrom (front ++ back) (byteLength front) =
      some (match cut? ['.'] back with
        | none => (front ++ back, none)
        | some (name, modifiers) =>
          (front ++ name, some ((((splitAt '.' modifiers).1 :: (splitAt '.' modifiers).2).filter
            fun p => !p.isEmpty).map String.ofList))) := by
  unfold modifiersFrom find?
  simp only [sliceFrom?_of_eq rfl rfl, bind_eq_bind, bind_some]
  cases hcut : cut? ['.'] back with
  | none => rfl
  | some p =>
    obtain ⟨name, modifiers⟩ := p
    have hback := append_eq_of_cut? hcut
    have hparts : front ++ back = (front ++ name) ++ (['.'] ++ modifiers) := by
      rw [← hback]
      simp
    have hparts' : front ++ back = (front ++ name ++ ['.']) ++ modifiers := by
      rw [hparts]
      simp
    have hafter : sliceFrom? (front ++ back) (byteLength front + byteLength name + 1) =
        some modifiers := sliceFrom?_of_eq hparts' (by simp; rfl)
    have hname : sliceTo? (front ++ back) (byteLength front + byteLength name) =
        some (front ++ name) := sliceTo?_of_eq hparts (by simp)
    simp only [map_some, hafter, hname, bind_some]
    rfl

theorem modifiers_eq (rawName : List Char) :
    modifiers rawName = some (Element.splitModifiers rawName) := by
  unfold modifiers Element.splitModifiers findLast?
  cases hcut : cutLast? ']' rawName with
  | none => exact modifiersFrom_eq [] rawName
  | some p =>
    obtain ⟨before, after⟩ := p
    have hname : rawName = (before ++ [']']) ++ after := by
      rw [← append_eq_of_cutLast? hcut]
      simp
    have hfrom := modifiersFrom_eq (before ++ [']']) after
    rw [← hname, byteLength_append] at hfrom
    exact hfrom

/-! ## Styles -/

/-- The declarations of a style text from the offset `i` on, where `ahead` is, the first of which
starts at `start`. -/
def declarations (text : List Char) (start i : Nat) (depth : Int) :
    List Char → Option (List Char × List (List Char))
  | [] => do
    let last ← sliceFrom? text start
    return (last, [])
  | c :: ahead =>
    if c = ';' ∧ depth ≤ 0 then do
      let declaration ← slice? text start i
      let more ← declarations text (i + 1) (i + 1) (depth + Web.parenChange c) ahead
      return (declaration, more.1 :: more.2)
    else declarations text start (i + c.utf8Size) (depth + Web.parenChange c) ahead

theorem declarations_eq {text front part ahead : List Char} {start i : Nat} (depth : Int)
    (htext : text = front ++ (part ++ ahead)) (hstart : byteLength front = start)
    (hi : start + byteLength part = i) :
    declarations text start i depth ahead =
      some (part ++ (Web.splitStyle depth ahead).1, (Web.splitStyle depth ahead).2) := by
  induction ahead generalizing depth front part start i with
  | nil =>
    unfold declarations
    rw [sliceFrom?_of_eq htext hstart]
    simp [Web.splitStyle]
  | cons c ahead ih =>
    unfold declarations Web.splitStyle
    split
    · next hc =>
      have hrest : text = (front ++ part ++ [c]) ++ ([] ++ ahead) := by simp [htext]
      have hlen : byteLength (front ++ part ++ [c]) = i + 1 := by
        rw [hc.1, byteLength_append, byteLength_append, hstart, hi]
        rfl
      rw [slice?_of_eq htext hstart hi, ih _ hrest hlen (Nat.add_zero _)]
      simp
    · have hrest : text = front ++ ((part ++ [c]) ++ ahead) := by simp [htext]
      rw [ih _ hrest hstart (by simp [← hi, Nat.add_assoc])]
      simp

def style (text : String) : Option (List (String × String)) := do
  let parts ← declarations text.toList 0 0 0 text.toList
  return ((parts.1 :: parts.2).filterMap Web.declaration?).foldl
    (fun all d => upsert all d.1 d.2) []

theorem style_eq (text : String) : style text = some (Web.parseStyle text) := by
  have hempty : text.toList = [] ++ ([] ++ text.toList) := rfl
  have hparts : declarations text.toList 0 0 0 text.toList =
      some (Web.splitStyle 0 text.toList) := declarations_eq 0 hempty rfl rfl
  unfold style
  rw [hparts]
  rfl

def insideBraces (object : List Char) : Option (List Char) :=
  slice? object 1 (byteLength object - 1)

def mergedStyle (plain bound : String) : Option String :=
  let object := trimmed bound.toList
  if object.head? = some '\x7b' ∧ object.getLast? = some '\x7d' then do
    let own ← insideBraces plain.toList
    let added ← insideBraces object
    return "style:(" ++ braced (String.ofList own ++ "," ++ String.ofList added) ++ "),"
  else some ("style:_rs(" ++ bound ++ ", " ++ plain ++ "),")

def styleData (el : Element) : Option String :=
  match el.staticStyle, el.styleBinding with
  | some plain, some bound => mergedStyle plain bound
  | _, _ => some (Web.styleData el)

theorem insideBraces_eq {inner : List Char} :
    insideBraces ('\x7b' :: (inner ++ ['\x7d'])) =
      some (Web.inside ('\x7b' :: (inner ++ ['\x7d']))) := by
  have hparts : '\x7b' :: (inner ++ ['\x7d']) = ['\x7b'] ++ (inner ++ ['\x7d']) := rfl
  have hlen : byteLength ('\x7b' :: (inner ++ ['\x7d'])) - 1 = 1 + byteLength inner := by
    rw [byteLength_cons, byteLength_append]
    rfl
  have hinner : slice? ('\x7b' :: (inner ++ ['\x7d'])) 1 (1 + byteLength inner) = some inner :=
    slice?_of_eq hparts rfl rfl
  unfold insideBraces
  rw [hlen, hinner]
  simp [Web.inside]

/-- A text between braces has both, since one character is not two. -/
theorem exists_inside {object : List Char} (hhead : object.head? = some '\x7b')
    (hlast : object.getLast? = some '\x7d') : ∃ inner, object = '\x7b' :: (inner ++ ['\x7d']) := by
  obtain ⟨rest, rfl⟩ := head?_eq_some_iff.mp hhead
  obtain ⟨front, hfront⟩ := getLast?_eq_some_iff.mp hlast
  cases front with
  | nil => cases hfront
  | cons c inner =>
    rw [cons_append, List.cons.injEq] at hfront
    exact ⟨inner, by rw [hfront.2]⟩

theorem styleData_eq {el : Element} (h : ∀ text ∈ el.staticStyle, ∃ inner, text = braced inner) :
    styleData el = some (Web.styleData el) := by
  unfold styleData
  split
  · next plain bound hplain hbound =>
    obtain ⟨inner, rfl⟩ := h plain hplain
    unfold Web.styleData mergedStyle Web.mergedStyle
    rw [hplain, hbound]
    dsimp only
    split
    · next hobj =>
      obtain ⟨added, hadded⟩ := exists_inside hobj.1 hobj.2
      have hplain' : (braced inner).toList = '\x7b' :: (inner.toList ++ ['\x7d']) := by
        simp [braced]
      rw [hplain', hadded, insideBraces_eq, insideBraces_eq]
      rfl
    · rfl
  · rfl

/-! ## Model paths -/

def utf8 (cs : List Char) : List UInt8 := cs.flatMap String.utf8EncodeChar

/-- The state of a scan over the bytes of a path. -/
structure PathScan where
  /-- Where the current segment starts. -/
  start : Nat := 0
  depth : Int := 0
  /-- The segments found, latest first. -/
  found : List String := []

def byteBefore (bytes : List UInt8) (i : Nat) : Option (Option UInt8) :=
  if i = 0 then some none else (bytes[i - 1]?).map some

def pathByte (path : List Char) (i : Nat) (s : PathScan) (b : UInt8) : Option PathScan :=
  if b = '.'.toUInt8 ∧ s.depth = 0 then do
    let before ← byteBefore (utf8 path) i
    if before = some ']'.toUInt8 then return { s with start := i + 1 }
    else
      let name ← slice? path s.start i
      return { s with
        start := i + 1, found := quotedName (String.ofList name) :: s.found }
  else if b = '['.toUInt8 ∧ s.depth = 0 then do
    if s.start = i then return { s with start := i + 1, depth := 1 }
    else
      let before ← byteBefore (utf8 path) i
      let name ← slice? path s.start i
      let segment :=
        if before = some ']'.toUInt8 then String.ofList name
        else quotedName (String.ofList name)
      return { start := i + 1, depth := 1, found := segment :: s.found }
  else if b = '['.toUInt8 then some { s with depth := s.depth + 1 }
  else if b = ']'.toUInt8 ∧ s.depth = 1 then do
    let segment ← slice? path s.start i
    return { start := i + 1, depth := 0, found := String.ofList segment :: s.found }
  else if b = ']'.toUInt8 then some { s with depth := s.depth - 1 }
  else some s

/-- The state after some bytes, the first of which has number `i`. -/
def pathBytes (path : List Char) : Nat → List UInt8 → PathScan → Option PathScan
  | _, [], s => some s
  | i, b :: bytes, s => do
    let s ← pathByte path i s b
    pathBytes path (i + 1) bytes s

def segments (path : List Char) : Option (List String) := do
  let s ← pathBytes path 0 (utf8 path) {}
  if s.start < byteLength path then
    let name ← sliceFrom? path s.start
    return (quotedName (String.ofList name) :: s.found).reverse
  else return s.found.reverse

theorem length_utf8 {cs : List Char} : (utf8 cs).length = byteLength cs := by
  induction cs with
  | nil => rfl
  | cons c cs ih =>
    rw [utf8, flatMap_cons, length_append, String.length_utf8EncodeChar]
    exact congrArg _ ih

theorem utf8EncodeChar_cases (c : Char) :
    (c.utf8Size = 1 ∧ String.utf8EncodeChar c = [c.toUInt8]) ∨
      ∀ b ∈ String.utf8EncodeChar c, 128 ≤ b := by
  have hhigh (x y : UInt8) (hy : 128 ≤ y) : 128 ≤ x ||| y := by
    rw [UInt8.le_iff_toNat_le] at hy ⊢
    exact Nat.le_trans hy Nat.right_le_or
  rcases c.utf8Size_eq with h | h | h | h
  · exact .inl ⟨h, String.utf8EncodeChar_eq_singleton h⟩
  · right
    rw [String.utf8EncodeChar_eq_cons_cons h]
    simp only [mem_cons, not_mem_nil, or_false]
    rintro b (rfl | rfl) <;> exact hhigh _ _ (by decide)
  · right
    rw [String.utf8EncodeChar_eq_cons_cons_cons h]
    simp only [mem_cons, not_mem_nil, or_false]
    rintro b (rfl | rfl | rfl) <;> exact hhigh _ _ (by decide)
  · right
    rw [String.utf8EncodeChar_eq_cons_cons_cons_cons h]
    simp only [mem_cons, not_mem_nil, or_false]
    rintro b (rfl | rfl | rfl | rfl) <;> exact hhigh _ _ (by decide)

theorem toUInt8_inj {c d : Char} (hc : c.utf8Size = 1) (hd : d.utf8Size = 1)
    (h : c.toUInt8 = d.toUInt8) : c = d := by
  rw [Char.utf8Size_eq_one_iff, UInt32.le_iff_toNat_le] at hc hd
  have hmod := congrArg UInt8.toNat h
  rw [Char.toUInt8, Char.toUInt8, UInt32.toNat_toUInt8, UInt32.toNat_toUInt8] at hmod
  refine Char.ext (UInt32.toNat_inj.mp ?_)
  simp only [UInt32.reduceToNat] at hc hd
  omega

/-- The characters of the current segment are the last ones of `done`. -/
structure Follows (done : List Char) (m : Scan) : Prop where
  segment : ∃ front, done = front ++ m.current.reverse
  previous : m.previous = done.getLast?

/-- The state over bytes that goes with the state over characters after `done`. -/
def PathScan.after (done : List Char) (m : Scan) : PathScan where
  start := byteLength done - byteLength m.current
  depth := m.depth
  found := m.found

variable {path done ahead cs : List Char} {m : Scan} {c : Char}
  {rest bytes : List UInt8}

theorem Follows.step (h : Follows done m) (c : Char) : Follows (done ++ [c]) (m.step c) := by
  obtain ⟨⟨front, hfront⟩, -⟩ := h
  have hkeep : ∃ front, done ++ [c] = front ++ (c :: m.current).reverse := by
    refine ⟨front, ?_⟩
    rw [reverse_cons, ← List.append_assoc, ← hfront]
  have hfresh : ∃ front, done ++ [c] = front ++ ([] : List Char).reverse := ⟨done ++ [c], by simp⟩
  unfold Scan.step
  split
  · next hc =>
    subst hc
    unfold Scan.dot
    split
    · exact ⟨hkeep, by simp⟩
    · exact ⟨hfresh, by simp⟩
  split
  · next hc =>
    subst hc
    unfold Scan.openBracket
    split
    · exact ⟨hkeep, by simp⟩
    · exact ⟨hfresh, by simp⟩
  split
  · next hc =>
    subst hc
    unfold Scan.closeBracket
    split
    · exact ⟨hkeep, by simp⟩
    · exact ⟨hfresh, by simp⟩
  · exact ⟨hkeep, by simp⟩

theorem byteBefore_append : byteBefore (bytes ++ rest) bytes.length = some bytes.getLast? := by
  rcases eq_nil_or_concat bytes with rfl | ⟨front, b, rfl⟩
  · rfl
  · unfold byteBefore
    simp

/-- The last byte of a text is a closing bracket if its last character is. -/
theorem getLast?_utf8_eq_iff : (utf8 cs).getLast? = some ']'.toUInt8 ↔ cs.getLast? = some ']' := by
  rcases eq_nil_or_concat cs with rfl | ⟨front, d, rfl⟩
  · simp [utf8]
  · have hlast : (utf8 (front ++ [d])).getLast? = (String.utf8EncodeChar d).getLast? := by
      simp [utf8, getLast?_eq_some_getLast (String.utf8EncodeChar_ne_nil)]
    rw [concat_eq_append, hlast, getLast?_concat, Option.some.injEq]
    rcases utf8EncodeChar_cases d with ⟨hsize, hbytes⟩ | hhigh
    · rw [hbytes, getLast?_singleton, Option.some.injEq]
      exact ⟨toUInt8_inj hsize rfl, fun h => by rw [h]⟩
    · constructor
      · intro h
        exact absurd (hhigh _ (mem_of_getLast? h)) (by decide)
      · rintro rfl
        exact absurd (hhigh ']'.toUInt8 (by decide)) (by decide)

theorem byteBefore_eq (h : path = done ++ ahead) :
    byteBefore (utf8 path) (byteLength done) = some (utf8 done).getLast? := by
  rw [h, utf8, flatMap_append, ← length_utf8]
  exact byteBefore_append

theorem Follows.foldl (h : Follows done m) (ahead : List Char) :
    Follows (done ++ ahead) (ahead.foldl Scan.step m) := by
  induction ahead generalizing done m with
  | nil => rwa [append_nil]
  | cons c ahead ih =>
    have hnext := ih (h.step c)
    rwa [List.append_assoc] at hnext

/-- A byte that is a character of its own leads from one state to the next as the character does. -/
theorem pathByte_eq (h : Follows done m) (hpath : path = done ++ c :: ahead)
    (hc : c.utf8Size = 1) :
    pathByte path (byteLength done) (.after done m) c.toUInt8 =
      some (.after (done ++ [c]) (m.step c)) := by
  obtain ⟨⟨front, hdone⟩, hprevious⟩ := h
  have hstart : byteLength done - byteLength m.current = byteLength front := by
    rw [hdone, byteLength_append, byteLength_reverse, Nat.add_sub_cancel]
  have hslice : slice? path (byteLength front) (byteLength done) = some m.current.reverse := by
    have hparts : path = front ++ (m.current.reverse ++ c :: ahead) := by
      rw [hpath, ← List.append_assoc, ← hdone]
    exact slice?_of_eq hparts rfl (by rw [hdone, byteLength_append])
  have hbef := byteBefore_eq hpath
  have hclosed : (utf8 done).getLast? = some ']'.toUInt8 ↔ m.previous = some ']' := by
    rw [getLast?_utf8_eq_iff, hprevious]
  have hsame (k : Char) (hk : k.utf8Size = 1) : c.toUInt8 = k.toUInt8 ↔ c = k :=
    ⟨toUInt8_inj hc hk, fun h => by rw [h]⟩
  have hempty : byteLength front = byteLength done ↔ m.current = [] := by
    have hlen := congrArg byteLength hdone
    rw [byteLength_append, byteLength_reverse] at hlen
    constructor
    · intro heq
      cases hcur : m.current with
      | nil => rfl
      | cons d rest =>
        have hpos := byteLength_pos (cons_ne_nil d rest)
        rw [hcur] at hlen
        omega
    · intro hcur
      rw [hlen, hcur, byteLength_nil, Nat.add_zero]
  have hkeep : byteLength done + 1 - (1 + byteLength m.current) = byteLength front := by omega
  unfold pathByte PathScan.after
  simp only [hstart, hsame '.' rfl, hsame '[' rfl, hsame ']' rfl, hbef, hslice, hclosed, hempty,
    bind_eq_bind, bind_some]
  by_cases hdot : c = '.'
  · subst hdot
    by_cases hzero : m.depth = 0
    · by_cases hprev : m.previous = some ']'
      · simp [Scan.step, Scan.dot, hzero, hprev, hc]
      · simp [Scan.step, Scan.dot, Scan.text, hzero, hprev, hc]
    · simp [Scan.step, Scan.dot, hzero, hc, hkeep]
  by_cases hopen : c = '['
  · subst hopen
    by_cases hzero : m.depth = 0
    · by_cases hcur : m.current = []
      · simp [Scan.step, Scan.openBracket, hzero, hcur, hc]
      · by_cases hprev : m.previous = some ']'
        · simp [Scan.step, Scan.openBracket, Scan.text, hzero, hcur,
            hprev, hc]
        · simp [Scan.step, Scan.openBracket, Scan.text, hzero, hcur,
            hprev, hc]
    · simp [Scan.step, Scan.openBracket, hzero, hc, hkeep]
  by_cases hclose : c = ']'
  · subst hclose
    by_cases hone : m.depth = 1
    · simp [Scan.step, Scan.closeBracket, Scan.text, hone, hc]
    · simp [Scan.step, Scan.closeBracket, hone, hc, hkeep]
  · simp [Scan.step, hdot, hopen, hclose, hc, hkeep]

/-- Bytes of longer characters change nothing. -/
theorem pathBytes_high {bytes : List UInt8} (h : ∀ b ∈ bytes, 128 ≤ b) (i : Nat) (s : PathScan) :
    pathBytes path i (bytes ++ rest) s = pathBytes path (i + bytes.length) rest s := by
  induction bytes generalizing i with
  | nil => rfl
  | cons b bytes ih =>
    have hhigh := h b mem_cons_self
    have hne (k : UInt8) (hk : k < 128) : b ≠ k := by
      rintro rfl
      exact absurd (UInt8.lt_of_lt_of_le hk hhigh) (UInt8.lt_irrefl b)
    have hdot := hne '.'.toUInt8 (by decide)
    have hopen := hne '['.toUInt8 (by decide)
    have hclose := hne ']'.toUInt8 (by decide)
    have hsame : pathByte path i s b = some s := by
      simp [pathByte, hdot, hopen, hclose]
    rw [cons_append, pathBytes, hsame, length_cons, Nat.add_comm bytes.length 1,
      ← Nat.add_assoc]
    exact ih (fun b' hb' => h b' (mem_cons_of_mem _ hb')) (i + 1)

theorem pathBytes_eq (h : Follows done m) (hpath : path = done ++ ahead) :
    pathBytes path (byteLength done) (utf8 ahead) (.after done m) =
      some (.after path (ahead.foldl Scan.step m)) := by
  induction ahead generalizing done m with
  | nil =>
    rw [append_nil] at hpath
    rw [hpath]
    rfl
  | cons c ahead ih =>
    have hpath' : path = (done ++ [c]) ++ ahead := by simp [hpath]
    have hnext := ih (h.step c) hpath'
    rw [byteLength_append] at hnext
    rw [utf8, flatMap_cons, foldl_cons, ← hnext]
    rcases utf8EncodeChar_cases c with ⟨hsize, hbytes⟩ | hhigh
    · rw [hbytes, singleton_append, pathBytes, pathByte_eq h hpath hsize, byteLength_cons,
        hsize]
      rfl
    · -- a longer character is none of those that end a segment
      have hne (k : Char) (b : UInt8) (hb : b ∈ String.utf8EncodeChar k) (hlow : ¬ 128 ≤ b) :
          c ≠ k := fun heq => hlow (hhigh b (heq ▸ hb))
      have hdot := hne '.' '.'.toUInt8 (by decide) (by decide)
      have hopen := hne '[' '['.toUInt8 (by decide) (by decide)
      have hclose := hne ']' ']'.toUInt8 (by decide) (by decide)
      have hstep : PathScan.after (done ++ [c]) (m.step c) = .after done m := by
        simp only [PathScan.after, Scan.step, hdot, hopen, hclose, if_false,
          byteLength_append, byteLength_cons, byteLength_nil, PathScan.mk.injEq, and_self, and_true]
        omega
      rw [pathBytes_high hhigh, hstep, String.length_utf8EncodeChar, byteLength_cons]
      rfl

theorem segments_eq : segments path = some (segmentsOf path) := by
  have hempty : Follows [] {} := ⟨⟨[], rfl⟩, rfl⟩
  have hscan : pathBytes path 0 (utf8 path) {} = some (.after path (path.foldl _ {})) :=
    pathBytes_eq hempty rfl
  obtain ⟨⟨front, hfront⟩, -⟩ := hempty.foldl path
  rw [nil_append] at hfront
  unfold segments segmentsOf Scan.finish
  rw [hscan]
  generalize path.foldl Scan.step {} = m at hfront
  have hlen : byteLength path = byteLength front + byteLength m.current := by
    rw [hfront, byteLength_append, byteLength_reverse]
  have hstart : (PathScan.after path m).start = byteLength front := by
    show byteLength path - byteLength m.current = byteLength front
    omega
  simp only [bind_eq_bind, bind_some, hstart, sliceFrom?_of_eq hfront rfl]
  cases hcur : m.current with
  | nil =>
    rw [hcur] at hlen
    rw [if_neg (by simp [hlen])]
    rfl
  | cons c current =>
    have hpos := byteLength_pos (cons_ne_nil c current)
    rw [hcur] at hlen
    rw [if_pos (by omega)]
    simp [PathScan.after, Scan.text, hcur]

def modelPath (value : String) : Option ModelPath :=
  let path := trimmed value.toList
  if path.any fun c => c = '[' || c = ']' || c = '.' then do
    let segments ← segments path
    let front := byteLength path - trailingBytes path segments
    return { exp := String.ofList ((takeBytes? front path).getD []), segments }
  else some { exp := String.ofList path, segments := [String.ofList path] }

def assignment (value assigned : String) : Option String := do
  let path ← modelPath value
  if path.segments.length ≤ 1 then return value ++ "=" ++ assigned
  else if "state.".toList.isPrefixOf (trimStart value.toList) then
    let rest ← range? path.segments 1 path.segments.length
    return "$set(state, [" ++ String.intercalate "," rest ++ "], " ++ assigned ++ ")"
  else
    let last ← path.segments[path.segments.length - 1]?
    return "$set(" ++ path.exp ++ ", " ++ last ++ ", " ++ assigned ++ ")"

theorem modelPath_eq (value : String) : modelPath value = some (ModelPath.parse value) := by
  unfold modelPath ModelPath.parse
  simp only [segments_eq, bind_eq_bind, bind_some]
  split <;> rfl

theorem assignment_eq (value assigned : String) :
    assignment value assigned = some (ModelPath.assignment value assigned) := by
  unfold assignment ModelPath.assignment
  simp only [modelPath_eq, bind_eq_bind, bind_some]
  generalize ModelPath.parse value = path
  split
  · rfl
  · next hmany =>
    split
    · cases hsegs : path.segments with
      | nil => simp [hsegs] at hmany
      | cons first rest =>
        have hparts : first :: rest = [first] ++ (rest ++ []) := by simp
        have hrest : range? (first :: rest) 1 (first :: rest).length = some rest :=
          range?_of_eq hparts rfl (Nat.add_comm 1 rest.length)
        rw [hrest]
        rfl
    · cases hsegs : path.segments with
      | nil => simp [hsegs] at hmany
      | cons first rest =>
        rw [getLast?_eq_getElem?]
        simp

end TemplateCompiler.Sliced
