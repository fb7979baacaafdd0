import TemplateCompiler.Expression.Interpolation
import TemplateCompiler.Proofs.Slices
import TemplateCompiler.Text.Reference

/-!
# Reading text by byte offsets

Character references, filter chains and interpolations, each read with offsets and slices. They give
what the readers over lists of characters give, so none of them asks for a slice that is not there.
-/

namespace TemplateCompiler.Sliced

open Text Option
open List hiding find?

variable {before rest after ahead body : List Char} {s : FilterChain.Scan}

/-! ## Character references -/

theorem decodeChars_append (h : '&' ∉ before) (rest : List Char) :
    decodeChars (before ++ rest) = before ++ decodeChars rest := by
  induction before with
  | nil => rfl
  | cons c before ih =>
    rw [mem_cons, not_or] at h
    rw [cons_append, decodeChars, if_neg (Ne.symm h.1), ih h.2, cons_append]

theorem decodeChars_plain (h : reference? rest = none) :
    decodeChars ('&' :: rest) = '&' :: decodeChars rest := by
  rw [decodeChars, if_pos rfl]
  split
  · next heq => rw [h] at heq; cases heq
  · rfl

theorem decodeChars_reference {r : Char × List Char}
    (h : reference? rest = some r) : decodeChars ('&' :: rest) = r.1 :: decodeChars r.2 := by
  rw [decodeChars, if_pos rfl]
  split
  · next heq =>
    rw [h] at heq
    cases heq
    rfl
  · next heq => rw [h] at heq; cases heq

/-- Reads a reference at the start of a text: its character and the offset of the semicolon. -/
def reference (text : List Char) : Option (Option (Char × Nat)) :=
  match find? [';'] text with
  | some semicolon => do
    let body ← slice? text 1 semicolon
    return (referenceBody? body).map fun c => (c, semicolon)
  | none => some none

/-- Takes what is before the next ampersand, and the reference that starts there. The state is the
text ahead and what has been written. -/
def decodeTurn (s : List Char × List Char) : Option ((List Char × List Char) ⊕ List Char) :=
  match find? ['&'] s.1 with
  | some ampersand => do
    let before ← sliceTo? s.1 ampersand
    let tail ← sliceFrom? s.1 ampersand
    match ← reference tail with
    | some (c, semicolon) => do
      let rest ← sliceFrom? tail (semicolon + 1)
      return .inl (rest, s.2 ++ before ++ [c])
    | none => do
      let rest ← sliceFrom? tail 1
      return .inl (rest, s.2 ++ before ++ ['&'])
  | none => some (.inr (s.2 ++ s.1))

def decode (text : List Char) : Option (List Char) :=
  loop? (fun s => s.1.length) decodeTurn (text, [])

theorem reference_eq : reference ('&' :: rest) =
      some ((cut? [';'] rest).bind fun p =>
        (referenceBody? p.1).map fun c => (c, 1 + byteLength p.1)) := by
  unfold reference find?
  rw [cut?_singleton_cons]
  cases hcut : cut? [';'] rest with
  | none => rfl
  | some p =>
    have hbody : slice? ('&' :: rest) 1 (1 + byteLength p.1) = some p.1 := by
      have hrest := append_eq_of_cut? hcut
      rw [List.append_assoc] at hrest
      exact slice?_of_eq (congrArg (['&'] ++ ·) hrest.symm) rfl rfl
    show (slice? ('&' :: rest) 1 (1 + byteLength p.1)).bind _ = _
    rw [hbody]
    rfl

theorem reference_of_none (h : reference? rest = none) : reference ('&' :: rest) = some none := by
  rw [reference_eq]
  unfold reference? at h
  split at h
  · next body after hcut =>
    rw [hcut, bind_some, map_eq_none_iff.mp h]
    rfl
  · next hcut => rw [hcut, bind_none]

theorem reference_of_some {c : Char} (h : reference? rest = some (c, after)) :
    ∃ semicolon, reference ('&' :: rest) = some (some (c, semicolon)) ∧
      sliceFrom? ('&' :: rest) (semicolon + 1) = some after := by
  rw [reference_eq]
  unfold reference? at h
  split at h
  · next body after' hcut =>
    obtain ⟨c', hbody, heq⟩ := map_eq_some_iff.mp h
    cases heq
    refine ⟨1 + byteLength body, ?_, ?_⟩
    · rw [hcut, bind_some, hbody]
      rfl
    · have hparts : '&' :: rest = '&' :: (body ++ [';']) ++ after := by
        rw [← append_eq_of_cut? hcut]
        rfl
      refine sliceFrom?_of_eq hparts ?_
      rw [byteLength_cons, byteLength_append]
      rfl
  · cases h

theorem decode_eq (text : List Char) : decode text = some (decodeChars text) := by
  refine loop?_eq_some (fun _ => True) (fun s : List Char × List Char => s.2 ++ decodeChars s.1)
    (fun s _ => ?_) trivial
  obtain ⟨ahead, out⟩ := s
  unfold decodeTurn find?
  cases hcut : cut? ['&'] ahead with
  | none =>
    have hplain := decodeChars_append (not_mem_of_cut?_eq_none hcut) []
    rw [append_nil] at hplain
    simp [hplain, decodeChars]
  | some p =>
    right
    obtain ⟨before, rest⟩ := p
    have hahead := append_eq_of_cut? hcut
    rw [List.append_assoc, singleton_append] at hahead
    have hlen := congrArg List.length hahead
    rw [length_append, length_cons] at hlen
    have htail : sliceFrom? ahead (byteLength before) = some ('&' :: rest) :=
      sliceFrom?_of_eq hahead.symm rfl
    have hdecode : decodeChars ahead = before ++ decodeChars ('&' :: rest) := by
      rw [← hahead, decodeChars_append (not_mem_of_cut? hcut)]
    simp only [map_some, sliceTo?_of_cut? hcut, htail, hdecode, bind_eq_bind, bind_some]
    cases href : reference? rest with
    | none =>
      have hrest : sliceFrom? ('&' :: rest) 1 = some rest := sliceFrom?_cons '&' rest
      simp only [reference_of_none href, hrest, bind_some]
      refine ⟨_, rfl, ?_, trivial, ?_⟩
      · dsimp only
        omega
      · simp [decodeChars_plain href]
    | some r =>
      obtain ⟨semicolon, hreference, hafter⟩ := reference_of_some href
      have hlt := length_lt_of_reference? href
      simp only [hreference, hafter, bind_some]
      refine ⟨_, rfl, ?_, trivial, ?_⟩
      · dsimp only
        omega
      · simp [decodeChars_reference href]

/-! ## Filter chains -/

/-- The parts of an expression from the character at `i` on, of which the first one starts at
`start`. What stands before a character is looked up in the characters. -/
def filterParts (chars : List Char) (s : FilterChain.Scan) (start i : Nat) :
    Option (List Char × List (List Char)) :=
  if _h : i < chars.length then do
    let c ← chars[i]?
    let before ← range? chars 0 i
    let s := { s with
      previous := before.getLast?.getD '\x00'
      operand := (before.filter (· ≠ ' ')).getLast? }
    if s.splits c chars[i + 1]? then
      let part ← range? chars start i
      let parts ← filterParts chars (s.advance c) (i + 1) (i + 1)
      return (part, parts.1 :: parts.2)
    else filterParts chars (s.advance c) start (i + 1)
  else do
    let part ← range? chars start chars.length
    return (part, [])
termination_by chars.length - i

def wrap (exp filter : String) : Option String :=
  match find? ['('] filter.toList with
  | none => some ("_f(\"" ++ filter ++ "\")(" ++ exp ++ ")")
  | some bracket => do
    let name ← sliceTo? filter.toList bracket
    let args ← sliceFrom? filter.toList (bracket + 1)
    return "_f(\"" ++ String.ofList name ++ "\")(" ++ exp ++ (if args = [')'] then "" else ",") ++
      String.ofList args

def filterChain (exp : String) : Option String := do
  let parts ← filterParts exp.toList {} 0 0
  (parts.2.map fun filter => String.ofList (trimmed filter)).foldlM wrap
    (String.ofList (trimmed parts.1))

/-- The scan knows the last characters of what it has read. -/
structure Knows (s : FilterChain.Scan) (before : List Char) : Prop where
  previous : s.previous = before.getLast?.getD '\x00'
  operand : s.operand = (before.filter (· ≠ ' ')).getLast?

theorem Knows.advance (h : Knows s before) (c : Char) : Knows (s.advance c) (before ++ [c]) := by
  constructor
  · simp [FilterChain.Scan.advance]
  · by_cases hc : c = ' '
    · simp [FilterChain.Scan.advance, hc, h.operand]
    · simp [FilterChain.Scan.advance, hc]

theorem filterParts_eq {chars front part : List Char} {start i : Nat}
    (h : Knows s (front ++ part)) (hchars : chars = front ++ (part ++ ahead))
    (hstart : front.length = start) (hi : start + part.length = i) :
    filterParts chars s start i =
      some (part ++ (FilterChain.split s ahead).1, (FilterChain.split s ahead).2) := by
  induction ahead generalizing s front part start i with
  | nil =>
    have hlen : chars.length = i := by simp [hchars, ← hi, hstart]
    have hpart : range? chars start i = some part := range?_of_eq hchars hstart hi
    unfold filterParts
    rw [hlen, hpart]
    simp [FilterChain.split]
  | cons c ahead ih =>
    have hchars' : chars = front ++ part ++ c :: ahead := by simp [hchars]
    have hi' : (front ++ part).length = i := by rw [length_append, hstart, hi]
    have hc : chars[i]? = some c := by simp [hchars', ← hi']
    have hnext : chars[i + 1]? = ahead.head? := by
      rw [hchars', getElem?_append_right (by omega), ← hi', Nat.add_sub_cancel_left,
        getElem?_cons_succ, head?_eq_getElem?]
    have hbef : range? chars 0 i = some (front ++ part) :=
      range?_of_eq ((nil_append _).trans hchars'.symm).symm rfl (by omega)
    have hpart : range? chars start i = some part := range?_of_eq hchars hstart hi
    have hscan : { s with
        previous := (front ++ part).getLast?.getD '\x00'
        operand := ((front ++ part).filter (· ≠ ' ')).getLast? } = s := by
      rw [← h.previous, ← h.operand]
    unfold filterParts FilterChain.split
    rw [dif_pos (List.getElem?_eq_some_iff.mp hc).1]
    simp only [hc, hbef, hnext, hpart, hscan, bind_eq_bind, bind_some]
    split
    · -- a new part starts behind the bar
      have hnew : Knows (s.advance c) ((front ++ part ++ [c]) ++ []) := by
        rw [append_nil]
        exact h.advance c
      have hlen : (front ++ part ++ [c]).length = i + 1 := by
        rw [length_append, hi']
        rfl
      rw [ih hnew (by simp [hchars]) hlen (Nat.add_zero _)]
      simp
    · have hlonger : Knows (s.advance c) (front ++ (part ++ [c])) := by
        rw [← List.append_assoc]
        exact h.advance c
      rw [ih hlonger (by simp [hchars]) hstart (by simp [← hi, Nat.add_assoc])]
      simp

theorem wrap_eq (exp filter : String) : wrap exp filter = some (FilterChain.wrap exp filter) := by
  unfold wrap FilterChain.wrap find?
  cases hcut : cut? ['('] filter.toList with
  | none => rfl
  | some p =>
    have hargs : sliceFrom? filter.toList (byteLength p.1 + 1) = some p.2 := sliceFrom?_of_cut? hcut
    simp only [map_some, sliceTo?_of_cut? hcut, hargs, bind_eq_bind, bind_some]
    rfl

theorem filterChain_eq (exp : String) : filterChain exp = some (FilterChain.parse exp) := by
  have hwraps (filters : List String) (code : String) :
      filters.foldlM wrap code = some (filters.foldl FilterChain.wrap code) := by
    induction filters generalizing code with
    | nil => rfl
    | cons filter filters ih =>
      rw [foldlM_cons, wrap_eq]
      exact ih _
  have hparts : filterParts exp.toList {} 0 0 = some (FilterChain.split {} exp.toList) :=
    filterParts_eq (show Knows {} ([] ++ []) from ⟨rfl, rfl⟩) rfl rfl rfl
  unfold filterChain FilterChain.parse
  rw [hparts]
  exact hwraps _ _

/-! ## Interpolations -/

section Interpolations

open Interpolation

variable {opening closing text : List Char}

/-- Finds the first interpolation from an offset on: where its opening delimiter starts and where
its body ends. -/
def interpolationAt (opening closing text : List Char) (cursor : Nat) :
    Option (Option (Nat × Nat)) := do
  let ahead ← sliceFrom? text cursor
  match find? opening ahead with
  | none => return none
  | some before =>
    let bodyStart := cursor + before + byteLength opening
    let body ← sliceFrom? text bodyStart
    match body with
    | [] => return none
    | first :: _ =>
      let searchFrom := bodyStart + first.utf8Size
      let rest ← sliceFrom? text searchFrom
      return (find? closing rest).map fun length => (cursor + before, searchFrom + length)

/-- Takes the next interpolation with the text before it, or the rest of the text. The state is how
far the text has been read and the tokens that have been found. -/
def tokensTurn (opening closing text : List Char) (s : Nat × List TextToken) :
    Option ((Nat × List TextToken) ⊕ List TextToken) := do
  match ← interpolationAt opening closing text s.1 with
  | some (openAt, closeAt) =>
    let literal ← slice? text s.1 openAt
    let body ← slice? text (openAt + byteLength opening) closeAt
    let code ← filterChain (String.ofList (trimmed body))
    return .inl (closeAt + byteLength closing,
      s.2 ++ literalTokens literal ++ [.expression code])
  | none =>
    let rest ← sliceFrom? text s.1
    return .inr (s.2 ++ literalTokens rest)

def isExpression : TextToken → Bool
  | .expression _ => true
  | .literal _ => false

def interpolation (pair : Option (String × String)) (text : String) :
    Option (Option (List TextToken)) := do
  let (opening, closing) := delimiters pair
  let tokens ← loop? (fun s => byteLength text.toList - s.1)
    (tokensTurn opening closing text.toList) (0, [])
  return if tokens.any isExpression then some tokens else none

theorem append_eq_of_next?
    (h : next? opening closing text = some (before, body, after)) :
    text = before ++ (opening ++ (body ++ (closing ++ after))) ∧ body ≠ [] := by
  unfold Interpolation.next? at h
  split at h
  · next b first rest hopen =>
    obtain ⟨⟨x, y⟩, hclose, heq⟩ := map_eq_some_iff.mp h
    cases heq
    refine ⟨?_, cons_ne_nil _ _⟩
    rw [← append_eq_of_cut? hopen, ← append_eq_of_cut? hclose]
    simp
  · cases h

theorem interpolationAt_eq {done : List Char} (h : text = done ++ ahead) :
    interpolationAt opening closing text (byteLength done) =
      some ((next? opening closing ahead).map fun p =>
        (byteLength done + byteLength p.1,
          byteLength done + byteLength p.1 + byteLength opening + byteLength p.2.1)) := by
  unfold interpolationAt find? Interpolation.next?
  simp only [sliceFrom?_of_eq h rfl, bind_eq_bind, bind_some]
  cases hopen : cut? opening ahead with
  | none => rfl
  | some p =>
    obtain ⟨before, rest⟩ := p
    have htext : text = (done ++ (before ++ opening)) ++ rest := by
      rw [h, ← append_eq_of_cut? hopen]
      simp
    have hbody : sliceFrom? text (byteLength done + byteLength before + byteLength opening) =
        some rest := sliceFrom?_of_eq htext (by simp [Nat.add_assoc])
    simp only [map_some, hbody, bind_some]
    cases rest with
    | nil => rfl
    | cons first rest =>
      have htext' : text = (done ++ (before ++ opening) ++ [first]) ++ rest := by
        rw [htext]
        simp
      have hrest : sliceFrom? text
          (byteLength done + byteLength before + byteLength opening + first.utf8Size) =
            some rest := sliceFrom?_of_eq htext' (by simp [Nat.add_assoc])
      simp only [hrest, bind_some]
      cases cut? closing rest with
      | none => rfl
      | some q => simp [Nat.add_assoc]

theorem tokens_of_none (h : next? opening closing text = none) :
    tokens opening closing text = literalTokens text := by
  rw [tokens]
  split
  · next heq => rw [h] at heq; cases heq
  · rfl

theorem tokens_of_some (h : next? opening closing text = some (before, body, after)) :
    tokens opening closing text = literalTokens before ++
        .expression (FilterChain.parse (String.ofList (trimmed body))) ::
          tokens opening closing after := by
  rw [tokens]
  split
  · next heq =>
    rw [h] at heq
    cases heq
    rfl
  · next heq => rw [h] at heq; cases heq

theorem tokens_eq :
    loop? (fun s => byteLength text - s.1) (tokensTurn opening closing text) (0, []) =
      some (tokens opening closing text) := by
  have hstart : tokens opening closing text =
      [] ++ tokens opening closing ((sliceFrom? text 0).getD []) := by
    rw [sliceFrom?_zero]
    rfl
  rw [hstart]
  -- what has been found, and the tokens of the rest, are the tokens of the whole
  refine loop?_eq_some (fun s : Nat × List TextToken => (sliceFrom? text s.1).isSome)
    (fun s => s.2 ++ tokens opening closing ((sliceFrom? text s.1).getD []))
    (fun s hs => ?_) (by rw [sliceFrom?_zero]; rfl)
  obtain ⟨cursor, found⟩ := s
  obtain ⟨ahead, hahead⟩ := isSome_iff_exists.mp hs
  obtain ⟨done, htext, rfl⟩ := sliceFrom?_eq_some_iff.mp hahead
  unfold tokensTurn
  simp only [interpolationAt_eq htext, bind_eq_bind, bind_some, hahead]
  cases hnext : next? opening closing ahead with
  | none =>
    left
    rw [getD_some, tokens_of_none hnext]
    rfl
  | some p =>
    right
    obtain ⟨before, body, after⟩ := p
    obtain ⟨heq, hbody⟩ := append_eq_of_next? hnext
    rw [heq] at htext
    have hlit : slice? text (byteLength done) (byteLength done + byteLength before) =
        some before := slice?_of_eq htext rfl rfl
    have htext' : text = (done ++ (before ++ opening)) ++ (body ++ (closing ++ after)) := by
      simp [htext]
    have hbody' : slice? text (byteLength done + byteLength before + byteLength opening)
        (byteLength done + byteLength before + byteLength opening + byteLength body) = some body :=
      slice?_of_eq htext' (by simp [Nat.add_assoc]) rfl
    have htext'' : text = (done ++ (before ++ (opening ++ (body ++ closing)))) ++ after := by
      simp [htext]
    have hafter : sliceFrom? text (byteLength done + byteLength before + byteLength opening +
        byteLength body + byteLength closing) = some after :=
      sliceFrom?_of_eq htext'' (by simp [Nat.add_assoc])
    have hpos := byteLength_pos hbody
    have hlen := congrArg byteLength htext
    simp only [byteLength_append] at hlen
    simp only [map_some, hlit, hbody', filterChain_eq, bind_some]
    refine ⟨_, rfl, ?_, ?_, ?_⟩
    · omega
    · rw [hafter]
      rfl
    · rw [hafter, getD_some, getD_some, tokens_of_some hnext]
      simp

theorem any_isExpression_tokens : (tokens opening closing text).any isExpression =
      (next? opening closing text).isSome := by
  cases hnext : next? opening closing text with
  | none =>
    rw [tokens_of_none hnext]
    unfold literalTokens
    split <;> rfl
  | some p =>
    rw [tokens_of_some hnext]
    simp [isExpression]

theorem interpolation_eq (pair : Option (String × String)) (text : String) :
    interpolation pair text = some (parse? pair text) := by
  unfold interpolation parse?
  simp only [tokens_eq, bind_eq_bind, bind_some, any_isExpression_tokens]
  rfl

end Interpolations

end TemplateCompiler.Sliced
