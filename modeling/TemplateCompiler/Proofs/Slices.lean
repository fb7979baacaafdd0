import Mathlib.Data.List.Basic
import Mathlib.Data.List.TakeWhile
import TemplateCompiler.Text.Blank
import TemplateCompiler.Text.Cut

/-!
# Slices of texts

A text that is stored as UTF-8 is cut up by byte offsets. `slice?` is the part of a text between two
of them. There is no such part if the offsets are out of order or out of bounds, or if one of them
lies inside a character (`isSome_slice?_iff`).

The readers of this library take characters off the front of a list instead. The modules that follow
give them a second form, which keeps offsets and takes slices as a program over one buffer does, and
in which a slice that is not there is a failure. Each of these forms is proved to give what the
reader gives, so none of its slices is missing.

A reader over offsets often is a loop, and a loop has to get ahead. `loop?` fails if it does not;
`loop?_eq_some` is the rule for it.
-/

namespace TemplateCompiler.Text

open List Option

variable {cs piece before after rest opening mark xs ys : List Char} {start stop : Nat} {α : Type}
  {c : Char} {s : String}

/-! ## Parts of a text -/

/-- The part of a text between two byte offsets, if there is one. -/
def slice? (cs : List Char) (start stop : Nat) : Option (List Char) :=
  if start ≤ stop then
    (takeBytes? start cs).bind fun before => takeBytes? (stop - start) (cs.drop before.length)
  else none

def sliceFrom? (cs : List Char) (start : Nat) : Option (List Char) :=
  slice? cs start (byteLength cs)

def sliceTo? (cs : List Char) (stop : Nat) : Option (List Char) := slice? cs 0 stop

/-- The byte offset of the first occurrence of a mark. -/
def find? (mark cs : List Char) : Option Nat := (cut? mark cs).map fun p => byteLength p.1

/-- The byte offset of the last occurrence of a character. -/
def findLast? (mark : Char) (cs : List Char) : Option Nat :=
  (cutLast? mark cs).map fun p => byteLength p.1

/-- The part of a list between two positions, if there is one. -/
def range? {α : Type} (xs : List α) (start stop : Nat) : Option (List α) :=
  if start ≤ stop ∧ stop ≤ xs.length then some ((xs.take stop).drop start) else none

@[simp] theorem byteLength_nil : byteLength [] = 0 := rfl

@[simp] theorem byteLength_cons : byteLength (c :: cs) = c.utf8Size + byteLength cs := rfl

@[simp] theorem byteLength_append : byteLength (xs ++ ys) = byteLength xs + byteLength ys := by
  induction xs with
  | nil => simp
  | cons c cs ih => simp [ih, Nat.add_assoc]

@[simp] theorem byteLength_reverse : byteLength cs.reverse = byteLength cs := by
  induction cs with
  | nil => rfl
  | cons c cs ih => simp [ih, Nat.add_comm]

theorem length_le_byteLength : cs.length ≤ byteLength cs := by
  induction cs with
  | nil => exact Nat.le_refl 0
  | cons c cs ih =>
    have := c.utf8Size_pos
    simp only [length_cons, byteLength_cons]
    omega

theorem byteLength_pos (h : cs ≠ []) : 0 < byteLength cs :=
  Nat.lt_of_lt_of_le (length_pos_iff.mpr h) length_le_byteLength

@[simp] theorem byteLength_eq_zero_iff : byteLength cs = 0 ↔ cs = [] := by
  refine ⟨fun h => ?_, fun h => h ▸ rfl⟩
  cases cs with
  | nil => rfl
  | cons c cs => exact absurd h (Nat.ne_of_gt (byteLength_pos (cons_ne_nil c cs)))

theorem byteLength_toList (s : String) : byteLength s.toList = s.utf8ByteSize := by
  have hofList (cs : List Char) : byteLength cs = (String.ofList cs).utf8ByteSize := by
    induction cs with
    | nil => simp
    | cons c cs ih =>
      rw [byteLength_cons, ih, ← singleton_append, String.ofList_append,
        String.utf8ByteSize_append, ← String.singleton_eq_ofList, String.utf8ByteSize_singleton]
  rw [hofList, String.ofList_toList]

theorem takeBytes?_append (taken rest : List Char) :
    takeBytes? (byteLength taken) (taken ++ rest) = some taken := by
  induction taken with
  | nil =>
    unfold takeBytes?
    rfl
  | cons c taken ih =>
    have hpos := c.utf8Size_pos
    unfold takeBytes?
    rw [byteLength_cons, if_neg (by omega), cons_append]
    dsimp only
    rw [if_pos (by omega), Nat.add_sub_cancel_left, ih, map_some]

theorem takeBytes?_eq_some_iff {n : Nat} {taken : List Char} :
    takeBytes? n cs = some taken ↔ ∃ rest, cs = taken ++ rest ∧ byteLength taken = n := by
  constructor
  · intro h
    induction cs generalizing n taken with
    | nil =>
      unfold takeBytes? at h
      split at h
      · next hn =>
        cases h
        exact ⟨[], rfl, hn.symm⟩
      · cases h
    | cons c cs ih =>
      unfold takeBytes? at h
      split at h
      · next hn =>
        cases h
        exact ⟨c :: cs, rfl, hn.symm⟩
      · dsimp only at h
        split at h
        · next hle =>
          obtain ⟨taken', htaken', rfl⟩ := map_eq_some_iff.mp h
          obtain ⟨rest, rfl, hlen⟩ := ih htaken'
          exact ⟨rest, rfl, by rw [byteLength_cons]; omega⟩
        · cases h
  · rintro ⟨rest, rfl, rfl⟩
    exact takeBytes?_append taken rest

theorem slice?_eq_some_iff :
    slice? cs start stop = some piece ↔ ∃ before after, cs = before ++ (piece ++ after) ∧
      byteLength before = start ∧ byteLength before + byteLength piece = stop := by
  unfold slice?
  constructor
  · intro h
    split at h
    · next hle =>
      obtain ⟨before, hbef, hpiece⟩ := bind_eq_some_iff.mp h
      obtain ⟨rest, rfl, hlen⟩ := takeBytes?_eq_some_iff.mp hbef
      rw [drop_left] at hpiece
      obtain ⟨after, rfl, hlen'⟩ := takeBytes?_eq_some_iff.mp hpiece
      exact ⟨before, after, rfl, hlen, by omega⟩
    · cases h
  · rintro ⟨before, after, rfl, rfl, rfl⟩
    rw [if_pos (Nat.le_add_right _ _), Nat.add_sub_cancel_left, takeBytes?_append,
      bind_some, drop_left, takeBytes?_append]

/-- Of two starts of one text, the shorter one is a start of the longer one. -/
theorem exists_append_of_byteLength_le {longer : List Char} (h : before ++ rest = longer ++ after)
    (hle : byteLength before ≤ byteLength longer) :
    ∃ piece, longer = before ++ piece ∧ rest = piece ++ after := by
  rcases append_eq_append_iff.mp h with ⟨piece, hlonger, hrest⟩ | ⟨extra, hbef, hafter⟩
  · exact ⟨piece, hlonger, hrest⟩
  · have hnil : byteLength extra = 0 := by
      rw [hbef, byteLength_append] at hle
      omega
    obtain rfl := byteLength_eq_zero_iff.mp hnil
    exact ⟨[], by rw [hbef, append_nil, append_nil], hafter.symm⟩

/-- An offset is a position of a text if it is in bounds and at the border of a character. -/
theorem isValid_iff {p : Nat} : (⟨p⟩ : String.Pos.Raw).IsValid s ↔
      ∃ before after, s.toList = before ++ after ∧ byteLength before = p := by
  rw [String.Pos.Raw.isValid_iff_exists_append]
  constructor
  · rintro ⟨before, after, rfl, hp⟩
    refine ⟨before.toList, after.toList, String.toList_append, ?_⟩
    rw [byteLength_toList]
    exact (congrArg String.Pos.Raw.byteIdx hp).symm
  · rintro ⟨before, after, hs, rfl⟩
    refine ⟨String.ofList before, String.ofList after, ?_, ?_⟩
    · rw [← String.ofList_append, ← hs, String.ofList_toList]
    · rw [← String.toList_ofList (l := before), byteLength_toList, String.toList_ofList]
      rfl

/-- A slice is there if its offsets are in order and both are positions of the text. -/
theorem isSome_slice?_iff : (slice? s.toList start stop).isSome ↔ start ≤ stop ∧
      (⟨start⟩ : String.Pos.Raw).IsValid s ∧ (⟨stop⟩ : String.Pos.Raw).IsValid s := by
  rw [isValid_iff, isValid_iff]
  constructor
  · intro h
    obtain ⟨piece, hpiece⟩ := isSome_iff_exists.mp h
    obtain ⟨before, after, hs, rfl, rfl⟩ := slice?_eq_some_iff.mp hpiece
    refine ⟨Nat.le_add_right _ _, ⟨before, _, hs, rfl⟩, before ++ piece, after, ?_, ?_⟩
    · rw [hs, List.append_assoc]
    · rw [byteLength_append]
  · rintro ⟨hle, ⟨before, rest, hs, rfl⟩, longer, after, hs', rfl⟩
    obtain ⟨piece, rfl, rfl⟩ := exists_append_of_byteLength_le (hs.symm.trans hs') hle
    refine isSome_of_eq_some (slice?_eq_some_iff.mpr ⟨before, after, hs, rfl, ?_⟩)
    rw [byteLength_append]

/-! ## Slices of a text whose parts are known -/

theorem slice?_of_eq (h : cs = before ++ (piece ++ after)) (hstart : byteLength before = start)
    (hstop : start + byteLength piece = stop) : slice? cs start stop = some piece :=
  slice?_eq_some_iff.mpr ⟨before, after, h, hstart, hstart ▸ hstop⟩

theorem sliceFrom?_of_eq (h : cs = before ++ rest)
    (hstart : byteLength before = start) : sliceFrom? cs start = some rest := by
  have hend : cs = before ++ (rest ++ []) := by rw [h, append_nil]
  refine slice?_of_eq hend hstart ?_
  rw [h, byteLength_append, hstart]

theorem sliceFrom?_eq_some_iff : sliceFrom? cs start = some rest ↔
      ∃ before, cs = before ++ rest ∧ byteLength before = start := by
  refine ⟨fun h => ?_, fun ⟨before, hcs, hstart⟩ => sliceFrom?_of_eq hcs hstart⟩
  obtain ⟨before, after, hcs, hstart, hstop⟩ := slice?_eq_some_iff.mp h
  -- the slice goes to the end, so nothing comes after it
  cases after with
  | nil => exact ⟨before, by rw [hcs, append_nil], hstart⟩
  | cons c after =>
    have hpos := byteLength_pos (cons_ne_nil c after)
    rw [hcs, byteLength_append, byteLength_append] at hstop
    omega

theorem byteLength_of_sliceFrom?
    (h : sliceFrom? cs start = some rest) : byteLength cs = start + byteLength rest := by
  obtain ⟨before, rfl, rfl⟩ := sliceFrom?_eq_some_iff.mp h
  rw [byteLength_append]

theorem sliceFrom?_zero : sliceFrom? cs 0 = some cs :=
  sliceFrom?_eq_some_iff.mpr ⟨[], rfl, rfl⟩

theorem sliceFrom?_cons (c : Char) (cs : List Char) : sliceFrom? (c :: cs) c.utf8Size = some cs :=
  sliceFrom?_of_eq (singleton_append).symm rfl

theorem sliceTo?_of_eq (h : cs = piece ++ after)
    (hstop : byteLength piece = stop) : sliceTo? cs stop = some piece :=
  slice?_eq_some_iff.mpr ⟨[], after, h, rfl, by simp [hstop]⟩

theorem range?_of_eq {xs before piece after : List α}
    (h : xs = before ++ (piece ++ after)) (hstart : before.length = start)
    (hstop : start + piece.length = stop) : range? xs start stop = some piece := by
  subst h hstart hstop
  unfold range?
  rw [if_pos (by simp), ← List.append_assoc, ← length_append, take_left, drop_left]

/-! ## Slices at a mark -/

section Marks

variable {mark cs before after : List Char} {m : Char}

theorem sliceTo?_of_cut? (h : cut? mark cs = some (before, after)) :
    sliceTo? cs (byteLength before) = some before := by
  have hcs := (append_eq_of_cut? h).symm
  rw [List.append_assoc] at hcs
  exact sliceTo?_of_eq hcs rfl

theorem sliceFrom?_of_cut? (h : cut? mark cs = some (before, after)) :
    sliceFrom? cs (byteLength before + byteLength mark) = some after :=
  sliceFrom?_of_eq (append_eq_of_cut? h).symm byteLength_append

section

variable (h : cutLast? m cs = some (before, after))

include h

theorem append_eq_of_cutLast? : before ++ m :: after = cs := by
  obtain ⟨⟨after', before'⟩, hcut, heq⟩ := map_eq_some_iff.mp h
  cases heq
  have := congrArg List.reverse (append_eq_of_cut? hcut)
  simpa using this

theorem sliceTo?_of_cutLast? : sliceTo? cs (byteLength before) = some before :=
  sliceTo?_of_eq (append_eq_of_cutLast? h).symm rfl

theorem sliceFrom?_of_cutLast? : sliceFrom? cs (byteLength before + m.utf8Size) = some after := by
  have hcs := (append_eq_of_cutLast? h).symm
  rw [← singleton_append, ← List.append_assoc] at hcs
  exact sliceFrom?_of_eq hcs (by simp)

end

theorem cut?_singleton_cons : cut? [m] (c :: cs) =
      if m = c then some ([], cs) else (cut? [m] cs).map fun p => (c :: p.1, p.2) := by
  have hfirst : [m].isPrefixOf? (c :: cs) = if m == c then some cs else none := rfl
  rw [cut?, hfirst]
  by_cases h : m = c
  · simp [h]
  · simp [h]

theorem find?_of_cut? (h : cut? mark cs = some (before, after)) :
    find? mark cs = some (byteLength before) := by
  rw [find?, h]
  rfl

/-- A search for a character goes past the ones that differ from it. -/
theorem find?_cons_of_ne (h : m ≠ c) :
    find? [m] (c :: cs) = (find? [m] cs).map (c.utf8Size + ·) := by
  rw [find?, cut?_singleton_cons, if_neg h, find?]
  cases cut? [m] cs <;> rfl

theorem not_mem_of_cut?_eq_none (h : cut? [m] cs = none) : m ∉ cs := by
  induction cs with
  | nil => simp
  | cons c cs ih =>
    rw [cut?_singleton_cons] at h
    split at h
    · cases h
    · next hne => simp [hne, ih (map_eq_none_iff.mp h)]

theorem isPrefixOf?_append : mark.isPrefixOf? (mark ++ after) = some after :=
  isPrefixOf?_eq_some_iff_append_eq.mpr rfl

theorem isPrefixOf?_eq_none (h : ¬ mark <+: cs) : mark.isPrefixOf? cs = none := by
  cases hfound : mark.isPrefixOf? cs with
  | none => rfl
  | some after => exact absurd ⟨after, append_eq_of_isPrefixOf? hfound⟩ h

/-- A cut is at the first occurrence of the mark. One that starts before it would reach into it. -/
theorem cut?_eq_some_iff : cut? mark cs = some (before, after) ↔ before ++ mark ++ after = cs ∧
      ∀ xs ys, before = xs ++ ys → ys ≠ [] → ¬ mark <+: ys ++ mark := by
  constructor
  · intro h
    refine ⟨append_eq_of_cut? h, ?_⟩
    fun_induction cut? mark cs generalizing before with
    | case1 cs rest hfound =>
      cases h
      exact fun xs ys hsplit hys => absurd (append_eq_nil_iff.mp hsplit.symm).2 hys
    | case2 => cases h
    | case3 c cs hnone ih =>
      obtain ⟨⟨before', after'⟩, hcut, heq⟩ := map_eq_some_iff.mp h
      cases heq
      intro xs ys hsplit hys hstart
      cases xs with
      | nil =>
        -- a mark at the start would have been found there
        obtain rfl : c :: before' = ys := hsplit
        have hrest : c :: before' ++ mark <+: c :: cs :=
          ⟨after', congrArg (c :: ·) (append_eq_of_cut? hcut)⟩
        obtain ⟨tail, htail⟩ := hstart.trans hrest
        rw [← htail, isPrefixOf?_append] at hnone
        cases hnone
      | cons x xs => exact ih hcut xs ys (cons.inj hsplit).2 hys hstart
  · rintro ⟨rfl, h⟩
    induction before with
    | nil => rw [nil_append, cut?.eq_def, isPrefixOf?_append]
    | cons c before ih =>
      have hhere : ¬ mark <+: c :: (before ++ mark ++ after) := fun hstart =>
        h [] (c :: before) rfl (cons_ne_nil c before)
          (prefix_of_prefix_length_le hstart ⟨after, rfl⟩ (by simp; omega))
      have hlater := ih fun xs ys hsplit => h (c :: xs) ys (by rw [hsplit, cons_append])
      rw [cons_append, cons_append, cut?, isPrefixOf?_eq_none hhere]
      simp only [hlater, map_some]

/-- Where a mark is first found does not depend on what follows it. -/
theorem cut?_mark (h : cut? mark cs = some (before, after)) (after' : List Char) :
    cut? mark (before ++ mark ++ after') = some (before, after') :=
  cut?_eq_some_iff.mpr ⟨rfl, (cut?_eq_some_iff.mp h).2⟩

theorem not_infix_of_cut? (hmark : mark ≠ []) (h : cut? mark cs = some (before, after)) :
    ¬ mark <:+: before := by
  rintro ⟨xs, zs, rfl⟩
  refine (cut?_eq_some_iff.mp h).2 xs (mark ++ zs) (List.append_assoc ..) (by simp [hmark]) ?_
  rw [List.append_assoc]
  exact prefix_append _ _

/-- A mark that holds its first character once is found where no mark is before it. -/
theorem cut?_cons_eq_some_iff (hm : m ∉ mark) : cut? (m :: mark) cs = some (before, after) ↔
    before ++ m :: mark ++ after = cs ∧ ¬ m :: mark <:+: before := by
  constructor
  · exact fun h => ⟨append_eq_of_cut? h, not_infix_of_cut? (cons_ne_nil m mark) h⟩
  · rintro ⟨hparts, hfirst⟩
    refine cut?_eq_some_iff.mpr ⟨hparts, fun xs ys hsplit hys hstart => ?_⟩
    have hinside (h : m :: mark <+: ys) : False :=
      hfirst (h.isInfix.trans ⟨xs, [], by rw [hsplit, append_nil]⟩)
    rcases prefix_or_prefix_of_prefix hstart (prefix_append ys _) with h | ⟨zs, hzs⟩
    · exact hinside h
    · rw [← hzs, prefix_append_right_inj, hzs] at hstart
      match ys, zs with
      | [], _ => exact hys rfl
      | y :: ys, [] => exact hinside ⟨[], by rw [← hzs, append_nil, append_nil]⟩
      -- one that starts before and ends behind would hold its first character again
      | y :: ys, z :: zs =>
        obtain rfl := (cons_prefix_cons.mp hstart).1
        exact hm ((List.cons.inj hzs).2 ▸ by simp)

theorem cut?_singleton_append (h : m ∉ before) (after : List Char) :
    cut? [m] (before ++ m :: after) = some (before, after) :=
  (cut?_cons_eq_some_iff not_mem_nil).mpr
    ⟨by simp, fun hmark => h (hmark.subset (mem_singleton_self m))⟩

theorem not_mem_of_cut? (h : cut? [m] cs = some (before, after)) : m ∉ before := by
  intro hmem
  obtain ⟨xs, ys, rfl⟩ := append_of_mem hmem
  exact not_infix_of_cut? (cons_ne_nil m []) h ⟨xs, ys, by simp⟩

theorem behind_or_inside {ahead : List Char}
    (hopening : opening.isPrefixOf ahead) (hcut : cut? mark ahead = some (before, after))
    (hmark : mark ≠ []) :
    (∃ inner, before = opening ++ inner) ∨
      ∃ x xs, opening = before ++ x :: xs ∧ mark.head? = some x := by
  obtain ⟨tail, rfl⟩ := isPrefixOf_iff_prefix.mp hopening
  have hparts := append_eq_of_cut? hcut
  rw [List.append_assoc, append_eq_append_iff] at hparts
  rcases hparts with ⟨extra, rfl, hextra⟩ | ⟨inner, rfl, -⟩
  · cases extra with
    | nil => exact .inl ⟨[], by simp⟩
    | cons x xs =>
      refine .inr ⟨x, xs, rfl, ?_⟩
      cases mark with
      | nil => exact absurd rfl hmark
      | cons m mark => exact congrArg List.head? (congrArg (List.take 1) hextra)
  · exact .inl ⟨inner, rfl⟩

/-- A mark that starts with no character of an opening is found behind all of it. -/
theorem opening_prefix_of_cut?
    (hopening : opening.isPrefixOf cs) (hcut : cut? mark cs = some (before, after))
    (hmark : mark ≠ []) (hapart : opening.all fun x => mark.head? ≠ some x) :
    ∃ inner, before = opening ++ inner := by
  rcases behind_or_inside hopening hcut hmark with hbehind | ⟨x, xs, heq, hx⟩
  · exact hbehind
  · refine absurd hx (of_decide_eq_true (List.all_eq_true.mp hapart x ?_))
    rw [heq]
    simp

end Marks

/-! ## Loops -/

/-- Takes steps until one gives a result. It fails if a step fails or does not make the state
smaller. -/
def loop? {σ α : Type} (size : σ → Nat) (step : σ → Option (σ ⊕ α)) (s : σ) : Option α :=
  match step s with
  | some (.inl s') => if size s' < size s then loop? size step s' else none
  | some (.inr result) => some result
  | none => none
termination_by size s

/-- A loop gives the result that is kept by its steps, if they keep an invariant and get ahead. -/
theorem loop?_eq_some {σ : Type} {size : σ → Nat} {step : σ → Option (σ ⊕ α)}
    (Holds : σ → Prop) (result : σ → α)
    (hstep : ∀ s, Holds s → step s = some (.inr (result s)) ∨
      ∃ s', step s = some (.inl s') ∧ size s' < size s ∧ Holds s' ∧ result s' = result s)
    {s : σ} (hs : Holds s) : loop? size step s = some (result s) := by
  induction hn : size s using Nat.strongRecOn generalizing s with
  | ind n ih =>
    unfold loop?
    rcases hstep s hs with hdone | ⟨s', hnext, hlt, hs', hres⟩
    · rw [hdone]
    · rw [hnext]
      dsimp only
      rw [if_pos hlt, ← hres]
      exact ih _ (hn ▸ hlt) hs' rfl

/-! ## Runs and trimming -/

variable {front : List Char}

theorem trimStart_append (h : trimStart front ≠ []) :
    trimStart (front ++ rest) = trimStart front ++ rest := by
  unfold trimStart at h ⊢
  rw [dropWhile_append, if_neg fun hnil => h (List.isEmpty_iff.mp hnil)]

theorem trimEnd_append (h : isBlankChar c = false) (front rest : List Char) :
    trimEnd (front ++ c :: rest) = front ++ c :: trimEnd rest := by
  have hdrop : (rest.reverse ++ c :: front.reverse).dropWhile isBlankChar =
      rest.reverse.dropWhile isBlankChar ++ c :: front.reverse := by
    rw [dropWhile_append, dropWhile_cons_of_neg (by simp [h])]
    split
    · next hnil => rw [List.isEmpty_iff.mp hnil, nil_append]
    · rfl
  simp [trimEnd, hdrop]

theorem trimEnd_append_blank (cs : List Char) : ∃ blank, cs = trimEnd cs ++ blank := by
  refine ⟨(cs.reverse.takeWhile isBlankChar).reverse, ?_⟩
  rw [trimEnd, ← reverse_append, takeWhile_append_dropWhile, reverse_reverse]

/-- A run of characters ends where one of another kind follows. -/
theorem takeWhile_dropWhile_iff {p : Char → Bool} : cs.takeWhile p = front ∧ cs.dropWhile p = rest ↔
    (∀ c ∈ front, p c) ∧ (∀ c ∈ rest.head?, p c = false) ∧ cs = front ++ rest := by
  constructor
  · rintro ⟨rfl, rfl⟩
    refine ⟨fun _ => mem_takeWhile_imp, fun c hc => ?_, takeWhile_append_dropWhile.symm⟩
    have hhead := head?_dropWhile_not p cs
    rwa [hc] at hhead
  · rintro ⟨hfront, hrest, rfl⟩
    rw [takeWhile_append_of_pos hfront, dropWhile_append_of_pos hfront]
    cases rest with
    | nil => exact ⟨append_nil _, rfl⟩
    | cons d ds => simp [hrest d rfl]

theorem dropWhile_eq_self_iff {p : Char → Bool} :
    cs.dropWhile p = cs ↔ ∀ c ∈ cs.head?, p c = false :=
  ⟨fun h => (takeWhile_dropWhile_iff.mp ⟨rfl, h⟩).2.1,
    fun h => (takeWhile_dropWhile_iff.mpr ⟨forall_mem_nil _, h, rfl⟩).2⟩

theorem trimmed_eq_self_iff : trimmed cs = cs ↔
    (∀ c ∈ cs.head?, isBlankChar c = false) ∧ ∀ c ∈ cs.getLast?, isBlankChar c = false := by
  have hend (ds : List Char) : trimEnd ds = ds ↔ ∀ c ∈ ds.getLast?, isBlankChar c = false := by
    rw [← head?_reverse, ← dropWhile_eq_self_iff, trimEnd, reverse_eq_iff]
  constructor
  · intro h
    have hstart : trimStart cs = cs := by
      refine (dropWhile_suffix _).eq_of_length_le ?_
      have hlen := (dropWhile_sublist isBlankChar (l := (trimStart cs).reverse)).length_le
      rw [length_reverse] at hlen
      calc cs.length = (trimEnd (trimStart cs)).length := congrArg length h.symm
        _ ≤ (trimStart cs).length := by rw [trimEnd, length_reverse]; exact hlen
    refine ⟨dropWhile_eq_self_iff.mp hstart, (hend cs).mp ?_⟩
    rwa [trimmed, hstart] at h
  · rintro ⟨hfirst, hlast⟩
    rw [trimmed, show trimStart cs = cs from dropWhile_eq_self_iff.mpr hfirst, (hend cs).mpr hlast]

end TemplateCompiler.Text
