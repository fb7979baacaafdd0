import TemplateCompiler.Proofs.ListenerKeys
import TemplateCompiler.Proofs.Spelling

/-!
# Camel case

A hyphen before a word goes, with the first character of the word in upper case. The name of a
listener may pass through this twice: the listener that writes a bound value back is registered
under a name in camel case, and the keys of the data object are put in camel case again.

A second pass finds something left to do exactly if two hyphens stand before a word: of `--a` the
first pass leaves `-A`, and the second `A`. The texts that a pass keeps are those without a hyphen
before a word (`camelizeChars_eq_self_iff`), and a pass leaves such a hyphen only where there were
two (`wordIn_camelizeChars`).
-/

namespace TemplateCompiler

open List

namespace Text

variable {c w : Char} {cs us : List Char}

/-! ## Words in upper case -/

/-- Whether one of the runs holds all code points from `m` to `n`. -/
def covers : List (Nat × Nat) → Nat → Nat → Bool
  | [], _, _ => false
  | (gap, length) :: rest, m, n =>
    gap.ble m && (n.blt (gap + length) || covers rest (m - (gap + length)) (n - (gap + length)))

theorem inRuns_of_covers {runs : List (Nat × Nat)} {m n k : Nat} (h : covers runs m n)
    (hm : m ≤ k) (hn : k ≤ n) : inRuns runs k := by
  induction runs generalizing m n k with
  | nil => cases h
  | cons run rest ih =>
    obtain ⟨gap, length⟩ := run
    rw [covers, Bool.and_eq_true, Bool.or_eq_true, Nat.ble_eq, Nat.blt_eq] at h
    rw [inRuns, if_neg (by omega), Bool.or_eq_true, decide_eq_true_eq]
    exact h.2.imp (Nat.lt_of_le_of_lt hn) fun h => ih h (by omega) (by omega)

/-- Whether all code points from `m` to `n` are letters. -/
def areLetters (m n : Nat) : Bool :=
  covers letterRuns m n && (n.blt 0xD800 || Nat.blt 0xDFFF m && n.blt 0x110000)

theorem isLetter_of_areLetters {m n k : Nat} (h : areLetters m n) (hm : m ≤ k) (hn : k ≤ n) :
    isLetter (Char.ofNat k) := by
  simp only [areLetters, Bool.and_eq_true, Bool.or_eq_true, Nat.blt_eq] at h
  have hvalid : k.isValidChar := by
    unfold Nat.isValidChar
    omega
  have hk : (Char.ofNat k).toNat = k := by
    rw [Char.ofNat, dif_pos hvalid]
    rfl
  rw [isLetter, hk]
  exact inRuns_of_covers h.1 hm hn

/-- Whether a run moves all its characters to letters: as a range, or else one by one. -/
def toLetters (run : Nat × Nat × Nat × Int) : Bool :=
  let moved (n : Nat) := (n + run.2.2.2).toNat
  areLetters (moved run.1) (moved (run.1 + run.2.2.1 * (run.2.1 - 1))) ||
    (range run.2.1).all fun i =>
      areLetters (moved (run.1 + run.2.2.1 * i)) (moved (run.1 + run.2.2.1 * i))

theorem toLetters_upperRuns : upperRuns.all toLetters := by decide +kernel

theorem isLetter_shiftIn {runs : List (Nat × Nat × Nat × Int)} (h : runs.all toLetters)
    (n : Nat) : shiftIn runs n = n ∨ isLetter (Char.ofNat (shiftIn runs n)) := by
  induction runs with
  | nil => exact .inl rfl
  | cons run runs ih =>
    obtain ⟨first, count, step, shift⟩ := run
    rw [all_cons, Bool.and_eq_true, toLetters, Bool.or_eq_true, all_eq_true] at h
    unfold shiftIn
    split
    · exact .inl rfl
    · split
      · next hfirst hrun =>
        rw [Bool.and_eq_true, decide_eq_true_eq, beq_iff_eq] at hrun
        have hn : first + step * ((n - first) / step) = n := by
          rw [Nat.mul_div_cancel' (Nat.dvd_of_mod_eq_zero hrun.1)]
          omega
        refine .inr ?_
        rcases h.1 with hall | heach
        · have hle := Nat.mul_le_mul_left step (Nat.le_sub_one_of_lt hrun.2)
          exact isLetter_of_areLetters hall (by dsimp only; omega) (by dsimp only; omega)
        · have hone := heach _ (mem_range.mpr hrun.2)
          dsimp only at hone
          rw [hn] at hone
          exact isLetter_of_areLetters hone (Nat.le_refl _) (Nat.le_refl _)
      · exact ih h.2

theorem areLetters_upperSequences : upperSequences.all fun entry =>
    (entry.2.head?.any fun n => areLetters n n) && !(entry.2.map Char.ofNat).contains '-' := by
  decide +kernel

/-- A word character stays one in upper case, which may have more characters but no hyphen. -/
theorem upper_startsWord (h : startsWord w) :
    ∃ u us, upper w = u :: us ∧ startsWord u ∧ '-' ∉ upper w := by
  have hletter {u : Char} (hu : isLetter u) : startsWord u := by
    simp [startsWord, isAlphanumeric, hu]
  have hone {u : Char} (hu : startsWord u) :
      ∃ d ds, [u] = d :: ds ∧ startsWord d ∧ '-' ∉ [u] := by
    refine ⟨u, [], rfl, hu, fun hmem => ?_⟩
    rw [← mem_singleton.mp hmem] at hu
    exact absurd hu (by decide)
  unfold upper
  split
  · next codes hcodes =>
    obtain ⟨_, _, hmem, -⟩ := lookup_eq_some_iff.mp hcodes
    have hentry := all_eq_true.mp areLetters_upperSequences (w.toNat, codes) (by simp [hmem])
    rw [Bool.and_eq_true, Option.any_eq_true] at hentry
    obtain ⟨⟨n, hn, hfirst⟩, hhyphen⟩ := hentry
    obtain ⟨rest, rfl⟩ := head?_eq_some_iff.mp hn
    exact ⟨_, _, rfl, hletter (isLetter_of_areLetters hfirst (Nat.le_refl _) (Nat.le_refl _)),
      by simpa using hhyphen⟩
  · rcases isLetter_shiftIn toLetters_upperRuns w.toNat with heq | hu
    · rw [heq, Char.ofNat_toNat]
      exact hone h
    · exact hone (hletter hu)

/-! ## Hyphens before words -/

/-- The text begins with a mark and a word behind it. -/
def WordAt (mark cs : List Char) : Prop := ∃ w, startsWord w ∧ mark ++ [w] <+: cs

/-- The text has a mark with a word behind it. -/
def WordIn (mark cs : List Char) : Prop := ∃ w, startsWord w ∧ mark ++ [w] <:+: cs

section

variable {m : Char} {mark : List Char}

@[simp] theorem not_wordAt_nil : ¬ WordAt mark [] := by simp [WordAt]

@[simp] theorem wordAt_nil_cons : WordAt [] (c :: cs) ↔ startsWord c := by simp [WordAt]

@[simp] theorem wordAt_cons_cons : WordAt (m :: mark) (c :: cs) ↔ m = c ∧ WordAt mark cs := by
  simp [WordAt, and_left_comm]

@[simp] theorem not_wordIn_nil : ¬ WordIn mark [] := by simp [WordIn]

@[simp] theorem wordIn_cons : WordIn mark (c :: cs) ↔ WordAt mark (c :: cs) ∨ WordIn mark cs := by
  simp [WordIn, WordAt, infix_cons_iff, and_or_left, exists_or]

theorem wordIn_append (h : m ∉ us) : WordIn (m :: mark) (us ++ cs) ↔ WordIn (m :: mark) cs := by
  induction us with
  | nil => rfl
  | cons u us ih =>
    rw [mem_cons, not_or] at h
    simp [h.1, ih h.2]

end

/-! ## One pass and two -/

/-- A pass goes over a text in two kinds of steps: a hyphen before a word goes, and any other
character is kept. -/
theorem camelizeChars_induction {P : List Char → List Char → Prop} (nil : P [] [])
    (word : ∀ w rest, startsWord w → P rest (camelizeChars rest) →
      P ('-' :: w :: rest) (upper w ++ camelizeChars rest))
    (kept : ∀ c rest, ¬ WordAt ['-'] (c :: rest) → P rest (camelizeChars rest) →
      P (c :: rest) (c :: camelizeChars rest)) (cs : List Char) : P cs (camelizeChars cs) := by
  fun_induction camelizeChars cs with
  | case1 => exact nil
  | case2 c => exact kept c [] (by simp) nil
  | case3 w rest hw ih => exact word w rest hw ih
  | case4 c rest hw ih => exact kept '-' _ (by simpa using hw) ih
  | case5 c rest hlong hhyphen ih =>
    refine kept c rest (fun h => ?_) ih
    rw [wordAt_cons_cons] at h
    cases rest with
    | nil => exact not_wordAt_nil h.2
    | cons d rest => exact hhyphen d rest h.1.symm rfl

theorem camelizeChars_cons (h : '-' ≠ c) : camelizeChars (c :: cs) = c :: camelizeChars cs := by
  cases cs with
  | nil => rfl
  | cons d cs => simp [camelizeChars, h.symm]

theorem camelizeChars_append (h : '-' ∉ us) :
    camelizeChars (us ++ cs) = us ++ camelizeChars cs := by
  induction us with
  | nil => rfl
  | cons u us ih =>
    rw [mem_cons, not_or] at h
    rw [cons_append, camelizeChars_cons h.1, ih h.2]
    rfl

/-- A pass keeps a text exactly if no hyphen stands before a word. -/
theorem camelizeChars_eq_self_iff : camelizeChars cs = cs ↔ ¬ WordIn ['-'] cs := by
  induction cs using camelizeChars_induction with
  | nil => simp
  | word w rest hw ih =>
    obtain ⟨u, us, hupper, hu, -⟩ := upper_startsWord hw
    have hne : u ≠ '-' := by
      rintro rfl
      exact absurd hu (by decide)
    simp [hupper, hw, hne]
  | kept c rest h ih => simp [h, ih, -wordAt_cons_cons]

theorem wordAt_camelizeChars :
    WordAt [] (camelizeChars cs) ↔ WordAt [] cs ∨ WordAt ['-'] cs := by
  induction cs using camelizeChars_induction with
  | nil => simp
  | word w rest hw ih =>
    obtain ⟨u, us, hupper, hu, -⟩ := upper_startsWord hw
    simp [hupper, hw, hu]
  | kept c rest h ih => simp [h, -wordAt_cons_cons]

/-- A pass leaves a hyphen before a word where there were two, and nowhere else. -/
theorem wordIn_camelizeChars : WordIn ['-'] (camelizeChars cs) ↔ WordIn ['-', '-'] cs := by
  induction cs using camelizeChars_induction with
  | nil => simp
  | word w rest hw ih =>
    obtain ⟨u, us, -, -, hhyphen⟩ := upper_startsWord hw
    have hne : '-' ≠ w := by
      rintro rfl
      exact absurd hw (by decide)
    rw [wordIn_append hhyphen, ih]
    simp [hne]
  | kept c rest h ih =>
    simp only [wordIn_cons, wordAt_cons_cons, ih, wordAt_camelizeChars] at h ⊢
    grind

theorem camelize_camelize_iff (s : String) :
    camelize (camelize s) = camelize s ↔ ¬ WordIn ['-', '-'] s.toList := by
  rw [camelize, camelize, String.toList_ofList, String.ofList_inj, camelizeChars_eq_self_iff,
    wordIn_camelizeChars]

end Text

/-! ## Listeners of bound values -/

namespace Element

open Text ListenerCode

variable {s : Settings} {x : List Char}

theorem cutLast?_append_of_not_mem {m : Char} {back : List Char} (h : m ∉ back) (cs : List Char) :
    cutLast? m (cs ++ back) = (cutLast? m cs).map fun p => (p.1, p.2 ++ back) := by
  simp [cutLast?, cut?_append (mt mem_reverse.mp h), Function.comp_def]

/-- A modifier behind a name without modifiers is its only one. -/
theorem splitModifiers_sync (h : splitModifiers x = (x, none)) :
    splitModifiers (x ++ ".sync".toList) = (x, some ["sync"]) := by
  have hsplit {back : List Char} (hdot : cut? ['.'] back = none) :
      cut? ['.'] (back ++ ".sync".toList) = some (back, "sync".toList) :=
    cut?_singleton_append (not_mem_of_cut?_eq_none hdot) _
  have hnone := congrArg Prod.snd h
  unfold splitModifiers at hnone ⊢
  rw [cutLast?_append_of_not_mem (by decide)]
  cases hcut : cutLast? ']' x with
  | none =>
    simp only [hcut, Option.map_none] at hnone ⊢
    cases hdot : cut? ['.'] x with
    | none => simp only [hsplit hdot]; rfl
    | some p => simp [hdot] at hnone
  | some parts =>
    simp only [hcut, Option.map_some] at hnone ⊢
    cases hdot : cut? ['.'] parts.2 with
    | none =>
      simp only [hsplit hdot]
      rw [← append_eq_of_cutLast? hcut, append_assoc]
      rfl
    | some p => simp [hdot] at hnone

/-- With this attribute an element gets a handler more, in a listener whose key in the data object
is given. -/
def Listens (s : Settings) (above : List Element) (el : Element) (attr : Attr) (code : String) :
    Prop :=
  ∃ key handler, (el.addAttribute s above attr).value.listeners =
    TemplateCompiler.addHandler key handler false el.listeners ∧ keyCode key = code

theorem keyCode_update (name : String) :
    keyCode { name := "update:" ++ name } = literal ("onUpdate:" ++ camelize name) := by
  have hcamel : camelize ("update:" ++ name) = "update:" ++ camelize name := by
    rw [camelize, String.toList_append, camelizeChars_append (by decide), String.ofList_append]
    rfl
  have hupper : upper 'u' = ['U'] := by decide
  have hwords : eventWords { name := "update:" ++ name } = "Update:" ++ camelize name := by
    refine String.toList_inj.mp ?_
    rw [eventWords, hcamel, capitalize, String.toList_append]
    simp [hupper]
  rw [keyCode_eq_literal rfl, hwords]
  simp [keyPhase, ← String.append_assoc]

variable (hx : splitModifiers x = (x, none)) (above : List Element) (el : Element) {attr : Attr}
include hx

theorem listens_sync (hfixed : computedArgument? x = none) (hvalue : isBlank attr.value = false)
    (hname : attr.name.toList = ':' :: x ++ ".sync".toList) : el.Listens s above attr
      (literal ("onUpdate:" ++ camelize (camelize (String.ofList x)))) := by
  have hsplit : splitModifiers attr.name.toList = (':' :: x, some ["sync"]) := by
    rw [hname, ← singleton_append, append_assoc, splitModifiers_append (by decide) (by decide),
      splitModifiers_sync hx]
  have hbind : stripEither? ':' (s.directive "bind:").toList (':' :: x) = some x := rfl
  refine ⟨{ name := "update:" ++ camelize (String.ofList x) },
    { value := trim (ModelPath.assignment (FilterChain.parse attr.value) "$event") }, ?_,
    keyCode_update _⟩
  unfold addAttribute
  simp only [hsplit, hbind]
  rw [if_neg (by simp [isDirectiveName, hname])]
  unfold addBinding
  rw [if_neg (by simp [hvalue])]
  simp only [hfixed]
  rw [Noted.value_pure, apply_ite Element.listeners]
  exact ite_self _

theorem listens_update (hs : s.directivePrefix = "r-")
    (hname : attr.name.toList = "@update:".toList ++ x) : el.Listens s above attr
      (literal ("onUpdate:" ++ camelize (String.ofList x))) := by
  have hsplit : splitModifiers attr.name.toList = (attr.name.toList, none) := by
    rw [hname, splitModifiers_append (by decide) (by decide), hx]
  have hbind : stripEither? ':' (s.directive "bind:").toList attr.name.toList = none := by
    rw [Settings.directive, hs, hname]
    rfl
  have hon : stripEither? '@' (s.directive "on:").toList attr.name.toList =
      some ("update:".toList ++ x) := by
    rw [hname]
    rfl
  have hkey : String.ofList ("update:".toList ++ x) = "update:" ++ String.ofList x := by
    rw [String.ofList_append]
    rfl
  refine ⟨{ name := "update:" ++ String.ofList x }, { value := trim attr.value }, ?_,
    keyCode_update _⟩
  unfold addAttribute
  simp only [hsplit, hbind, hon]
  rw [if_neg (by simp [isDirectiveName, hname]), ← hkey]
  rfl

end Element

open Text Element in
/-- A second pass changes nothing exactly if no two hyphens stand before a word. So exactly then the
listener that writes a bound value back has the key of a listener for the updates of the name. -/
theorem camelize_twice_iff (x : String) :
    (camelize (camelize x) = camelize x ↔ ¬ WordIn ['-', '-'] x.toList) ∧
    ∀ (s : Settings) (above : List Element) (el : Element) (value handler : String)
      (span span' : Span), s.directivePrefix = "r-" →
      splitModifiers x.toList = (x.toList, none) → computedArgument? x.toList = none →
      isBlank value = false →
      ∃ code code', el.Listens s above ⟨":" ++ x ++ ".sync", value, span⟩ code ∧
        el.Listens s above ⟨"@update:" ++ x, handler, span'⟩ code' ∧
        code = literal ("onUpdate:" ++ camelize (camelize x)) ∧
        code' = literal ("onUpdate:" ++ camelize x) ∧
        (code = code' ↔ ¬ WordIn ['-', '-'] x.toList) := by
  refine ⟨camelize_camelize_iff x, ?_⟩
  intro s above el value handler span span' hs hx hfixed hvalue
  have hsync : el.Listens s above ⟨":" ++ x ++ ".sync", value, span⟩ _ :=
    listens_sync hx above el hfixed hvalue (by simp)
  have hupdate : el.Listens s above ⟨"@update:" ++ x, handler, span'⟩ _ :=
    listens_update hx above el hs (by simp)
  rw [String.ofList_toList] at hsync hupdate
  refine ⟨_, _, hsync, hupdate, rfl, rfl, ?_⟩
  rw [← camelize_camelize_iff]
  refine ⟨fun h => ?_, fun h => by rw [h]⟩
  exact (String.append_right_inj _).mp (literal_inj h)

open Text Element in
/-- One hyphen before a word goes in one pass, of two hyphens one is left. -/
theorem camelize_twice_iff_hyphens :
    (∃ code, Listens Web.options.toSettings [] (ofTag "p" []) ⟨":foo-bar.sync", "v", {}⟩ code ∧
      Listens Web.options.toSettings [] (ofTag "p" []) ⟨"@update:foo-bar", "v", {}⟩ code) ∧
    ∃ code code', Listens Web.options.toSettings [] (ofTag "p" []) ⟨":--a.sync", "v", {}⟩ code ∧
      Listens Web.options.toSettings [] (ofTag "p" []) ⟨"@update:--a", "v", {}⟩ code' ∧
      code ≠ code' := by
  obtain ⟨hone, hlistens⟩ := camelize_twice_iff "foo-bar"
  obtain ⟨code, code', hsync, hupdate, -, -, hiff⟩ := hlistens Web.options.toSettings []
    (ofTag "p" []) "v" "v" {} {} rfl (by decide) (by decide) (by decide)
  have hsame : code = code' := hiff.mpr (hone.mp (by decide))
  obtain ⟨htwo, hlistens'⟩ := camelize_twice_iff "--a"
  obtain ⟨other, other', hsync', hupdate', -, -, hiff'⟩ := hlistens' Web.options.toSettings []
    (ofTag "p" []) "v" "v" {} {} rfl (by decide) (by decide) (by decide)
  refine ⟨⟨code, hsync, hsame ▸ hupdate⟩, other, other', hsync', hupdate', fun h => ?_⟩
  exact absurd (htwo.mpr (hiff'.mp h)) (by decide)

end TemplateCompiler
