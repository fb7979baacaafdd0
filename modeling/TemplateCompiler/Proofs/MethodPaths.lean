import TemplateCompiler.Expression.HandlerShape
import TemplateCompiler.Proofs.Slices

/-!
# Paths to methods

The value of a listener is read greedily and without going back. `isMethodPath_iff` says that what
is taken for a path is nevertheless exactly the regular language that is meant, a name and steps
behind it. No such path is also taken for a function: behind its first name stands the start of a
step or nothing, so neither an arrow nor a parenthesis.
-/

namespace TemplateCompiler.HandlerShape

open Text List

variable {c : Char} {cs rest name step : List Char} {steps : List (List Char)}

/-! ## The language -/

/-- An identifier of ASCII letters, digits, `_` and `$` that does not start with a digit. -/
inductive IsName : List Char → Prop
  | cons {c : Char} {cs : List Char} (hc : c.isAlpha || c == '_' || c == '$')
    (hcs : ∀ d ∈ cs, d.isAlphanum || d == '_' || d == '$') : IsName (c :: cs)

/-- One step of a path. -/
inductive IsStep : List Char → Prop
  | name {cs : List Char} (h : IsName cs) : IsStep ('.' :: cs)
  | quoted {q : Char} {cs : List Char} (hq : q = '\'' ∨ q = '"') (h : q ∉ cs) :
    IsStep ('[' :: q :: (cs ++ [q, ']']))
  | number {c : Char} {cs : List Char} (h : ∀ d ∈ c :: cs, d.isDigit) :
    IsStep ('[' :: (c :: cs ++ [']']))
  | computed {cs : List Char} (h : IsName cs) : IsStep ('[' :: (cs ++ [']']))

/-! ## Names and digits -/

theorem isNameChar_of_isNameStart (h : isNameStart c) : isNameChar c := by
  simp only [isNameStart, isNameChar, Char.isAlphanum, Bool.or_eq_true] at h ⊢
  exact h.imp_left (·.imp_left .inl)

theorem IsName.isNameChar (h : IsName name) : ∀ c ∈ name, isNameChar c := by
  obtain ⟨hc, hcs⟩ := h
  exact forall_mem_cons.mpr ⟨isNameChar_of_isNameStart hc, hcs⟩

/-- What takes a character of one kind and a run of another behind it. -/
theorem run_eq_some_iff {p q : Char → Bool} {f : List Char → Option (List Char)}
    (hnil : f [] = none)
    (hcons : ∀ c cs, f (c :: cs) = if p c then some (cs.dropWhile q) else none) :
    f cs = some rest ↔ ∃ c run, p c ∧ (∀ d ∈ run, q d) ∧ (∀ d ∈ rest.head?, q d = false) ∧
      cs = c :: run ++ rest := by
  cases cs with
  | nil => simp [hnil]
  | cons c cs =>
    rw [hcons]
    constructor
    · intro h
      split at h
      · next hc =>
        obtain ⟨hrun, hrest, heq⟩ := takeWhile_dropWhile_iff.mp ⟨rfl, Option.some.inj h⟩
        exact ⟨c, _, hc, hrun, hrest, congrArg (c :: ·) heq⟩
      · cases h
    · rintro ⟨c, run, hc, hrun, hrest, heq⟩
      obtain ⟨rfl, rfl⟩ := List.cons.inj heq
      rw [if_pos hc]
      exact congrArg some (takeWhile_dropWhile_iff.mpr ⟨hrun, hrest, rfl⟩).2

theorem name?_eq_some_iff : name? cs = some rest ↔
    ∃ name, IsName name ∧ (∀ d ∈ rest.head?, isNameChar d = false) ∧ cs = name ++ rest := by
  rw [run_eq_some_iff (f := name?) rfl fun _ _ => rfl]
  constructor
  · rintro ⟨c, run, hc, hrun, hrest, rfl⟩
    exact ⟨c :: run, .cons hc hrun, hrest, rfl⟩
  · rintro ⟨_, ⟨hc, hrun⟩, hrest, rfl⟩
    exact ⟨_, _, hc, hrun, hrest, rfl⟩

theorem digits?_eq_some_iff : digits? cs = some rest ↔ ∃ c run, c.isDigit ∧
    (∀ d ∈ run, d.isDigit) ∧ (∀ d ∈ rest.head?, d.isDigit = false) ∧ cs = c :: run ++ rest :=
  run_eq_some_iff rfl fun _ _ => rfl

theorem digits?_name (h : IsName name) (rest : List Char) : digits? (name ++ rest) = none := by
  obtain @⟨c, cs, hc, -⟩ := h
  refine if_neg fun hdigit => ?_
  simp only [Bool.or_eq_true, beq_iff_eq] at hc
  rcases hc with (hc | rfl) | rfl
  · have hall : ∀ n < 58, 48 ≤ n → (Char.ofNat n).isAlpha = false := by decide
    obtain ⟨hlo, hhi⟩ := Char.isDigit_iff_toNat.mp hdigit
    have hnot := hall c.toNat (Nat.lt_succ_of_le hhi) hlo
    rw [Char.ofNat_toNat, hc] at hnot
    cases hnot
  · cases hdigit
  · cases hdigit

theorem bracket?_eq_some (h : bracket? cs = some rest) : cs = ']' :: rest := by
  unfold bracket? at h
  split at h <;> cases h
  rfl

/-! ## Steps -/

/-- A bracket that no quote follows holds digits or a name. -/
theorem step?_bracket (h : ∀ c ∈ cs.head?, isNameChar c) :
    step? ('[' :: cs) = ((digits? cs).bind bracket?).or ((name? cs).bind bracket?) := by
  rw [step?]
  · rintro ds rfl
    cases h _ rfl
  · rintro ds rfl
    cases h _ rfl

/-- A step is skipped, unless more of a name follows. -/
theorem step?_append (h : IsStep step) (hrest : ∀ c ∈ rest.head?, isNameChar c = false) :
    step? (step ++ rest) = some rest := by
  cases h with
  | @name name h => exact name?_eq_some_iff.mpr ⟨name, h, hrest, rfl⟩
  | @quoted q cs hq h =>
    have hread : (cut? [q] (cs ++ [q, ']'] ++ rest)).bind (fun p => bracket? p.2) = some rest := by
      rw [append_assoc]
      exact congrArg (Option.bind · _) (cut?_singleton_append h (']' :: rest))
    obtain rfl | rfl := hq <;> exact hread
  | @number c cs h =>
    have hread : digits? (c :: cs ++ ']' :: rest) = some (']' :: rest) :=
      digits?_eq_some_iff.mpr ⟨c, cs, h c mem_cons_self, fun d hd => h d (mem_cons_of_mem c hd),
        fun _ hd => by cases hd; rfl, rfl⟩
    rw [cons_append, append_assoc, singleton_append, step?_bracket, hread]
    · rfl
    · rintro _ ⟨⟩
      simp [isNameChar, Char.isAlphanum, h c mem_cons_self]
  | @computed name h =>
    have hread : name? (name ++ ']' :: rest) = some (']' :: rest) :=
      name?_eq_some_iff.mpr ⟨name, h, fun _ hd => by cases hd; rfl, rfl⟩
    rw [cons_append, append_assoc, singleton_append, step?_bracket, hread, digits?_name h]
    · rfl
    · obtain ⟨hc, -⟩ := h
      rintro _ ⟨⟩
      exact isNameChar_of_isNameStart hc

theorem step?_eq_some (h : step? cs = some rest) : ∃ step, IsStep step ∧ cs = step ++ rest := by
  have hquoted {q : Char} {ds : List Char} (hq : q = '\'' ∨ q = '"')
      (h : (cut? [q] ds).bind (fun p => bracket? p.2) = some rest) :
      ∃ step, IsStep step ∧ '[' :: q :: ds = step ++ rest := by
    obtain ⟨⟨before, after⟩, hcut, hbracket⟩ := Option.bind_eq_some_iff.mp h
    refine ⟨_, .quoted hq (not_mem_of_cut? hcut), ?_⟩
    obtain rfl : after = ']' :: rest := bracket?_eq_some hbracket
    rw [← append_eq_of_cut? hcut]
    simp
  unfold step? at h
  split at h
  · obtain ⟨name, hname, -, rfl⟩ := name?_eq_some_iff.mp h
    exact ⟨_, .name hname, rfl⟩
  · exact hquoted (.inl rfl) h
  · exact hquoted (.inr rfl) h
  · rcases Option.or_eq_some_iff.mp h with h | ⟨-, h⟩
    · obtain ⟨after, hdigits, hbracket⟩ := Option.bind_eq_some_iff.mp h
      obtain ⟨c, run, hc, hrun, -, rfl⟩ := digits?_eq_some_iff.mp hdigits
      exact ⟨_, .number (forall_mem_cons.mpr ⟨hc, hrun⟩), by simp [bracket?_eq_some hbracket]⟩
    · obtain ⟨after, hname, hbracket⟩ := Option.bind_eq_some_iff.mp h
      obtain ⟨name, hisName, -, rfl⟩ := name?_eq_some_iff.mp hname
      exact ⟨_, .computed hisName, by simp [bracket?_eq_some hbracket]⟩
  · cases h

/-- Behind a name or a step stands a step or nothing. -/
theorem head?_flatten (h : ∀ step ∈ steps, IsStep step) :
    ∀ c ∈ steps.flatten.head?, c = '.' ∨ c = '[' := by
  cases steps with
  | nil => rintro c ⟨⟩
  | cons step steps => cases h step mem_cons_self <;> rintro c ⟨⟩ <;> simp

theorem isNameChar_head?_flatten (h : ∀ step ∈ steps, IsStep step) :
    ∀ c ∈ steps.flatten.head?, isNameChar c = false := by
  intro c hc
  rcases head?_flatten h c hc with rfl | rfl <;> rfl

theorem isSteps_iff : isSteps cs ↔
    ∃ steps : List (List Char), (∀ step ∈ steps, IsStep step) ∧ cs = steps.flatten := by
  constructor
  · intro h
    fun_induction isSteps cs with
    | case1 cs hnil => exact ⟨[], fun _ hmem => absurd hmem not_mem_nil, List.isEmpty_iff.mp hnil⟩
    | case2 cs _ rest hstep ih =>
      obtain ⟨step, hisStep, rfl⟩ := step?_eq_some hstep
      obtain ⟨steps, hsteps, rfl⟩ := ih h
      exact ⟨step :: steps, forall_mem_cons.mpr ⟨hisStep, hsteps⟩, rfl⟩
    | case3 => cases h
  · rintro ⟨steps, hsteps, rfl⟩
    induction steps with
    | nil =>
      rw [isSteps]
      rfl
    | cons step steps ih =>
      obtain ⟨hstep, hrest⟩ := forall_mem_cons.mp hsteps
      have hread := step?_append hstep (isNameChar_head?_flatten hrest)
      rw [flatten_cons, isSteps]
      split
      · rfl
      · split
        · next rest heq =>
          cases hread.symm.trans heq
          exact ih hrest
        · next heq => cases hread.symm.trans heq

/-! ## Paths -/

theorem isMethodPath_iff {value : String} : isMethodPath value ↔
    ∃ (name : List Char) (steps : List (List Char)), IsName name ∧ (∀ step ∈ steps, IsStep step) ∧
      value.toList = name ++ steps.flatten := by
  unfold isMethodPath
  constructor
  · intro h
    split at h
    · next rest hname =>
      obtain ⟨name, hisName, -, heq⟩ := name?_eq_some_iff.mp hname
      obtain ⟨steps, hsteps, rfl⟩ := isSteps_iff.mp h
      exact ⟨name, steps, hisName, hsteps, heq⟩
    · cases h
  · rintro ⟨name, steps, hname, hsteps, heq⟩
    rw [name?_eq_some_iff.mpr ⟨name, hname, isNameChar_head?_flatten hsteps, heq⟩]
    exact isSteps_iff.mpr ⟨steps, hsteps, rfl⟩

section

variable (hname : IsName name) (hrest : ∀ c ∈ rest.head?, c = '.' ∨ c = '[')

include hname hrest

theorem dropWhile_path : (name ++ rest).dropWhile isNameChar = rest := by
  refine (takeWhile_dropWhile_iff.mpr ⟨hname.isNameChar, fun c hc => ?_, rfl⟩).2
  rcases hrest c hc with rfl | rfl <;> rfl

theorem startsArrow_path : startsArrow (name ++ rest) = false := by
  have hpath := dropWhile_path hname hrest
  obtain ⟨c, cs, rfl⟩ : ∃ c cs, name = c :: cs := by cases hname; exact ⟨_, _, rfl⟩
  have hc := hname.isNameChar c mem_cons_self
  have hparams : arrowParams? (c :: cs ++ rest) = some rest := by
    rw [cons_append, dropWhile_cons_of_pos hc] at hpath
    rw [cons_append, arrowParams?, if_pos hc, hpath]
    rintro rfl
    cases hc
  rw [startsArrow, hparams]
  show isPrefixOf ['=', '>'] (rest.dropWhile LoopHead.isGap) = false
  cases rest with
  | nil => rfl
  | cons d rest => rcases hrest d rfl with rfl | rfl <;> rfl

theorem startsFunction_path : startsFunction (name ++ rest) = false := by
  unfold startsFunction
  split
  · next after hafter =>
    -- The keyword is the start of the name, so a name, a step or nothing follows it.
    have hpath := dropWhile_path hname hrest
    rw [← append_eq_of_isPrefixOf? hafter, dropWhile_append_of_pos (all_eq_true.mp rfl)] at hpath
    have hhead : ∀ c ∈ after.head?, LoopHead.isGap c = false ∧ c ≠ '(' := by
      intro c hc
      obtain ⟨later, rfl⟩ := head?_eq_some_iff.mp hc
      by_cases hchar : isNameChar c
      · refine ⟨Bool.eq_false_iff.mpr fun hgap => ?_, by rintro rfl; cases hchar⟩
        have hall : [' ', '\t', '\r', '\n'].all (!isNameChar ·) := rfl
        have hnot := all_eq_true.mp hall c (contains_iff_mem.mp hgap)
        rw [hchar] at hnot
        cases hnot
      · rw [dropWhile_cons_of_neg hchar] at hpath
        rcases hrest c (hpath ▸ rfl) with rfl | rfl <;> decide
    have hskip : skipFunctionName after = after := by
      cases after with
      | nil => rfl
      | cons c after => simp [skipFunctionName, LoopHead.gap?, (hhead c rfl).1]
    rw [hskip, Text.dropWhile_eq_self_iff.mpr fun c hc => (hhead c hc).1]
    exact beq_eq_false_iff_ne.mpr fun h => (hhead _ h).2 rfl
  · rfl

end

/-- A value is taken for a path to a method exactly if it is a name with steps behind it. Then it is
not taken for a function. -/
theorem isMethodPath_exact (value : String) :
    (isMethodPath value ↔ ∃ (name : List Char) (steps : List (List Char)), IsName name ∧
      (∀ step ∈ steps, IsStep step) ∧ value.toList = name ++ steps.flatten) ∧
    ¬ (isMethodPath value ∧ isFunction value) := by
  refine ⟨isMethodPath_iff, ?_⟩
  rintro ⟨hpath, hfunction⟩
  obtain ⟨name, steps, hname, hsteps, heq⟩ := isMethodPath_iff.mp hpath
  rw [isFunction, heq, startsArrow_path hname (head?_flatten hsteps),
    startsFunction_path hname (head?_flatten hsteps)] at hfunction
  cases hfunction

/-- A quoted step may hold what a function would start with. -/
example : isMethodPath "function['(a) => b'].c[0][$d]" ∧
    isFunction "function['(a) => b'].c[0][$d]" = false ∧ isMethodPath "a[0b]" = false := by
  decide +kernel

end TemplateCompiler.HandlerShape
