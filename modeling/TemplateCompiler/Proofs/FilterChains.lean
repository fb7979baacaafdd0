import TemplateCompiler.Expression.FilterChain

/-!
# Chains of filters

A bar that stands alone at the top level of an expression separates a filter from what it is applied
to. Behind such a bar the scan is where it would be at the start of an expression, up to the bar it
has just seen, so the last filter of a chain is applied to the rest of the chain (`parse_bar`).

The invariant is the state of the scan: `split_append_bar` runs it through all that stands before a
bar, and `split_of_not_hasBar` through a text without one.
-/

namespace TemplateCompiler.FilterChain

open Text List

/-! ## The state of a scan -/

def Scan.after (s : Scan) (cs : List Char) : Scan := cs.foldl Scan.advance s

/-- Outside every literal and every bracket. -/
structure Scan.AtTop (s : Scan) : Prop where
  mode : s.mode = .code
  curly : s.curly = 0
  square : s.square = 0
  paren : s.paren = 0

/-- Some bar of a text scanned from `s` stands at the top level, with no other bar beside it. -/
def HasBar (s : Scan) (cs : List Char) : Prop :=
  ∃ before after, cs = before ++ '|' :: after ∧ (s.after before).AtTop ∧
    before.getLast? ≠ some '|' ∧ after.head? ≠ some '|'

variable {s : Scan} {c : Char} {cs before after : List Char}

theorem Scan.previous_after : (s.after cs).previous = cs.getLast?.getD s.previous := by
  induction cs generalizing s with
  | nil => rfl
  | cons c cs ih =>
    rw [after, foldl_cons, ← after, ih, getLast?_cons]
    rfl

theorem Scan.previous_after_ne (hlast : cs.getLast? ≠ some '|')
    (hstart : s.previous ≠ '|' ∨ cs ≠ []) : (s.after cs).previous ≠ '|' := by
  rw [previous_after]
  cases h : cs.getLast? with
  | none => exact hstart.resolve_right (not_not_intro (getLast?_eq_none_iff.mp h))
  | some c => exact fun heq => hlast (h.trans (congrArg some heq))

/-- The characters that separate are the lone bars of the top level. -/
theorem Scan.splits_iff {next : Option Char} :
    s.splits c next ↔ s.AtTop ∧ c = '|' ∧ s.previous ≠ '|' ∧ next ≠ some '|' := by
  unfold splits
  simp only [Bool.and_eq_true, beq_iff_eq, bne_iff_ne]
  constructor
  · rintro ⟨⟨⟨⟨⟨⟨hmode, hc⟩, hnext⟩, hprevious⟩, hcurly⟩, hsquare⟩, hparen⟩
    exact ⟨⟨hmode, hcurly, hsquare, hparen⟩, hc, hprevious, hnext⟩
  · rintro ⟨htop, hc, hprevious, hnext⟩
    exact ⟨⟨⟨⟨⟨⟨htop.mode, hc⟩, hnext⟩, hprevious⟩, htop.curly⟩, htop.square⟩, htop.paren⟩

/-! ## Splitting -/

/-- Where no character separates, the text stays in one piece. -/
theorem split_of_not_splits (h : ∀ before c after, cs = before ++ c :: after →
    (s.after before).splits c after.head? = false) : split s cs = (cs, []) := by
  induction cs generalizing s with
  | nil => rfl
  | cons c cs ih =>
    have hfirst : s.splits c cs.head? = false := h [] c cs rfl
    have hrest : split (s.advance c) cs = (cs, []) := by
      refine ih fun before d after heq => ?_
      exact h (c :: before) d after (by rw [heq, cons_append])
    rw [split, hrest, hfirst]
    rfl

theorem split_of_not_hasBar (h : ¬ HasBar s cs) : split s cs = (cs, []) := by
  refine split_of_not_splits fun before c after heq => ?_
  rw [Bool.eq_false_iff]
  intro hsplits
  obtain ⟨htop, rfl, hprevious, hnext⟩ := Scan.splits_iff.mp hsplits
  refine h ⟨before, after, heq, htop, fun hlast => ?_, hnext⟩
  rw [Scan.previous_after, hlast] at hprevious
  exact hprevious rfl

/-- A separating bar cuts a text in two that are split on their own. -/
theorem split_append_bar (htop : (s.after before).AtTop)
    (hprevious : (s.after before).previous ≠ '|') (hnext : after.head? ≠ some '|') :
    split s (before ++ '|' :: after) =
      let rest := split (s.after (before ++ ['|'])) after
      ((split s before).1, (split s before).2 ++ rest.1 :: rest.2) := by
  induction before generalizing s with
  | nil =>
    have hsplits : s.splits '|' after.head? :=
      Scan.splits_iff.mpr ⟨htop, rfl, hprevious, hnext⟩
    rw [nil_append]
    conv => lhs; rw [split, hsplits]
    rfl
  | cons c before ih =>
    have hstep := ih htop hprevious
    -- The last character before the bar is the only one that has another neighbour now.
    have hsplits : s.splits c (before ++ '|' :: after).head? = s.splits c before.head? := by
      cases before with
      | cons d before => rfl
      | nil =>
        have hc : c ≠ '|' := hprevious
        have hnot (next : Option Char) : s.splits c next = false :=
          Bool.eq_false_iff.mpr fun h => hc (Scan.splits_iff.mp h).2.1
        rw [hnot, hnot]
    rw [cons_append, split, split, hstep, hsplits]
    split <;> rfl

/-- A text is split exactly if it has a separating bar. It may be scanned right behind a bar if it
does not go on with another one. -/
theorem hasBar_iff (hstart : s.previous ≠ '|' ∨ cs.head? ≠ some '|') :
    HasBar s cs ↔ (split s cs).2 ≠ [] := by
  constructor
  · rintro ⟨before, after, rfl, htop, hlast, hnext⟩
    have hprevious : (s.after before).previous ≠ '|' := by
      refine Scan.previous_after_ne hlast (hstart.imp_right fun h hnil => ?_)
      rw [hnil] at h
      exact h rfl
    rw [split_append_bar htop hprevious hnext]
    exact append_ne_nil_of_right_ne_nil _ (cons_ne_nil _ _)
  · intro hsplit
    refine Classical.byContradiction fun h => hsplit ?_
    rw [split_of_not_hasBar h]

/-! ## Chains -/

/-- For all texts: a bar behind a complete expression applies what follows it to what stands before
it, and a text without a separating bar is only trimmed. -/
theorem parse_bar : (∀ e f : String, (Scan.after {} e.toList).AtTop → e.toList.getLast? ≠ some '|' →
      f.toList.head? ≠ some '|' → ¬ HasBar (Scan.after {} (e.toList ++ ['|'])) f.toList →
        parse (e ++ "|" ++ f) = wrap (parse e) (trim f)) ∧
    ∀ g : String, ¬ HasBar {} g.toList → parse g = trim g := by
  refine ⟨fun e f htop hlast hfirst hbar => ?_, fun g hbar => ?_⟩
  · have hprevious : (Scan.after {} e.toList).previous ≠ '|' :=
      Scan.previous_after_ne hlast (.inl (by decide))
    have hfilter := split_of_not_hasBar hbar
    have hchars : (e ++ "|" ++ f).toList = e.toList ++ '|' :: f.toList := by simp
    unfold parse
    rw [hchars, split_append_bar htop hprevious hfirst, hfilter]
    simp only [map_append, map_cons, map_nil, foldl_append, foldl_cons, foldl_nil]
    rfl
  · unfold parse
    rw [split_of_not_hasBar hbar]
    rfl

/-- The bars of `||`, of a literal and in brackets do not separate. -/
theorem parse_bar_argument : (Scan.after {} "a || 'x|y' | up".toList).AtTop ∧
    ¬ HasBar (Scan.after {} ("a || 'x|y' | up".toList ++ ['|'])) " pad(2 | 3)".toList ∧
    ¬ HasBar {} "a || 'x|y'".toList ∧ parse "a || 'x|y'" = "a || 'x|y'" ∧
    parse ("a || 'x|y' | up" ++ "|" ++ " pad(2 | 3)") =
      "_f(\"pad\")(_f(\"up\")(a || 'x|y'),2 | 3)" := by
  have htop : (Scan.after {} "a || 'x|y' | up".toList).AtTop :=
    ⟨by decide, by decide, by decide, by decide⟩
  have hbar :
      ¬ HasBar (Scan.after {} ("a || 'x|y' | up".toList ++ ['|'])) " pad(2 | 3)".toList := by
    rw [hasBar_iff (.inr (by decide))]
    decide +kernel
  have hnone : ¬ HasBar {} "a || 'x|y'".toList := by
    rw [hasBar_iff (.inl (by decide))]
    decide +kernel
  refine ⟨htop, hbar, hnone, (parse_bar.2 _ hnone).trans (by decide +kernel), ?_⟩
  exact (parse_bar.1 _ _ htop (by decide) (by decide) hbar).trans (by decide +kernel)

end TemplateCompiler.FilterChain
