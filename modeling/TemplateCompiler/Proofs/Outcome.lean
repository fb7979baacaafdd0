import TemplateCompiler.Extension.Basic

/-!
# Steps that give a result

`Outcome.Ensures x P` says that the step `x` gives a result and that `P` holds of it. It is the form
in which the work of the builder and of the generator is specified: a step is a chain of smaller
ones, `Ensures.bind` composes their specifications, and the reports made on the way do not matter.

A step that only reports problems always gives its result (`Ensures.lift`). Only an extension can
stop a step, so for a configuration without failing extensions each `Ensures` also says that the
compiler gets through. `Outcome.Yields x P` is the same for extensions that may fail: it says
nothing about a step that gives no result.
-/

namespace TemplateCompiler

section

variable {ε α : Type} {e : Except ε α} {f : α → Bool}

theorem exists_ok_of_any (h : e.toOption.any f) : ∃ a, e = .ok a ∧ f a := by
  cases e with
  | error _ => cases h
  | ok a => exact ⟨a, rfl, h⟩

/-- What is checked of a result that is there. -/
theorem check_ok {a : α} (h : e = .ok a) (f : α → Bool) (hf : e.toOption.any f) : f a := by
  subst h
  exact hf

end

namespace Outcome

variable {α β : Type} {x : Outcome α} {a : α} {P : α → Prop}

@[simp] theorem result_pure (a : α) : (pure a : Outcome α).result = .ok a := rfl

@[simp] theorem result_lift (n : Noted α) : (liftM n : Outcome α).result = .ok n.value := rfl

@[simp] theorem result_except (e : Except HookFailure α) : (liftM e : Outcome α).result = e := rfl

theorem result_bind (x : Outcome α) (f : α → Outcome β) :
    (x >>= f).result = x.result >>= fun a => (f a).result := by
  show (ExceptT.bindCont f x.run.value).value = _
  unfold result
  cases x.run.value <;> rfl

theorem result_bindLift (n : Noted α) (f : α → Outcome β) :
    (liftM n >>= f).result = (f n.value).result :=
  result_bind _ _

theorem result_map (x : Outcome α) (f : α → β) : (f <$> x).result = x.result.map f := by
  rw [map_eq_pure_bind, result_bind]
  cases x.result <;> rfl

/-! ## Reports -/

@[simp] theorem notes_pure (a : α) : (pure a : Outcome α).notes = {} := rfl

@[simp] theorem notes_lift (n : Noted α) : (liftM n : Outcome α).notes = n.notes := by
  exact Diagnostics.append_empty _

theorem notes_bind (h : x.result = .ok a) (f : α → Outcome β) :
    (x >>= f).notes = x.notes ++ (f a).notes := by
  show x.run.notes ++ (ExceptT.bindCont f x.run.value).notes = _
  have hval : x.run.value = .ok a := h
  rw [hval]
  rfl

theorem bind_congr (h : x.result = .ok a) {f g : α → Outcome β}
    (hfg : f a = g a) : x >>= f = x >>= g := by
  have hval : x.run.value = .ok a := h
  have hrun (f : α → Outcome β) :
      (x >>= f).run = ⟨(f a).run.value, x.run.notes ++ (f a).run.notes⟩ := by
    show (⟨Noted.value (ExceptT.bindCont f x.run.value),
      x.run.notes ++ Noted.notes (ExceptT.bindCont f x.run.value)⟩ : Noted _) = _
    rw [hval]
    rfl
  show (x >>= f).run = (x >>= g).run
  rw [hrun, hrun, hfg]

/-! ## Results -/

def Ensures (x : Outcome α) (P : α → Prop) : Prop := ∃ a, x.result = .ok a ∧ P a

namespace Ensures

variable {x : Outcome α} {P Q : α → Prop} {n : Noted α} {f : α → Outcome β} {R : β → Prop}

theorem pure {a : α} (h : P a) : Ensures (Pure.pure a) P := ⟨a, rfl, h⟩

theorem lift (h : P n.value) : Ensures (liftM n) P := ⟨n.value, rfl, h⟩

theorem mono (hx : Ensures x P) (h : ∀ a, P a → Q a) : Ensures x Q := by
  obtain ⟨a, ha, hP⟩ := hx
  exact ⟨a, ha, h a hP⟩

theorem and (hP : Ensures x P) (hQ : Ensures x Q) : Ensures x fun a => P a ∧ Q a := by
  obtain ⟨a, ha, hP⟩ := hP
  obtain ⟨b, hb, hQ⟩ := hQ
  cases ha.symm.trans hb
  exact ⟨a, ha, hP, hQ⟩

theorem bind (hx : Ensures x P) (hf : ∀ a, P a → Ensures (f a) R) : Ensures (x >>= f) R := by
  obtain ⟨a, ha, hP⟩ := hx
  obtain ⟨b, hb, hR⟩ := hf a hP
  refine ⟨b, ?_, hR⟩
  rw [result_bind, ha]
  exact hb

theorem bindLift (hf : Ensures (f n.value) R) : Ensures (liftM n >>= f) R :=
  bind (lift rfl) fun _ ha => ha ▸ hf

end Ensures

/-- Whatever result the step `x` gives, `P` holds of it. The step may fail to give one. -/
def Yields (x : Outcome α) (P : α → Prop) : Prop := ∀ a, x.result = .ok a → P a

namespace Yields

variable {x : Outcome α} {P Q : α → Prop} {f : α → Outcome β} {R : β → Prop} {n : Noted α}

theorem pure {a : α} (h : P a) : Yields (Pure.pure a) P := by
  intro b hb
  cases hb
  exact h

theorem mono (hx : Yields x P) (h : ∀ a, P a → Q a) : Yields x Q := fun a ha => h a (hx a ha)

theorem and (hP : Yields x P) (hQ : Yields x Q) : Yields x fun a => P a ∧ Q a :=
  fun a ha => ⟨hP a ha, hQ a ha⟩

theorem bind (hx : Yields x P) (hf : ∀ a, P a → Yields (f a) R) : Yields (x >>= f) R := by
  intro b hb
  rw [result_bind] at hb
  cases ha : x.result with
  | error e => rw [ha] at hb; cases hb
  | ok a =>
    rw [ha] at hb
    exact hf a (hx a ha) b hb

theorem lift (h : P n.value) : Yields (liftM n) P := by
  intro b hb
  cases hb
  exact h

theorem bindLift (hf : Yields (f n.value) R) : Yields (liftM n >>= f) R :=
  bind (lift rfl) fun _ ha => ha ▸ hf

end Yields

theorem Ensures.ofResult {y : Outcome α} (h : x.result = y.result)
    (hy : Ensures y P) : Ensures x P := by
  unfold Ensures
  rwa [h]

theorem Ensures.andYields {Q : α → Prop} (hP : Ensures x P) (hQ : Yields x Q) :
    Ensures x fun a => P a ∧ Q a := by
  obtain ⟨a, ha, hP⟩ := hP
  exact ⟨a, ha, hP, hQ a ha⟩

theorem Ensures.yields (h : Ensures x P) : Yields x P := by
  obtain ⟨a, ha, hP⟩ := h
  intro b hb
  cases ha.symm.trans hb
  exact hP

end Outcome

/-! ## Runs that agree

Two runs of the compiler, on templates that are written differently, can be followed side by side.
`Agree R x x'` says of one step in each run that both give a result, that `R` relates the two
results, and that the steps report equally many errors and equally many tips. What the reports say,
and where, may differ.

As for `Ensures`, steps are put together with `Agree.bind`, so a function of the compiler keeps a
relation if each of its steps does.
-/

/-- The number of errors and the number of tips. -/
def Diagnostics.count (d : Diagnostics) : Nat × Nat := (d.errors.length, d.tips.length)

theorem Diagnostics.count_append {d d' e e' : Diagnostics} (hd : d'.count = d.count)
    (he : e'.count = e.count) : (d' ++ e').count = (d ++ e).count := by
  simp only [count, Prod.mk.injEq] at hd he
  simp only [count, errors_append, tips_append, List.length_append, hd, he]

variable {α α' β β' : Type}

/-- Two choices that are made alike keep a relation. -/
theorem rel_ite {R : α → α' → Prop} {c c' : Prop} [Decidable c] [Decidable c'] {x y : α}
    {x' y' : α'} (hc : c' ↔ c) (hx : R x x') (hy : R y y') :
    R (if c then x else y) (if c' then x' else y') := by
  by_cases h : c
  · rwa [if_pos h, if_pos (hc.mpr h)]
  · rwa [if_neg h, if_neg fun h' => h (hc.mp h')]

/-- Both results are related, and the numbers of reports are the same. -/
structure Noted.Agree (R : α → α' → Prop) (x : Noted α) (x' : Noted α') : Prop where
  value : R x.value x'.value
  count : x'.notes.count = x.notes.count

namespace Noted.Agree

variable {R : α → α' → Prop} {S : β → β' → Prop} {x : Noted α} {x' : Noted α'}

theorem pure {a : α} {a' : α'} (h : R a a') : Agree R (Pure.pure a) (Pure.pure a') := ⟨h, rfl⟩

theorem bind {f : α → Noted β} {f' : α' → Noted β'} (hx : Agree R x x')
    (hf : ∀ a a', R a a' → Agree S (f a) (f' a')) : Agree S (x >>= f) (x' >>= f') where
  value := (hf _ _ hx.value).value
  count := Diagnostics.count_append hx.count (hf _ _ hx.value).count

theorem error (problem problem' : Problem) (span span' : Option Span) :
    Agree Eq (Noted.error problem span) (Noted.error problem' span') := ⟨rfl, rfl⟩

theorem tip (advice advice' : Advice) (span span' : Option Span) :
    Agree Eq (Noted.tip advice span) (Noted.tip advice' span') := ⟨rfl, rfl⟩

end Noted.Agree

/-- Both steps give a result, the results are related, and the numbers of reports are the same. -/
def Outcome.Agree (R : α → α' → Prop) (x : Outcome α) (x' : Outcome α') : Prop :=
  ∃ a a', x.result = .ok a ∧ x'.result = .ok a' ∧ R a a' ∧ x'.notes.count = x.notes.count

namespace Outcome.Agree

variable {R : α → α' → Prop} {S : β → β' → Prop} {x : Outcome α} {x' : Outcome α'} {n : Noted α}
  {n' : Noted α'} {f : α → Outcome β} {f' : α' → Outcome β'} {P : α → Prop}

theorem pure {a : α} {a' : α'} (h : R a a') : Agree R (Pure.pure a) (Pure.pure a') :=
  ⟨a, a', rfl, rfl, h, rfl⟩

theorem lift (h : n.Agree R n') : Agree R (liftM n) (liftM n') :=
  ⟨n.value, n'.value, rfl, rfl, h.value, by rw [notes_lift, notes_lift, h.count]⟩

theorem bind (hx : Agree R x x')
    (hf : ∀ a a', R a a' → Agree S (f a) (f' a')) : Agree S (x >>= f) (x' >>= f') := by
  obtain ⟨a, a', ha, ha', hR, hcount⟩ := hx
  obtain ⟨b, b', hb, hb', hS, hcount'⟩ := hf a a' hR
  refine ⟨b, b', ?_, ?_, hS, ?_⟩
  · rw [result_bind, ha]
    exact hb
  · rw [result_bind, ha']
    exact hb'
  · rw [notes_bind ha, notes_bind ha']
    exact Diagnostics.count_append hcount hcount'

theorem mono {R' : α → α' → Prop} (hx : Agree R x x') (h : ∀ a a', R a a' → R' a a') :
    Agree R' x x' := by
  obtain ⟨a, a', ha, ha', hR, hcount⟩ := hx
  exact ⟨a, a', ha, ha', h a a' hR, hcount⟩

theorem first (hx : Agree R x x') (h : ∀ a a', R a a' → P a) : Ensures x P := by
  obtain ⟨a, a', ha, -, hR, -⟩ := hx
  exact ⟨a, ha, h a a' hR⟩

/-- What the first step ensures is known of its result. -/
theorem ensures (hx : Agree R x x') (hP : Ensures x P) : Agree (fun a a' => R a a' ∧ P a) x x' := by
  obtain ⟨a, a', ha, ha', hR, hcount⟩ := hx
  obtain ⟨c, hc, hP⟩ := hP
  cases ha.symm.trans hc
  exact ⟨a, a', ha, ha', ⟨hR, hP⟩, hcount⟩

/-- A step that only reports problems comes first. -/
theorem bindLift (hn : n.Agree R n') (hf : ∀ a a', R a a' → Agree S (f a) (f' a')) :
    Agree S (liftM n >>= f) (liftM n' >>= f') :=
  bind (lift hn) hf

end Outcome.Agree

end TemplateCompiler
