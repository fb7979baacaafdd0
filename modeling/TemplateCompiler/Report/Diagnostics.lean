import TemplateCompiler.Report.Problem

/-!
# Diagnostics

The problems and advice collected on the way through the compiler, each with its place in the
source. A step of the compiler returns its result together with what it has to report, and reports
are only ever added.
-/

namespace TemplateCompiler

/-- A cause with its place in the source, if it has one. -/
structure Located (Cause : Type) where
  cause : Cause
  span : Option Span := none
  deriving DecidableEq, Inhabited

/-- Errors and tips, each in the order they were reported. -/
structure Diagnostics where
  errors : List (Located Problem) := []
  tips : List (Located Advice) := []
  deriving DecidableEq, Inhabited

/-- The line and column of a byte offset, both counted from one; the column counts characters. -/
def lineColumn (source : List Char) (offset : Nat) : Nat × Nat :=
  go source 0 1 1
where
  /-- Continues from the place of the characters ahead. -/
  go : List Char → Nat → Nat → Nat → Nat × Nat
    | [], _, line, column => (line, column)
    | c :: cs, position, line, column =>
      if offset ≤ position then (line, column)
      else if c = '\n' then go cs (position + c.utf8Size) (line + 1) 1
      else go cs (position + c.utf8Size) line (column + 1)

def withPlace (source message : String) : Option Span → String
  | none => message
  | some span =>
    let (line, column) := lineColumn source.toList span.start
    message ++ " (line " ++ line.repr ++ ", column " ++ column.repr ++ ")"

namespace Diagnostics

instance : Append Diagnostics := ⟨fun a b => ⟨a.errors ++ b.errors, a.tips ++ b.tips⟩⟩

def hasErrors (d : Diagnostics) : Bool := !d.errors.isEmpty

def errorTexts (d : Diagnostics) (source : String) : List String :=
  d.errors.map fun e => withPlace source e.cause.message e.span

def tipTexts (d : Diagnostics) (source : String) : List String :=
  d.tips.map fun t => withPlace source t.cause.message t.span

@[simp] theorem errors_append (a b : Diagnostics) : (a ++ b).errors = a.errors ++ b.errors := rfl

@[simp] theorem tips_append (a b : Diagnostics) : (a ++ b).tips = a.tips ++ b.tips := rfl

@[ext] theorem ext {a b : Diagnostics} (he : a.errors = b.errors) (ht : a.tips = b.tips) :
    a = b := by
  cases b
  cases he
  cases ht
  rfl

@[simp] theorem empty_append (d : Diagnostics) : ({} : Diagnostics) ++ d = d := rfl

@[simp] theorem append_empty (d : Diagnostics) : d ++ ({} : Diagnostics) = d :=
  ext (List.append_nil _) (List.append_nil _)

theorem append_assoc (a b c : Diagnostics) : a ++ b ++ c = a ++ (b ++ c) :=
  ext (List.append_assoc ..) (List.append_assoc ..)

end Diagnostics

/-- A result with the reports made on the way to it. -/
structure Noted (α : Type) where
  value : α
  notes : Diagnostics := {}
  deriving Inhabited

namespace Noted

instance : Monad Noted where
  pure value := { value }
  bind a f :=
    let b := f a.value
    { value := b.value, notes := a.notes ++ b.notes }

def error (problem : Problem) (span : Option Span) : Noted Unit :=
  { value := (), notes := { errors := [⟨problem, span⟩] } }

def tip (advice : Advice) (span : Option Span) : Noted Unit :=
  { value := (), notes := { tips := [⟨advice, span⟩] } }

@[simp] theorem value_pure {α : Type} (a : α) : (pure a : Noted α).value = a := rfl

@[simp] theorem notes_pure {α : Type} (a : α) : (pure a : Noted α).notes = {} := rfl

@[simp] theorem value_bind {α β : Type} (a : Noted α) (f : α → Noted β) :
    (a >>= f).value = (f a.value).value := rfl

@[simp] theorem notes_bind {α β : Type} (a : Noted α) (f : α → Noted β) :
    (a >>= f).notes = a.notes ++ (f a.value).notes := rfl

@[ext] theorem ext {α : Type} {a b : Noted α} (hv : a.value = b.value) (hn : a.notes = b.notes) :
    a = b := by
  cases b
  cases hv
  cases hn
  rfl

/-- Reports are only ever added, so the order in which steps are grouped does not matter. -/
instance : LawfulMonad Noted :=
  LawfulMonad.mk' Noted (fun _ => ext rfl (Diagnostics.append_empty _))
    (fun _ _ => ext rfl (Diagnostics.empty_append _))
    (fun _ _ _ => ext rfl (Diagnostics.append_assoc ..))

end Noted

/-- A failed extension: the hook that failed and what it said. -/
structure HookFailure where
  hook : String
  cause : String
  deriving DecidableEq, Inhabited

def HookFailure.message (f : HookFailure) : String := f.hook ++ " hook failed"

/-- A result that an extension may prevent, with the reports made up to its end. -/
abbrev Outcome := ExceptT HookFailure Noted

def Outcome.result {α : Type} (o : Outcome α) : Except HookFailure α := o.run.value

def Outcome.notes {α : Type} (o : Outcome α) : Diagnostics := o.run.notes

end TemplateCompiler
