import Mathlib.Logic.Equiv.Basic
import TemplateCompiler.Proofs.Origin
import TemplateCompiler.Proofs.Unwritten

/-!
# Elements that are spelled differently

A binding may be written `:name` or `r-bind:name`, and a listener `@name` or `r-on:name`. Many
places look for both: keys, references, slots, components, classes, styles, inputs of a computed
type, two-way bindings, and at last whatever is still pending. Here two elements are compared of
which the second has one name in its long form.

`Element.Alike r` relates them. They are the same apart from their markup, and in the markup a
look-up under a name in the one is a look-up under the name respelled in the other. The respelling
exchanges the two forms of one name, and the first element does not have the long one, so the place
that tries the short form first finds the same in both (`Alike.takeBound`).

Main result: `process_alike`. Giving attributes their meaning keeps elements alike, and reports as
many errors and tips.
-/

namespace TemplateCompiler

open List Option

variable {name other : String} {α : Type} {front cs : List Char} {attr : Attr}

/-! ## Cutting behind a text without the mark -/

namespace Text

variable {m : Char} {front : List Char}

theorem cut?_append (h : m ∉ front) (cs : List Char) :
    cut? [m] (front ++ cs) = (cut? [m] cs).map fun p => (front ++ p.1, p.2) := by
  induction front with
  | nil => simp
  | cons c front ih =>
    rw [mem_cons, not_or] at h
    rw [cons_append, cut?_singleton_cons, if_neg h.1, ih h.2, Option.map_map]
    rfl

theorem cutLast?_append (h : m ∉ front) :
    cutLast? m (front ++ cs) = (cutLast? m cs).map fun p => (front ++ p.1, p.2) := by
  unfold cutLast?
  rw [reverse_append]
  cases hcut : cut? [m] cs.reverse with
  | some parts =>
    have hparts := append_eq_of_cut? hcut
    rw [← hparts, List.append_assoc, List.append_assoc, singleton_append,
      cut?_singleton_append (not_mem_of_cut? hcut)]
    simp
  | none =>
    have hempty : cut? [m] front.reverse = none := by
      have hend := cut?_append (mt mem_reverse.mp h) []
      rwa [append_nil] at hend
    rw [cut?_append (not_mem_of_cut?_eq_none hcut), hempty]
    rfl

end Text

/-! ## Names in their short and in their long form -/

/-- The two directives that have a short form. -/
inductive Sign where
  | bind
  | on
  deriving DecidableEq

namespace Sign

def mark : Sign → Char
  | .bind => ':'
  | .on => '@'

/-- The directive with the colon before its argument. -/
def word : Sign → String
  | .bind => "r-bind:"
  | .on => "r-on:"

def short (sign : Sign) (name : String) : String := String.singleton sign.mark ++ name

def long (sign : Sign) (name : String) : String := sign.word ++ name

end Sign

def isPlainName (name : String) : Bool :=
  name.toList.head?.all (fun c => c ≠ ':' && c ≠ '@') &&
    !"r-bind:".toList.isPrefixOf name.toList && !"r-on:".toList.isPrefixOf name.toList

/-- The name that is in its short form in one tag and in its long form in the other, if any. -/
abbrev Respelling := Option (Sign × String)

namespace Respelling

/-- Exchanges the two forms of the name. -/
def rename : Respelling → Equiv.Perm String
  | none => Equiv.refl String
  | some (sign, name) => Equiv.swap (sign.short name) (sign.long name)

def long? (r : Respelling) : Option String := r.map fun p => p.1.long p.2

theorem rename_rename (r : Respelling) : r.rename (r.rename name) = name := by
  cases r with
  | none => rfl
  | some p => exact Equiv.swap_apply_self _ _ _

theorem short_ne_of_isPlainName (h : isPlainName name) (sign : Sign) : name ≠ sign.short other := by
  rintro rfl
  cases sign <;> simp [isPlainName, Sign.short, Sign.mark] at h

theorem long_ne_of_isPlainName (h : isPlainName name) (sign : Sign)
    (other : String) : name ≠ sign.long other := by
  rintro rfl
  cases sign <;> simp [isPlainName, Sign.long, Sign.word, List.isPrefixOf] at h

theorem rename_of_isPlainName (r : Respelling) (h : isPlainName name) :
    r.rename name = name := by
  cases r with
  | none => rfl
  | some p =>
    exact Equiv.swap_apply_of_ne_of_ne (short_ne_of_isPlainName h _)
      (long_ne_of_isPlainName h _ _)

/-- The two forms of a bound name are the same in both tags, unless it is the one respelled. -/
theorem rename_bound (r : Respelling) (name : String) : r = some (.bind, name) ∨
      (r.rename (":" ++ name) = ":" ++ name ∧
        r.rename ("r-bind:" ++ name) = "r-bind:" ++ name) := by
  cases r with
  | none => exact .inr ⟨rfl, rfl⟩
  | some p =>
    obtain ⟨sign, other⟩ := p
    by_cases h : sign = .bind ∧ other = name
    · rw [h.1, h.2]
      exact .inl rfl
    · refine .inr ⟨Equiv.swap_apply_of_ne_of_ne ?_ ?_, Equiv.swap_apply_of_ne_of_ne ?_ ?_⟩
      all_goals
        intro heq
        have hlist := congrArg String.toList heq
        cases sign <;> simp [Sign.short, Sign.long, Sign.mark, Sign.word] at hlist
      · exact h ⟨rfl, String.toList_inj.mp hlist.symm⟩
      · exact h ⟨rfl, String.toList_inj.mp hlist.symm⟩

/-- A name is the same in both tags, or it is in its short form in the first one. -/
theorem rename_cases (r : Respelling) (hfresh : ∀ long ∈ r.long?, name ≠ long) :
    r.rename name = name ∨
      ∃ sign x, name = Sign.short sign x ∧ r.rename name = Sign.long sign x := by
  cases r with
  | none => exact .inl rfl
  | some p =>
    by_cases hshort : name = p.1.short p.2
    · refine .inr ⟨p.1, p.2, hshort, ?_⟩
      rw [hshort]
      exact Equiv.swap_apply_left _ _
    · exact .inl (Equiv.swap_apply_of_ne_of_ne hshort (hfresh _ rfl))

end Respelling

/-! ## Attributes and elements that are alike -/

/-- An attribute with its name respelled, anywhere in the source. -/
structure Attr.Respelled (r : Respelling) (attr attr' : Attr) : Prop where
  name : attr'.name = r.rename attr.name
  value : attr'.value = attr.value

/-- Attributes with their names respelled, of which the first ones do not have the long form. -/
structure Respelling.Spells (r : Respelling) (attrs attrs' : List Attr) : Prop where
  pairs : List.Forall₂ (Attr.Respelled r) attrs attrs'
  fresh : ∀ name ∈ r.long?, ∀ attr ∈ attrs, attr.name ≠ name

def Element.writing (el : Element) : Writing where
  pending := el.pending
  source := el.source
  directives := el.directives
  span := el.span

/-- The same markup, but for the respelling and for places. It does not ask for content to be left
as written, since then its spelling would show. -/
structure Writing.Respelled (r : Respelling) (w w' : Writing) : Prop where
  pending : r.Spells w.pending w'.pending
  source : ∀ name, w'.source.get? (r.rename name) = w.source.get? name
  fresh : ∀ name ∈ r.long?, w.source.get? name = none
  processed : w.source.get? "r-pre" = none
  directives : w'.directives.map Directive.unwritten = w.directives.map Directive.unwritten

def Element.Alike (r : Respelling) (el el' : Element) : Prop :=
  ∃ w, el' = el.rewritten w ∧ el.writing.Respelled r w

namespace Respelling.Spells

variable {r : Respelling} {attrs attrs' : List Attr}

theorem eraseP (h : r.Spells attrs attrs') (name : String) :
    r.Spells (attrs.eraseP (·.name = name)) (attrs'.eraseP (·.name = r.rename name)) := by
  refine ⟨?_, fun n hn attr hattr => h.fresh n hn attr (mem_of_mem_eraseP hattr)⟩
  obtain ⟨hpairs, -⟩ := h
  induction hpairs with
  | nil => exact .nil
  | @cons attr attr' rest rest' hattr hrest ih =>
    simp only [eraseP_cons, hattr.name, EmbeddingLike.apply_eq_iff_eq]
    cases decide (attr.name = name) with
    | true => exact hrest
    | false => exact .cons hattr ih

theorem isEmpty_eq (h : r.Spells attrs attrs') : attrs'.isEmpty = attrs.isEmpty := by
  cases h.pairs <;> rfl

end Respelling.Spells

namespace Element

variable {r : Respelling} {el el' : Element}

section

variable (h : el.Alike r el')

include h

/-- What happens to both elements in the same way, whatever their markup, keeps them alike. -/
theorem Alike.update (f : Element → Element)
    (hf : ∀ w, f (el.rewritten w) = (f el).rewritten w) : (f el).Alike r (f el') := by
  obtain ⟨w, rfl, hw⟩ := h
  refine ⟨w, hf w, ?_⟩
  have hself : (f (el.rewritten el.writing)).writing = ((f el).rewritten el.writing).writing :=
    congrArg writing (hf el.writing)
  change (f el).writing = el.writing at hself
  rw [hself]
  exact hw

theorem Alike.field (g : Element → α) (hg : ∀ w, g (el.rewritten w) = g el) : g el' = g el := by
  obtain ⟨w, rfl, hw⟩ := h
  exact hg w

theorem Alike.pending : r.Spells el.pending el'.pending := by
  obtain ⟨w, rfl, hw⟩ := h
  exact hw.pending

theorem Alike.attr? (name : String) : el'.attr? (r.rename name) = el.attr? name := by
  obtain ⟨w, rfl, hw⟩ := h
  exact hw.source name

theorem Alike.attr?_plain (hname : isPlainName name) : el'.attr? name = el.attr? name := by
  rw [← h.attr? name, r.rename_of_isPlainName hname]

theorem Alike.hasAttr_plain (hname : isPlainName name) :
    el'.hasAttr name = el.hasAttr name :=
  congrArg Option.isSome (h.attr?_plain hname)

end

/-- The bound value that an element was written with, in either form. -/
def bound? (el : Element) (name : String) : Option String :=
  (el.attr? (":" ++ name)).or (el.attr? ("r-bind:" ++ name))

/-- Of a name that is respelled, the first element has the short form only and the second one the
long form only. -/
theorem Alike.forms (h : el.Alike (some (.bind, name)) el') :
    el.attr? ("r-bind:" ++ name) = none ∧ el'.attr? (":" ++ name) = none ∧
      el'.attr? ("r-bind:" ++ name) = el.attr? (":" ++ name) := by
  have hshort : Respelling.rename (some (.bind, name)) (":" ++ name) = "r-bind:" ++ name :=
    Equiv.swap_apply_left _ _
  have hlong : Respelling.rename (some (.bind, name)) ("r-bind:" ++ name) = ":" ++ name :=
    Equiv.swap_apply_right _ _
  have hnone : el.attr? ("r-bind:" ++ name) = none := by
    obtain ⟨w, -, hw⟩ := h
    exact hw.fresh _ rfl
  refine ⟨hnone, ?_, ?_⟩
  · rw [← hlong, h.attr?, hnone]
  · rw [← hshort, h.attr?]

theorem Alike.bound? (h : el.Alike r el') (name : String) : el'.bound? name = el.bound? name := by
  unfold Element.bound?
  rcases r.rename_bound name with rfl | ⟨hshort, hlong⟩
  · obtain ⟨hnone, hnone', heq⟩ := h.forms
    rw [hnone, hnone', heq, none_or, or_none]
  · rw [← h.attr? (":" ++ name), ← h.attr? ("r-bind:" ++ name), hshort, hlong]

/-! ## Taking attributes -/

def Taken {α : Type} (r : Respelling) (taken taken' : α × Element) : Prop :=
  taken'.1 = taken.1 ∧ taken.2.Alike r taken'.2

theorem Alike.take (h : el.Alike r el') (name : String) :
    Taken r (el.take name) (el'.take (r.rename name)) := by
  have hattr := h.attr? name
  unfold Element.take
  rw [hattr]
  cases el.attr? name with
  | none => exact ⟨rfl, h⟩
  | some value =>
    obtain ⟨w, rfl, hw⟩ := h
    refine ⟨rfl, { w with pending := w.pending.eraseP (·.name = r.rename name) }, rfl, ?_⟩
    exact { hw with pending := hw.pending.eraseP name }

theorem Alike.take_plain (h : el.Alike r el') (hname : isPlainName name) :
    Taken r (el.take name) (el'.take name) := by
  have := h.take name
  rwa [r.rename_of_isPlainName hname] at this

theorem Alike.takeBound (h : el.Alike r el') (name : String) :
    Taken r (el.takeBound name "r-") (el'.takeBound name "r-") := by
  have hname : "r-" ++ "bind:" ++ name = "r-bind:" ++ name := rfl
  unfold Element.takeBound
  rw [hname]
  rcases r.rename_bound name with rfl | ⟨hshort, hlong⟩
  · -- the first element has the short form where the second one has the long form
    obtain ⟨hnone, hnone', heq⟩ := h.forms
    have hpair := h.take (":" ++ name)
    have hrename : Respelling.rename (some (.bind, name)) (":" ++ name) = "r-bind:" ++ name :=
      Equiv.swap_apply_left _ _
    rw [hrename] at hpair
    cases hval : el.attr? (":" ++ name) with
    | none =>
      simp only [Element.take, hnone, hnone', heq, hval]
      exact ⟨rfl, h⟩
    | some value =>
      simp only [Element.take, heq, hval] at hpair
      simp only [Element.take, hnone', heq, hval]
      exact ⟨rfl, hpair.2⟩
  · have hpair := h.take (":" ++ name)
    rw [hshort] at hpair
    obtain ⟨hval, hrest⟩ := hpair
    generalize el.take (":" ++ name) = taken at hval hrest ⊢
    generalize el'.take (":" ++ name) = taken' at hval hrest ⊢
    obtain ⟨value, el₁⟩ := taken
    obtain ⟨value', el₁'⟩ := taken'
    cases hval
    cases value with
    | some value => exact ⟨rfl, hrest⟩
    | none =>
      have hpair := hrest.take ("r-bind:" ++ name)
      rw [hlong] at hpair
      exact ⟨congrArg (Option.map FilterChain.parse) hpair.1, hpair.2⟩

theorem Taken.exists {taken taken' : α × Element} (h : Taken r taken taken') :
    ∃ value el el', taken = (value, el) ∧ taken' = (value, el') ∧ el.Alike r el' := by
  obtain ⟨value, el⟩ := taken
  obtain ⟨value', el'⟩ := taken'
  obtain ⟨hval, hrest⟩ := h
  cases hval
  exact ⟨value, el, el', rfl, rfl, hrest⟩

theorem Alike.takeFlag (h : el.Alike r el') (hname : isPlainName name) :
    Taken r (el.takeFlag name) (el'.takeFlag name) := by
  obtain ⟨hval, hrest⟩ := h.take_plain hname
  exact ⟨congrArg Option.isSome hval, hrest⟩

/-! ## Structural directives -/

variable {s : Settings}

theorem isPlainName_directive (hs : s.directivePrefix = "r-")
    (h : isPlainName ("r-" ++ name)) : isPlainName (s.directive name) := by
  unfold Settings.directive
  rw [hs]
  exact h

theorem Alike.takeValued (h : el.Alike r el') (hname : isPlainName (s.directive name)) :
    (el.takeValued s name).Agree (Taken r) (el'.takeValued s name) := by
  obtain ⟨value, el₁, el₁', htaken, htaken', h₁⟩ := (h.take_plain hname).exists
  unfold Element.takeValued
  rw [htaken, htaken']
  cases value with
  | none => exact .pure ⟨rfl, h₁⟩
  | some value =>
    dsimp only
    split
    · exact .bind (.error _ _ _ _) fun _ _ _ => .pure ⟨rfl, h₁⟩
    · exact .pure ⟨rfl, h₁⟩

section

variable (hs : s.directivePrefix = "r-") (h : el.Alike r el')

include hs h

theorem Alike.takeLoop : (el.takeLoop s).Agree (Alike r) (el'.takeLoop s) := by
  have hfor : isPlainName (s.directive "for") := isPlainName_directive hs (by decide)
  refine .bind (h.takeValued hfor) fun taken taken' htaken => ?_
  obtain ⟨exp, el₁, el₁', rfl, rfl, h₁⟩ := htaken.exists
  cases exp with
  | none => exact .pure h₁
  | some exp =>
    dsimp only
    cases LoopHead.parse? exp with
    | none => exact .bind (.error _ _ _ _) fun _ _ _ => .pure h₁
    | some loop =>
      exact .pure (h₁.update (fun el => { el with loop := some loop }) fun _ => rfl)

theorem Alike.takeCondition (id : NodeId) :
    (el.takeCondition s id).Agree (Alike r) (el'.takeCondition s id) := by
  have hif : isPlainName (s.directive "if") := isPlainName_directive hs (by decide)
  have helse : isPlainName (s.directive "else") := isPlainName_directive hs (by decide)
  have helseIf : isPlainName (s.directive "else-if") :=
    isPlainName_directive hs (by decide)
  refine .bind (h.takeValued hif) fun taken taken' htaken => ?_
  obtain ⟨exp, el₁, el₁', rfl, rfl, h₁⟩ := htaken.exists
  cases exp with
  | some exp =>
    exact .pure (h₁.update (fun el => { el with
        ifExp := some exp, conditions := el.conditions ++ [{ exp := some exp, block := id }] })
      fun _ => rfl)
  | none =>
    dsimp only
    obtain ⟨isElse, el₂, el₂', hflag, hflag', h₂⟩ := (h₁.takeFlag helse).exists
    rw [hflag, hflag']
    have h₃ : (if isElse then { el₂ with isElse := true } else el₂).Alike r
        (if isElse then { el₂' with isElse := true } else el₂') := by
      split
      · exact h₂.update (fun el => { el with isElse := true }) fun _ => rfl
      · exact h₂
    refine .bind (h₃.takeValued helseIf) fun taken taken' htaken => ?_
    obtain ⟨exp, el₄, el₄', rfl, rfl, h₄⟩ := htaken.exists
    cases exp with
    | none => exact .pure h₄
    | some exp => exact .pure (h₄.update (fun el => { el with elseIf := some exp }) fun _ => rfl)

theorem Alike.takeOnce : (el.takeOnce s).Alike r (el'.takeOnce s) := by
  have honce : isPlainName (s.directive "once") := isPlainName_directive hs (by decide)
  obtain ⟨once, el₁, el₁', hflag, hflag', h₁⟩ := (h.takeFlag honce).exists
  unfold Element.takeOnce
  rw [hflag, hflag']
  dsimp only
  split
  · exact h₁.update (fun el => { el with once := true }) fun _ => rfl
  · exact h₁

end

/-! ## Both forms of a name -/

end Element

/-- Adds the binding or the listener that a name in either form stands for. -/
def Sign.add (sign : Sign) (s : Settings) (el : Element) (attr : Attr) (name : List Char)
    (modifiers : Option (List String)) : Noted Element :=
  match sign with
  | .bind => el.addBinding s attr name (modifiers.getD [])
  | .on => el.addListener attr name modifiers

namespace Element

open Text

/-- What stands before the argument of a directive has no say in its modifiers. -/
theorem splitModifiers_append (hbracket : ']' ∉ front) (hdot : '.' ∉ front) (name : List Char) :
    splitModifiers (front ++ name) =
      (front ++ (splitModifiers name).1, (splitModifiers name).2) := by
  unfold splitModifiers
  rw [cutLast?_append hbracket]
  cases cutLast? ']' name with
  | none =>
    dsimp only [map_none]
    rw [cut?_append hdot]
    cases cut? ['.'] name <;> rfl
  | some parts =>
    dsimp only [map_some]
    cases cut? ['.'] parts.2 with
    | none => rfl
    | some parts => simp

variable {r : Respelling} {el el' : Element} {s : Settings} {above above' : List Element}

theorem addAttribute_of_form (hs : s.directivePrefix = "r-") {sign : Sign}
    (hfront : front = [sign.mark] ∨ front = sign.word.toList) {name : List Char}
    (hname : attr.name.toList = front ++ name) :
    el.addAttribute s above attr =
      sign.add s { el with hasBindings := true } attr (splitModifiers name).1
        (splitModifiers name).2 := by
  have hbind : (s.directive "bind:").toList = "r-bind:".toList := by
    rw [Settings.directive, hs]
    rfl
  have hon : (s.directive "on:").toList = "r-on:".toList := by
    rw [Settings.directive, hs]
    rfl
  have hbracket : ']' ∉ front := by
    rcases hfront with rfl | rfl <;> cases sign <;> decide
  have hdot : '.' ∉ front := by
    rcases hfront with rfl | rfl <;> cases sign <;> decide
  have hdir : isDirectiveName s (front ++ name) := by
    unfold isDirectiveName
    rw [hs]
    rcases hfront with rfl | rfl <;> cases sign <;> rfl
  unfold Element.addAttribute
  simp only [hname, hdir, splitModifiers_append hbracket hdot, hbind, hon]
  rcases hfront with rfl | rfl <;> cases sign <;> rfl

/-! ## Attributes -/

theorem Alike.addDirective (h : el.Alike r el') {directive directive' : Directive}
    (hsame : directive'.unwritten = directive.unwritten) :
    (el.addDirective directive).Alike r (el'.addDirective directive') := by
  obtain ⟨w, rfl, hw⟩ := h
  refine ⟨{ w with directives := w.directives ++ [directive'] }, rfl, { hw with directives := ?_ }⟩
  show (w.directives ++ [directive']).map _ = (el.directives ++ [directive]).map _
  have hbef : w.directives.map Directive.unwritten = el.directives.map Directive.unwritten :=
    hw.directives
  rw [map_append, map_append, hbef, map_singleton, map_singleton, hsame]

theorem unwritten_directiveOf (span : Span) (name : List Char) (modifiers : List String) :
    (directiveOf s { attr with span } name modifiers).unwritten =
      (directiveOf s attr name modifiers).unwritten := rfl

def SameDirective (d d' : Directive) : Prop := d'.unwritten = d.unwritten

theorem forall₂_sameDirective {ds ds' : List Directive} :
    Forall₂ SameDirective ds ds' ↔ ds'.map Directive.unwritten = ds.map Directive.unwritten := by
  rw [← forall₂_eq_eq_eq, forall₂_map_left_iff, forall₂_map_right_iff]
  exact ⟨Forall₂.flip, Forall₂.flip⟩

theorem Alike.edit (h : el.Alike r el') {good : String → Prop} {f : Element → Element}
    (hf : Edit above good el f) : (f el).Alike r (f el') := by
  by_cases hsame : ∀ w, f (el.rewritten w) = (f el).rewritten w
  · exact h.update f hsame
  -- only the directives of an element are part of its markup
  cases hf with
  | directive => exact h.addDirective rfl
  | directives =>
    obtain ⟨w, rfl, hw⟩ := h
    exact ⟨{ w with directives := _ }, rfl, { hw with directives := rfl }⟩
  | handler =>
    refine absurd (fun w => ?_) hsame
    rfl
  | _ => exact absurd (fun _ => rfl) hsame

theorem alike_editWalk (habove : above'.map (·.loop) = above.map (·.loop)) (r : Respelling) :
    EditWalk s above above' (fun _ => True) SameDirective (Alike r) where
  code := .trivial
  loops := habove
  view h := by
    obtain ⟨w, rfl, -⟩ := h
    exact ⟨rfl, rfl, rfl, rfl, rfl⟩
  type h := h.attr?_plain (by decide)
  edit h := h.edit
  add h := h.addDirective

theorem Alike.addAttribute (hs : s.directivePrefix = "r-") (h : el.Alike r el')
    (habove : above'.map (·.loop) = above.map (·.loop)) {attr' : Attr}
    (hattr : attr.Respelled r attr') (hfresh : ∀ long ∈ r.long?, attr.name ≠ long) :
    (el.addAttribute s above attr).Agree (Alike r) (el'.addAttribute s above' attr') := by
  have hwalk := alike_editWalk (s := s) habove r
  have hbindings := h.update (fun el => { el with hasBindings := true }) fun _ => rfl
  rcases r.rename_cases hfresh with hsame | ⟨sign, x, hshort, hlong⟩
  · -- the name is the same, so the two attributes differ in their place only
    obtain ⟨hname, hval⟩ := hattr
    rw [hsame] at hname
    obtain ⟨span, rfl⟩ : ∃ span, attr' = { attr with span } := by
      obtain ⟨name, value, span⟩ := attr'
      cases hname
      cases hval
      exact ⟨span, rfl⟩
    unfold Element.addAttribute
    refine rel_ite Iff.rfl (hwalk.addPlain span (h.update (·.addAttr _ _) fun _ => rfl)) ?_
    generalize splitModifiers attr.name.toList = parts
    obtain ⟨name, modifiers⟩ := parts
    dsimp only
    cases stripEither? ':' (s.directive "bind:").toList name with
    | some name => exact hwalk.addBinding hbindings rfl hval trivial (fun _ _ => trivial) _
    | none =>
      cases stripEither? '@' (s.directive "on:").toList name with
      | some name => exact hwalk.addListener hbindings hval trivial (fun _ _ => trivial) _
      | none =>
        exact hwalk.addWrittenDirective hbindings hval (unwritten_directiveOf span _ _) rfl
  · -- both forms of the name stand for the same
    have hname : attr.name.toList = [sign.mark] ++ x.toList := by
      rw [hshort, Sign.short, String.toList_append, String.toList_singleton]
    have hname' : attr'.name.toList = sign.word.toList ++ x.toList := by
      rw [hattr.name, hlong, Sign.long, String.toList_append]
    rw [addAttribute_of_form hs (.inl rfl) hname, addAttribute_of_form hs (.inr rfl) hname']
    cases sign with
    | bind => exact hwalk.addBinding hbindings rfl hattr.value trivial (fun _ _ => trivial) _
    | on => exact hwalk.addListener hbindings hattr.value trivial (fun _ _ => trivial) _

theorem Alike.addAttributes (hs : s.directivePrefix = "r-")
    (habove : above'.map (·.loop) = above.map (·.loop)) {attrs attrs' : List Attr}
    (hattrs : r.Spells attrs attrs') (h : el.Alike r el') :
    (Element.addAttributes s above attrs el).Agree (Alike r)
      (Element.addAttributes s above' attrs' el') := by
  obtain ⟨hpairs, hfresh⟩ := hattrs
  induction hpairs generalizing el el' with
  | nil => exact .pure h
  | cons hattr hrest ih =>
    refine .bind (h.addAttribute hs habove hattr fun n hn => hfresh n hn _ mem_cons_self)
      fun el₁ el₁' h₁ => ?_
    exact ih h₁ fun n hn attr hmem => hfresh n hn attr (mem_cons_of_mem _ hmem)

/-! ## Processing as a whole -/

theorem alike_walk (hs : s.directivePrefix = "r-")
    (habove : above'.map (·.loop) = above.map (·.loop)) (r : Respelling) :
    Walk s above above' (fun _ => True) SameDirective (Alike r) where
  toEditWalk := alike_editWalk habove r
  looped h := h.hasAttr_plain (isPlainName_directive hs (by decide))
  bound {el el'} h name := by
    have hbound (el : Element) : (el.hasAttr (":" ++ name) ||
        el.hasAttr (s.directive ("bind:" ++ name))) = (el.bound? name).isSome := by
      rw [Element.bound?, isSome_or, Settings.directive, hs]
      rfl
    rw [hbound, hbound, h.bound?]
  take name h hname := by
    have hplain : isPlainName name := by
      revert name
      decide
    obtain ⟨value, el₁, el₁', htaken, htaken', h₁⟩ := (h.take_plain hplain).exists
    exact ⟨value, el₁, el₁', htaken, htaken', fun _ _ _ => trivial, h₁⟩
  takeBound name h _ := by
    rw [hs]
    obtain ⟨value, el₁, el₁', htaken, htaken', h₁⟩ := (h.takeBound name).exists
    exact ⟨value, el₁, el₁', htaken, htaken', fun _ _ => trivial, h₁⟩
  placed {d d'} hd :=
    ⟨d'.span, congrArg (fun d : Directive => { d with span := d'.span }) hd⟩
  written _ _ _ := trivial
  runtime {d d'} needsRuntime hd :=
    congrArg (fun d : Directive => ({ d with needsRuntime } : Directive))
      (show d'.unwritten = _ from hd)
  stored h := by
    obtain ⟨w, rfl, hw⟩ := h
    exact forall₂_sameDirective.mpr hw.directives
  restore h hds := by
    obtain ⟨w, rfl, hw⟩ := h
    exact ⟨{ w with directives := _ }, rfl, { hw with directives := forall₂_sameDirective.mp hds }⟩

theorem process_alike {o : Options} (ho : o.UsesWeb) (hs : o.directivePrefix = "r-")
    (habove : above'.map (·.loop) = above.map (·.loop)) (h : el.Alike r el') :
    (el.process o above).Agree (Alike r) (el'.process o above') := by
  refine (alike_walk hs habove r).process ho h
    (fun h => Alike.addAttributes hs habove h.pending h) ?_
  intro el el' h
  unfold withPlain
  rw [h.pending.isEmpty_eq]
  exact h.update (fun el' => { el' with
    plain := el'.key.isNone && el'.scopedSlots.isEmpty && el.pending.isEmpty }) fun _ => rfl

end Element

end TemplateCompiler
