import TemplateCompiler.Proofs.Origin
import TemplateCompiler.Proofs.Omission

/-!
# Which attributes of an element are found to have no value

A binding, a two-way binding, a loop and a condition need a value. The reports of those that have
none are the errors in `Diagnostics.missing`, and `Outcome.Tells x P` says that the step `x` gives a
result and that `P` holds of it and of the values that `x` has found missing.

Bindings are looked at when all pending attributes of an element are given their meaning. What has
been taken before that is not looked at any more: the first binding of the key, the reference, the
slot, the component, the class and the style (`Element.takenBindings`). So `process_tells` says
which blank values are reported, and which are not.
-/

namespace TemplateCompiler

open List Settings Web Diagnostics Noted Problem

variable {α : Type} {o : Options} {short : Char} {long bare rawName : List Char} {attrs : List Attr}
  {el el' : Element} {source : Dict String} {tag name value : String}
  {names names' modifiers : List String} {above : List Element} {dir : Directive}

def Problem.isMissing : Problem → Bool
  | .valueMissing _ => true
  | _ => false

/-- The errors about attributes that have no value. -/
def Diagnostics.missing (d : Diagnostics) : List (Located Problem) :=
  d.errors.filter (·.cause.isMissing)

@[simp] theorem Diagnostics.missing_append (d d' : Diagnostics) :
    (d ++ d').missing = d.missing ++ d'.missing :=
  filter_append ..

@[simp] theorem Diagnostics.missing_empty : ({} : Diagnostics).missing = [] := rfl

def missingValue (name : String) (span : Span) : Located Problem := ⟨.valueMissing name, span⟩

theorem Noted.Omits.missing {n : Noted α} (h : n.Omits isMissing) : n.notes.missing = [] :=
  filter_eq_nil_iff.mpr fun e he => by simp [h e he]

namespace Outcome

variable {α β : Type} {x : Outcome α}

theorem Omits.missing (h : x.Omits isMissing) : x.notes.missing = [] :=
  filter_eq_nil_iff.mpr fun e he => by simp [h e he]

/-- The step gives a result, and `P` holds of it and of the values it has found missing. -/
def Tells (x : Outcome α) (P : α → List (Located Problem) → Prop) : Prop :=
  ∃ a, x.result = .ok a ∧ P a x.notes.missing

namespace Tells

variable {x : Outcome α} {P : α → List (Located Problem) → Prop} {n : Noted α} {Q : β → List
  (Located Problem) → Prop} {f : α → Outcome β}

theorem pure {a : α} (h : P a []) : Tells (Pure.pure a) P := ⟨a, rfl, h⟩

theorem lift (h : P n.value n.notes.missing) : Tells (liftM n) P :=
  ⟨n.value, rfl, by rwa [notes_lift]⟩

theorem mono {Q : α → List (Located Problem) → Prop} (hx : x.Tells P)
    (h : ∀ a l, P a l → Q a l) : x.Tells Q := by
  obtain ⟨a, ha, hP⟩ := hx
  exact ⟨a, ha, h a _ hP⟩

theorem and {Q : α → Prop} (hx : x.Tells P) (hQ : x.Ensures Q) :
    x.Tells fun a l => P a l ∧ Q a := by
  obtain ⟨a, ha, hP⟩ := hx
  obtain ⟨b, hb, hQ⟩ := hQ
  cases ha.symm.trans hb
  exact ⟨a, ha, hP, hQ⟩

theorem bind (hx : x.Tells P)
    (hf : ∀ a l, P a l → (f a).Tells fun b m => Q b (l ++ m)) : (x >>= f).Tells Q := by
  obtain ⟨a, ha, hP⟩ := hx
  obtain ⟨b, hb, hQ⟩ := hf a _ hP
  refine ⟨b, ?_, ?_⟩
  · rw [result_bind, ha]
    exact hb
  · rwa [notes_bind ha, missing_append]

theorem bindLift
    (hf : (f n.value).Tells fun b m => Q b (n.notes.missing ++ m)) : Tells (liftM n >>= f) Q := by
  refine bind (P := fun a l => a = n.value ∧ l = n.notes.missing) (lift ⟨rfl, rfl⟩) ?_
  rintro a l ⟨rfl, rfl⟩
  exact hf

theorem bindOmits
    (hn : n.Omits isMissing) (hf : (f n.value).Tells Q) : Tells (liftM n >>= f) Q := by
  refine bindLift ?_
  rw [hn.missing]
  exact hf

end Tells

theorem Ensures.tells {P : α → Prop} (hx : x.Ensures P)
    (homits : x.Omits isMissing) : x.Tells fun a l => P a ∧ l = [] := by
  obtain ⟨a, ha, hP⟩ := hx
  exact ⟨a, ha, hP, homits.missing⟩

end Outcome

/-- The extensions of the web, all of them, and the prefix that its directives have. -/
structure Options.IsWeb (o : Options) : Prop where
  modules : o.modules = Web.modules
  directives : o.directives = Web.directives
  directivePrefix : o.directivePrefix = "r-"

theorem Options.IsWeb.usesWeb (ho : o.IsWeb) : o.UsesWeb where
  modules _ hm := ho.modules ▸ hm
  directives name _ h := ⟨name, ho.directives ▸ h⟩

theorem Web.isWeb_options : Web.options.IsWeb := ⟨rfl, rfl, rfl⟩

theorem Settings.directive_eq {s : Settings} (hs : s.directivePrefix = "r-") :
    s.directive name = "r-" ++ name := by
  rw [Settings.directive, hs]

/-! ## Names that need a value -/

namespace Element

open Text

theorem splitModifiers_cut (rawName : List Char) : (splitModifiers rawName).1 = rawName ∨
      ∃ modifiers, (splitModifiers rawName).1 ++ '.' :: modifiers = rawName := by
  unfold splitModifiers
  cases hlast : cutLast? ']' rawName with
  | none =>
    dsimp only
    cases hcut : cut? ['.'] rawName with
    | none => exact .inl rfl
    | some parts => exact .inr ⟨parts.2, by simpa using append_eq_of_cut? hcut⟩
  | some outer =>
    dsimp only
    cases hcut : cut? ['.'] outer.2 with
    | none => exact .inl rfl
    | some parts =>
      refine .inr ⟨parts.2, ?_⟩
      have hparts : parts.1 ++ '.' :: parts.2 = outer.2 := by simpa using append_eq_of_cut? hcut
      rw [← append_eq_of_cutLast? hlast, ← hparts]
      simp

/-- A mark without a dot is at the start of a name if it is there without the modifiers. -/
theorem prefix_splitModifiers {mark : List Char} (hdot : '.' ∉ mark) :
    mark <+: (splitModifiers rawName).1 ↔ mark <+: rawName := by
  rcases splitModifiers_cut rawName with hsame | ⟨modifiers, hcut⟩
  · rw [hsame]
  · have hstarts : (splitModifiers rawName).1 <+: rawName := ⟨_, hcut⟩
    refine ⟨fun h => h.trans hstarts, fun h => ?_⟩
    rcases prefix_or_prefix_of_prefix h hstarts with h | ⟨rest, hrest⟩
    · exact h
    · -- What the mark has beyond the name would start with the dot.
      obtain ⟨more, hmore⟩ := h
      rw [← hrest, List.append_assoc] at hmore
      have hdotted := append_cancel_left (hmore.trans hcut.symm)
      cases rest with
      | nil => exact ⟨[], by rw [append_nil, ← hrest, append_nil]⟩
      | cons c rest =>
        obtain rfl : c = '.' := (List.cons.inj hdotted).1
        exact absurd (hrest ▸ mem_append_right _ mem_cons_self) hdot

/-- An attribute of this name needs a value that is looked for when its element is processed: it is
a binding, or a two-way binding with any argument and modifiers. -/
def needsValue (name : String) : Bool :=
  [':'].isPrefixOf name.toList || "r-bind:".toList.isPrefixOf name.toList ||
    "r-model:".toList.isPrefixOf name.toList || (splitModifiers name.toList).1 = "r-model".toList

end Element

/-- The error for an attribute that needs a value and has none. -/
def Attr.missing? (attr : Attr) : Option (Located Problem) :=
  if Element.needsValue attr.name && Text.isBlank attr.value then
    some (missingValue attr.name attr.span)
  else none

namespace Element

open Text

variable {s : Settings} {attr : Attr} {name : List Char}

theorem stripEither?_eq_none :
    stripEither? short long name = none ↔ ¬ [short] <+: name ∧ ¬ long <+: name := by
  have hnone (mark : List Char) : mark.isPrefixOf? name = none ↔ ¬ mark <+: name := by
    refine ⟨?_, isPrefixOf?_eq_none⟩
    rintro h ⟨rest, rfl⟩
    rw [isPrefixOf?_append] at h
    cases h
  rw [stripEither?, Option.or_eq_none_iff, hnone, hnone]

theorem prefix_of_stripEither? {rest : List Char}
    (h : stripEither? short long name = some rest) : [short] <+: name ∨ long <+: name := by
  rcases Option.or_eq_some_iff.mp h with h | ⟨-, h⟩
  · exact .inl ⟨rest, append_eq_of_isPrefixOf? h⟩
  · exact .inr ⟨rest, append_eq_of_isPrefixOf? h⟩

theorem missing_addBinding : (el.addBinding s attr name modifiers).notes.missing =
      if isBlank attr.value then [missingValue attr.name attr.span] else [] := by
  unfold addBinding
  split <;> rfl

theorem missing_addWrittenDirective (directive : Directive) :
    (el.addWrittenDirective s above attr directive).notes.missing =
      if directive.name = "model" ∧ isBlank attr.value then [missingValue attr.name attr.span]
      else [] := by
  unfold addWrittenDirective
  by_cases hmodel : directive.name = "model"
  · rw [if_pos hmodel]
    by_cases hblank : isBlank attr.value
    · rw [if_pos hblank, if_pos ⟨hmodel, hblank⟩]
      rfl
    · have hneither : ¬ (directive.name = "model" ∧ isBlank attr.value) :=
        fun h => hblank h.2
      rw [if_neg hblank]
      split <;> rfl
  · rw [if_neg hmodel, if_neg fun h => hmodel h.1]
    rfl

/-- A directive is a two-way binding if its name says so up to the argument. -/
theorem name_directiveOf (hs : s.directivePrefix = "r-") :
    (directiveOf s attr ("r-".toList ++ bare) modifiers).name = "model" ↔
      bare = "model".toList ∨ "model:".toList <+: bare := by
  have hbare : (s.directivePrefix.toList.isPrefixOf? ("r-".toList ++ bare)).getD
      ("r-".toList ++ bare) = bare := by
    rw [hs]
    rfl
  unfold directiveOf
  dsimp only
  rw [hbare]
  have hname (cs : List Char) : String.ofList cs = "model" ↔ cs = "model".toList := by
    rw [← String.toList_inj]
    simp
  cases hcut : cut? [':'] bare with
  | none =>
    rw [hname]
    refine ⟨.inl, fun h => h.resolve_right ?_⟩
    rintro ⟨rest, rfl⟩
    cases hcut
  | some parts =>
    rw [hname]
    constructor
    · intro h
      refine .inr ⟨parts.2, ?_⟩
      rw [← append_eq_of_cut? hcut, h]
      rfl
    · rintro (rfl | ⟨rest, rfl⟩)
      · cases hcut
      · cases hcut
        rfl

theorem needsValue_iff (name : String) : needsValue name ↔
      [':'] <+: (splitModifiers name.toList).1 ∨
      "r-bind:".toList <+: (splitModifiers name.toList).1 ∨
        "r-model:".toList <+: (splitModifiers name.toList).1 ∨
          (splitModifiers name.toList).1 = "r-model".toList := by
  rw [prefix_splitModifiers (by decide), prefix_splitModifiers (by decide),
    prefix_splitModifiers (by decide)]
  simp only [needsValue, Bool.or_eq_true, isPrefixOf_iff_prefix, decide_eq_true_eq, or_assoc]

theorem isDirectiveName_of_needsValue (hs : s.directivePrefix = "r-") {name : String}
    (h : needsValue name) : isDirectiveName s name.toList := by
  have hdash (hstarts : "r-".toList <+: name.toList) : isDirectiveName s name.toList := by
    rw [isDirectiveName, hs, isPrefixOf_iff_prefix.mpr hstarts]
    rfl
  rcases (needsValue_iff name).mp h with h | h | h | h
  · rw [prefix_splitModifiers (by decide)] at h
    obtain ⟨rest, hrest⟩ := h
    simp [isDirectiveName, ← hrest]
  · exact hdash ((prefix_splitModifiers (by decide)).mp (.trans (by decide) h))
  · exact hdash ((prefix_splitModifiers (by decide)).mp (.trans (by decide) h))
  · exact hdash ((prefix_splitModifiers (by decide)).mp (h ▸ by decide))

/-- What is left when a name is neither a binding nor a listener. -/
theorem dash_prefix_of_isDirectiveName (hs : s.directivePrefix = "r-") {name : List Char}
    (h : isDirectiveName s name) (hcolon : ¬ [':'] <+: (splitModifiers name).1)
    (hat : ¬ ['@'] <+: (splitModifiers name).1) : "r-".toList <+: (splitModifiers name).1 := by
  rw [prefix_splitModifiers (by decide)] at hcolon hat ⊢
  have hhead (c : Char) (hc : name.head? = some c) : [c] <+: name := by
    obtain ⟨rest, rfl⟩ := head?_eq_some_iff.mp hc
    exact ⟨rest, rfl⟩
  rw [isDirectiveName, hs, Bool.or_eq_true, Bool.or_eq_true, isPrefixOf_iff_prefix,
    decide_eq_true_eq, decide_eq_true_eq] at h
  rcases h with (h | h) | h
  · exact h
  · exact absurd (hhead _ h) hat
  · exact absurd (hhead _ h) hcolon

theorem needsValue_listener {name : String}
    (h : ['@'] <+: (splitModifiers name.toList).1 ∨
      "r-on:".toList <+: (splitModifiers name.toList).1)
    (hcolon : ¬ [':'] <+: (splitModifiers name.toList).1)
    (hbind : ¬ "r-bind:".toList <+: (splitModifiers name.toList).1) : needsValue name = false := by
  rw [← Bool.not_eq_true, needsValue_iff]
  rintro (hneeds | hneeds | hneeds | hneeds)
  · exact hcolon hneeds
  · exact hbind hneeds
  · rcases h with h | h
    all_goals
      have hone := prefix_or_prefix_of_prefix h hneeds
      exact absurd hone (by decide)
  · rw [hneeds] at h
    revert h
    decide

theorem needsValue_directive {name : String}
    (hbare : "r-".toList ++ bare = (splitModifiers name.toList).1)
    (hcolon : ¬ [':'] <+: (splitModifiers name.toList).1)
    (hbind : ¬ "r-bind:".toList <+: (splitModifiers name.toList).1) :
    needsValue name ↔ bare = "model".toList ∨ "model:".toList <+: bare := by
  rw [needsValue_iff]
  generalize (splitModifiers name.toList).1 = name at hbare hcolon hbind ⊢
  subst hbare
  have hlong : "r-model:".toList <+: "r-".toList ++ bare ↔ "model:".toList <+: bare :=
    prefix_append_right_inj "r-".toList
  have hshort : "r-".toList ++ bare = "r-model".toList ↔ bare = "model".toList :=
    append_right_inj "r-".toList
  rw [hlong, hshort]
  simp only [hcolon, hbind, false_or, or_comm]

/-- Of the attributes that are left to the end, those that need a value are reported if they have
none. -/
theorem missing_addAttribute (hs : s.directivePrefix = "r-") :
    (el.addAttribute s above attr).notes.missing = attr.missing?.toList := by
  have homits {n : Noted Element} (h : n.Omits isMissing)
      (hneeds : needsValue attr.name = false) : n.notes.missing = attr.missing?.toList := by
    rw [h.missing, Attr.missing?, hneeds]
    rfl
  unfold addAttribute
  dsimp only
  have hbindName : s.directive "bind:" = "r-bind:" := by rw [directive_eq hs]; rfl
  rw [hbindName, directive_eq hs]
  split
  · next hplain =>
    refine homits (addPlain_omits s el attr) ?_
    rw [← Bool.not_eq_true]
    intro hneeds
    rw [isDirectiveName_of_needsValue hs hneeds] at hplain
    cases hplain
  · next hdir =>
    have hname : isDirectiveName s attr.name.toList := by simpa using hdir
    split
    · next hbound =>
      have hneeds : needsValue attr.name := by
        rw [needsValue_iff]
        exact (prefix_of_stripEither? hbound).imp id .inl
      rw [missing_addBinding, Attr.missing?, hneeds, Bool.true_and]
      split <;> rfl
    · next hunbound =>
      obtain ⟨hcolon, hbind⟩ := stripEither?_eq_none.mp hunbound
      split
      · next hlistens =>
        exact homits (addListener_omits attr _ _)
          (needsValue_listener (prefix_of_stripEither? hlistens) hcolon hbind)
      · next hother =>
        obtain ⟨hat, -⟩ := stripEither?_eq_none.mp hother
        obtain ⟨bare, hbare⟩ := dash_prefix_of_isDirectiveName hs hname hcolon hat
        rw [missing_addWrittenDirective, Attr.missing?, ← hbare]
        simp only [name_directiveOf hs, ← needsValue_directive hbare hcolon hbind]
        by_cases hval : needsValue attr.name ∧ isBlank attr.value
        · rw [hval.1, hval.2]
          rfl
        · rw [if_neg hval, if_neg (by simpa using hval)]
          rfl

theorem missing_addAttributes (hs : s.directivePrefix = "r-") :
    (addAttributes s above attrs el).notes.missing = attrs.filterMap Attr.missing? := by
  induction attrs generalizing el with
  | nil => rfl
  | cons attr rest ih =>
    have hnotes : (addAttributes s above (attr :: rest) el).notes =
        (el.addAttribute s above attr).notes ++
          (addAttributes s above rest (el.addAttribute s above attr).value).notes := rfl
    rw [hnotes, missing_append, missing_addAttribute hs, ih, filterMap_cons]
    cases attr.missing? <;> rfl

/-! ## Bindings that are taken -/

theorem exists_split_cons {x first : α} {rest : List α} {P : List α → Prop} :
    (∃ before after, first :: rest = before ++ x :: after ∧ P before) ↔
      (x = first ∧ P []) ∨ ∃ before after, rest = before ++ x :: after ∧ P (first :: before) := by
  constructor
  · rintro ⟨before, after, heq, hP⟩
    cases before with
    | nil =>
      cases heq
      exact .inl ⟨rfl, hP⟩
    | cons _ before =>
      cases heq
      exact .inr ⟨before, after, rfl, hP⟩
  · rintro (⟨rfl, hP⟩ | ⟨before, after, rfl, hP⟩)
    · exact ⟨[], rest, rfl, hP⟩
    · exact ⟨first :: before, after, rfl, hP⟩

theorem exists_split_concat {x last : α} {l : List α} {P : List α → Prop} :
    (∃ before after, l ++ [last] = before ++ x :: after ∧ P before) ↔
      (∃ before after, l = before ++ x :: after ∧ P before) ∨ (x = last ∧ P l) := by
  induction l generalizing P with
  | nil =>
    rw [nil_append, exists_split_cons]
    simp
  | cons first rest ih => rw [cons_append, exists_split_cons, exists_split_cons, ih, or_assoc]

theorem mem_names_filter {q : String → Bool} {name : String} (hname : q name) :
    name ∈ (attrs.filter fun a => q a.name).map (·.name) ↔ name ∈ attrs.map (·.name) := by
  simp only [List.mem_map, mem_filter]
  constructor
  · rintro ⟨attr, ⟨hattr, -⟩, heq⟩
    exact ⟨attr, hattr, heq⟩
  · rintro ⟨attr, hattr, rfl⟩
    exact ⟨attr, ⟨hattr, hname⟩, rfl⟩

/-- Dropping attributes of other names does not change which attributes come first. -/
theorem exists_split_filter (q : String → Bool) (attrs : List Attr) (attr : Attr)
    (P : Prop → Prop) :
    (∃ before after, attrs.filter (fun a => q a.name) = before ++ attr :: after ∧
        P (attr.name ∈ before.map (·.name))) ↔
      q attr.name ∧ ∃ before after, attrs = before ++ attr :: after ∧
        P (attr.name ∈ before.map (·.name)) := by
  constructor
  · rintro ⟨before, after, heq, hP⟩
    obtain ⟨front, back, rfl, rfl, hback⟩ := filter_eq_append_iff.mp heq
    obtain ⟨dropped, rest, rfl, hdrop, hattr, rfl⟩ := filter_eq_cons_iff.mp hback
    have hfront : (front ++ dropped).filter (fun a => q a.name) =
        front.filter fun a => q a.name := by
      rw [filter_append, filter_eq_nil_iff.mpr hdrop, append_nil]
    refine ⟨hattr, front ++ dropped, rest, (List.append_assoc ..).symm, ?_⟩
    rwa [← mem_names_filter hattr, hfront]
  · rintro ⟨hattr, before, after, rfl, hP⟩
    refine ⟨before.filter fun a => q a.name, after.filter fun a => q a.name, ?_, ?_⟩
    · rw [filter_append, filter_cons_of_pos (by exact hattr)]
    · rwa [mem_names_filter hattr]

def untaken (names : List String) (attrs : List Attr) : List Attr :=
  names.foldl (fun attrs name => attrs.eraseP (·.name = name)) attrs

theorem untaken_append : untaken (names ++ names') attrs = untaken names' (untaken names attrs) :=
  foldl_append

theorem untaken_cons : untaken names (attr :: attrs) =
      if attr.name ∈ names then untaken (names.erase attr.name) attrs
      else attr :: untaken names attrs := by
  induction names generalizing attrs with
  | nil => rfl
  | cons name names ih =>
    show untaken names ((attr :: attrs).eraseP (·.name = name)) = _
    by_cases hname : attr.name = name
    · rw [eraseP_cons_of_pos (by simpa using hname), if_pos (by simp [hname]), hname,
        erase_cons_head]
    · rw [eraseP_cons_of_neg (by simpa using hname), ih,
        erase_cons_tail (by simpa using Ne.symm hname)]
      simp only [mem_cons, hname, false_or]
      rfl

theorem untaken_nil : untaken names [] = [] := by
  induction names with
  | nil => rfl
  | cons name names ih => exact ih

/-- An attribute is left unless it is the first one of its name and the name is taken. -/
theorem mem_untaken_iff {names : List String} (hnames : names.Nodup) {attr : Attr} :
    attr ∈ untaken names attrs ↔ ∃ before after, attrs = before ++ attr :: after ∧
      ¬ (attr.name ∈ names ∧ attr.name ∉ before.map (·.name)) := by
  induction attrs generalizing names with
  | nil =>
    rw [untaken_nil]
    simp
  | cons first rest ih =>
    rw [untaken_cons, exists_split_cons]
    by_cases hfirst : first.name ∈ names
    · rw [if_pos hfirst, ih (hnames.erase _)]
      have hnone : ¬ (attr = first ∧
          ¬ (attr.name ∈ names ∧ attr.name ∉ ([] : List Attr).map (·.name))) := by
        rintro ⟨rfl, h⟩
        exact h ⟨hfirst, by simp⟩
      simp only [hnone, false_or, hnames.mem_erase_iff, map_cons, mem_cons, not_or,
        and_left_comm, and_assoc]
    · rw [if_neg hfirst, mem_cons, ih hnames]
      refine or_congr ⟨fun h => ⟨h, fun hmem => hfirst (h ▸ hmem.1)⟩, And.left⟩ ?_
      refine exists_congr fun before => exists_congr fun after => and_congr_right fun _ => ?_
      refine not_congr (and_congr_right fun hmem => ?_)
      have hne : attr.name ≠ first.name := fun heq => hfirst (heq ▸ hmem)
      simp [hne]

/-- The bindings among the pending attributes of an element. -/
def valued (el : Element) : List Attr := el.pending.filter fun attr => needsValue attr.name

/-- Every pending binding of the element is among the attributes that it was written with. -/
def Consistent (el : Element) : Prop := ∀ attr ∈ el.valued, el.hasAttr attr.name

theorem filter_eraseP (name : String) (attrs : List Attr) :
    (attrs.eraseP (·.name = name)).filter (fun attr => needsValue attr.name) =
      (attrs.filter fun attr => needsValue attr.name).eraseP (·.name = name) := by
  induction attrs with
  | nil => rfl
  | cons attr rest ih =>
    by_cases hname : attr.name = name
    · subst hname
      by_cases hneeds : needsValue attr.name
      · simp [hneeds]
      · -- No binding has the name.
        have hfree : (rest.filter fun attr => needsValue attr.name).eraseP (·.name = attr.name) =
            rest.filter fun attr => needsValue attr.name := by
          refine eraseP_of_forall_not fun other hother heq => hneeds ?_
          rw [← of_decide_eq_true heq]
          exact (mem_filter.mp hother).2
        simp [hneeds, hfree]
    · by_cases hneeds : needsValue attr.name
      · simp [hname, hneeds, ih]
      · simp [hname, hneeds, ih]

/-- The two elements come from one start tag. -/
structure SameSource (el el' : Element) : Prop where
  tag : el.tag = el'.tag
  source : el.source = el'.source
  span : el.span = el'.span

theorem SameSource.trans {el'' : Element} (h : el.SameSource el') (h' : el'.SameSource el'') :
    el.SameSource el'' :=
  ⟨h.tag.trans h'.tag, h.source.trans h'.source, h.span.trans h'.span⟩

theorem take_view (el : Element) (name : String) : (el.take name).2.SameSource el := by
  unfold take
  split <;> exact ⟨rfl, rfl, rfl⟩

theorem valued_take (hel : el.Consistent) (name : String) :
    (el.take name).2.valued = el.valued.eraseP (·.name = name) := by
  unfold take
  split
  · exact filter_eraseP name el.pending
  · next habsent =>
    rw [eraseP_of_forall_not]
    intro attr hattr heq
    have := hel attr hattr
    rw [of_decide_eq_true heq, hasAttr, Dict.contains, show el.source.get? name = none from habsent]
      at this
    cases this

theorem valued_take_plain {name : String} (hname : needsValue name = false) :
    (el.take name).2.valued = el.valued := by
  unfold take
  split
  · refine (filter_eraseP name el.pending).trans (eraseP_of_forall_not ?_)
    intro attr hattr heq
    obtain ⟨-, hneeds⟩ := mem_filter.mp hattr
    rw [of_decide_eq_true heq, hname] at hneeds
    cases hneeds
  · rfl

/-- The name under which the binding of an attribute is taken: the short one if it was written. -/
def bindingName (source : Dict String) (name : String) : String :=
  if source.contains (":" ++ name) then ":" ++ name else "r-bind:" ++ name

/-- Going from `el` to `el'` takes the bindings of some attributes, in order. -/
structure TakesBindings (names : List String) (el el' : Element) : Prop where
  tag : el'.tag = el.tag
  source : el'.source = el.source
  valued : el.Consistent → el'.valued = untaken (names.map (bindingName el.source)) el.valued

theorem untaken_subset (names : List String) (attrs : List Attr) : untaken names attrs ⊆ attrs := by
  induction names generalizing attrs with
  | nil => exact fun _ h => h
  | cons name names ih => exact fun _ h => eraseP_subset (ih _ h)

namespace TakesBindings

variable {names names' : List String} {el el' el'' : Element}

theorem consistent (h : TakesBindings names el el') (hel : el.Consistent) : el'.Consistent := by
  intro attr hattr
  rw [h.valued hel] at hattr
  rw [hasAttr, h.source]
  exact hel attr (untaken_subset _ _ hattr)

theorem trans (h : TakesBindings names el el') (h' : TakesBindings names' el' el'') :
    TakesBindings (names ++ names') el el'' := by
  refine ⟨h'.tag.trans h.tag, h'.source.trans h.source, fun hel => ?_⟩
  rw [h'.valued (h.consistent hel), h.valued hel, h.source, map_append, untaken_append]

/-- A step that leaves the pending attributes alone takes nothing more. -/
theorem change (h : TakesBindings names el el') (htag : el''.tag = el'.tag)
    (hsrc : el''.source = el'.source) (hpend : el''.pending = el'.pending) :
    TakesBindings names el el'' := by
  refine ⟨htag.trans h.tag, hsrc.trans h.source, fun hel => ?_⟩
  rw [← h.valued hel, Element.valued, hpend]
  rfl

end TakesBindings

variable {el el' : Element}

theorem take_takes (name : String) (hname : needsValue name = false) (el : Element) :
    TakesBindings [] el (el.take name).2 :=
  ⟨(el.take_view name).tag, (el.take_view name).source, fun _ => valued_take_plain hname⟩

theorem takeBound_takes {name : String} {value : Option String}
    (h : el.takeBound name "r-" = (value, el')) : TakesBindings [name] el el' := by
  unfold takeBound at h
  split at h
  · next value el' htake =>
    cases h
    have hval : el.attr? (":" ++ name) = some value := by
      rw [← fst_take, htake]
    obtain ⟨htag, hsrc, -⟩ := el.take_view (":" ++ name)
    have hvalued (hel : el.Consistent) := valued_take hel (":" ++ name)
    rw [htake] at htag hsrc hvalued
    refine ⟨htag, hsrc, fun hel => (hvalued hel).trans ?_⟩
    have hwr : el.source.contains (":" ++ name) := Option.isSome_of_eq_some hval
    rw [map_singleton, bindingName, if_pos hwr]
    rfl
  · next el' htake =>
    have hnone : el.attr? (":" ++ name) = none := by
      rw [← fst_take, htake]
    have hel' : el' = el := by
      unfold take at htake
      rw [hnone] at htake
      exact (Prod.mk.inj htake).2.symm
    subst hel'
    cases h
    obtain ⟨htag, hsrc, -⟩ := el'.take_view ("r-" ++ "bind:" ++ name)
    refine ⟨htag, hsrc, fun hel => (valued_take hel _).trans ?_⟩
    rw [map_singleton, bindingName, Dict.contains, if_neg]
    · rfl
    · rw [show el'.source.get? _ = none from hnone]
      exact Bool.false_ne_true

theorem takeValue_takes {name : String} {value : Option String}
    (h : el.takeValue name "r-" = (value, el')) (hname : needsValue name = false) :
    TakesBindings [name] el el' := by
  unfold takeValue at h
  split at h
  · next htake =>
    cases h
    exact takeBound_takes htake
  · next el' htake =>
    cases h
    exact (takeBound_takes htake).trans (take_takes name hname el')

section Steps

variable (hs : s.directivePrefix = "r-")
include hs

theorem takeKey_takes (el : Element) : TakesBindings ["key"] el (el.takeKey s).value := by
  unfold takeKey
  rw [hs]
  split
  · next htake => split <;> exact (takeValue_takes htake rfl).change rfl rfl rfl
  · next htake => exact takeValue_takes htake rfl

theorem takeRef_takes (above : List Element) : TakesBindings ["ref"] el (el.takeRef s above) := by
  unfold takeRef
  rw [hs]
  split
  · next htake => exact (takeValue_takes htake rfl).change rfl rfl rfl
  · next htake => exact takeValue_takes htake rfl

theorem takeOutlet_takes (el : Element) : TakesBindings ["name"] el (el.takeOutlet s).value := by
  unfold takeOutlet
  rw [hs]
  dsimp only
  split <;> exact (takeValue_takes rfl rfl).change rfl rfl rfl

omit hs in
theorem takeScope_takes (el : Element) : TakesBindings [] el (el.takeScope s).value := by
  have hslotScope (el' : Element) : TakesBindings [] el' (el'.take "slot-scope").2 :=
    take_takes _ rfl el'
  unfold takeScope
  split
  · have hscope : TakesBindings [] el (el.take "scope").2 := take_takes _ rfl el
    split
    · next htake =>
      rw [htake] at hscope
      exact hscope.change rfl rfl rfl
    · next el' htake =>
      rw [htake] at hscope
      exact (hscope.trans (hslotScope el')).change rfl rfl rfl
  · dsimp only
    split <;> exact (hslotScope el).change rfl rfl rfl

theorem takeTarget_takes : TakesBindings ["slot"] el (el.takeTarget s) := by
  unfold takeTarget
  rw [hs]
  split
  · next htake =>
    dsimp only
    split <;> exact (takeValue_takes htake rfl).change rfl rfl rfl
  · next htake => exact takeValue_takes htake rfl

theorem takeSlot_takes (el : Element) :
    TakesBindings [if el.tag = "slot" then "name" else "slot"] el (el.takeSlot s).value := by
  unfold takeSlot
  split
  · exact el.takeOutlet_takes hs
  · exact (el.takeScope_takes).trans (takeTarget_takes hs)

theorem takeComponent_takes (el : Element) : TakesBindings ["is"] el (el.takeComponent s) := by
  have hflag (el' : Element) (h : TakesBindings ["is"] el el') :
      TakesBindings ["is"] el (if (el'.takeFlag "inline-template").1 then
        { (el'.takeFlag "inline-template").2 with inlineTemplate := true }
        else (el'.takeFlag "inline-template").2) := by
    have := h.trans (take_takes "inline-template" rfl el')
    split
    · exact this.change rfl rfl rfl
    · exact this
  unfold takeComponent
  rw [hs]
  rcases htake : el.takeValue "is" "r-" with ⟨component, el'⟩
  have hval := takeValue_takes htake rfl
  cases component with
  | some code => exact hflag _ (hval.change rfl rfl rfl)
  | none => exact hflag el' hval

theorem taken_takes (above : List Element) (el : Element) :
    TakesBindings ["key", "ref", if el.tag = "slot" then "name" else "slot", "is"] el
      (el.taken s above).value := by
  unfold taken described withPlain
  rw [value_bind, value_bind]
  have hkey := el.takeKey_takes hs
  generalize (el.takeKey s).value = el₁ at hkey ⊢
  have hplain (plain : Bool) : TakesBindings ["key"] el { el₁ with plain } :=
    hkey.change rfl rfl rfl
  have href := (hplain (el₁.key.isNone && el₁.scopedSlots.isEmpty && el₁.pending.isEmpty)).trans
    (takeRef_takes hs above)
  generalize Element.takeRef s above _ = el₂ at href ⊢
  have hslot := href.trans (takeSlot_takes hs el₂)
  rw [href.tag] at hslot
  generalize (el₂.takeSlot s).value = el₃ at hslot ⊢
  exact hslot.trans (takeComponent_takes hs el₃)

theorem takeClass_takes (el : Element) : TakesBindings ["class"] el (takeClass s el).value := by
  have hplain := take_takes "class" rfl el
  have hkept : TakesBindings [] el (keepClass (el.take "class").1 (el.take "class").2) := by
    unfold keepClass
    split
    · split
      · exact hplain
      · exact hplain.change rfl rfl rfl
    · exact hplain
  unfold takeClass
  rw [value_bind, value_takePlain]
  unfold takeBoundClass
  rw [hs]
  split
  · next htake => exact (hkept.trans (takeBound_takes htake)).change rfl rfl rfl
  · next htake => exact hkept.trans (takeBound_takes htake)

theorem takeStyle_takes : TakesBindings ["style"] el (takeStyle s el).value := by
  have hplain := take_takes "style" rfl el
  have hkept : TakesBindings [] el (keepStyle (el.take "style").1 (el.take "style").2) := by
    unfold keepStyle
    dsimp only
    split
    · exact hplain
    · exact hplain.change rfl rfl rfl
  unfold takeStyle
  rw [value_bind, value_takePlain]
  unfold takeBoundStyle
  rw [hs]
  split
  · next htake => exact (hkept.trans (takeBound_takes htake)).change rfl rfl rfl
  · next htake => exact hkept.trans (takeBound_takes htake)

end Steps

end Element

/-! ## Extensions of the web -/

namespace Web

theorem takePlain_omits (s : Settings) : (takePlain s name el).Omits isMissing := by
  unfold takePlain
  dsimp only
  split
  · split
    · exact .bind (.tip _ _) (.pure _)
    · exact .pure _
  · exact .pure _

section

variable (s : Settings) (el : Element)

theorem takeClass_omits : (takeClass s el).Omits isMissing :=
  .bind (takePlain_omits s) (.pure _)

theorem takeStyle_omits : (takeStyle s el).Omits isMissing :=
  .bind (takePlain_omits s) (.pure _)

theorem bindText_omits : (bindText s el dir value).Omits isMissing := by
  unfold bindText
  dsimp only
  split
  · split
    · exact .pure _
    · exact .bind (.error rfl _) (.pure _)
  · exact .pure _

theorem bindModel_omits : (bindModel s el dir).Omits isMissing := by
  refine .bind ?_ ?_
  · unfold reportFile
    split
    · exact .error rfl _
    · exact .pure _
  · unfold bindControl
    dsimp only
    split
    · exact .pure _
    split
    · exact .pure _
    split
    · exact .pure _
    split
    · exact .pure _
    split
    · exact .bind (bindText_omits s el) (.pure _)
    split
    · exact .pure _
    · exact .bind (.error rfl _) (.pure _)

end

/-- No handler of the web looks for a missing value. The two-way binding has been checked before. -/
theorem handler_omits {name : String} {handler : DirectiveHandler}
    (h : directives.get? name = some handler) (s : Settings) (el : Element) (dir : Directive) :
    (handler s el dir).Omits isMissing := by
  rcases handler_cases h with rfl | rfl | rfl | rfl | rfl
  · unfold listenersDirective
    split
    · exact .pure _
    · exact .bind (.lift (.error rfl _)) fun _ => .pure _
  · exact .pure _
  · exact .pure _
  · exact .lift (bindModel_omits s el)
  · unfold htmlDirective
    split <;> exact .pure _

end Web

/-! ## Processing as a whole -/

namespace Element

variable {o : Options}

theorem transformAll_tells (ho : o.IsWeb) :
    (transformAll o.toSettings o.modules el).Tells fun el' l =>
      TakesBindings ["class", "style"] el el' ∧ l = [] := by
  rw [ho.modules]
  refine .bindOmits (Web.takeClass_omits _ el) (.bindOmits (Web.takeStyle_omits _ _) ?_)
  refine .pure ⟨?_, rfl⟩
  exact (el.takeClass_takes ho.directivePrefix).trans (takeStyle_takes ho.directivePrefix)

theorem runHandlers_omits (ho : o.UsesWeb) (directives : List Directive) (el : Element) :
    (runHandlers o directives el).Omits isMissing := by
  induction directives generalizing el with
  | nil => exact .pure _
  | cons directive rest ih =>
    refine .bind ?_ fun r => .bind (ih r.1) fun _ => .pure _
    unfold runHandler
    split
    · next handler hhandler =>
      obtain ⟨known, hknown⟩ := ho.directives _ handler hhandler
      exact .bind (handler_omits hknown _ el directive) fun _ => .pure _
    · exact .bind (.lift (.tip _ _)) fun _ => .pure _

/-- The attributes whose bindings processing takes off an element without looking at their
values. -/
def unlookedNames (tag : String) : List String :=
  ["key", "ref", if tag = "slot" then "name" else "slot", "is", "class", "style"]

def takenBindings (tag : String) (source : Dict String) : List String :=
  (unlookedNames tag).map (bindingName source)

theorem unlookedNames_subset (tag : String) :
    unlookedNames tag ⊆ ["key", "ref", "name", "slot", "is", "class", "style"] := by
  unfold unlookedNames
  split <;> decide

/-- The errors for the bindings of an element that have no value, as they are reported when the
element is processed. -/
def missingBindings (tag : String) (source : Dict String) (attrs : List Attr) :
    List (Located Problem) :=
  (untaken (takenBindings tag source) (attrs.filter fun attr => needsValue attr.name)).filterMap
    Attr.missing?

theorem filterMap_missing?_filter :
    (attrs.filter fun attr => needsValue attr.name).filterMap Attr.missing? =
      attrs.filterMap Attr.missing? := by
  rw [filterMap_filter]
  congr
  funext attr
  unfold Attr.missing?
  cases needsValue attr.name <;> rfl

theorem bindingName_inj {name name' : String}
    (h : bindingName source name = bindingName source name') : name = name' := by
  have hhead (text text' : String) : ":" ++ text ≠ "r-bind:" ++ text' := by
    intro heq
    have := congrArg (fun text => text.toList.head?) heq
    simp at this
  unfold bindingName at h
  split at h <;> split at h
  · simpa using h
  · exact absurd h (hhead _ _)
  · exact absurd h.symm (hhead _ _)
  · simpa using h

theorem nodup_takenBindings : (takenBindings tag source).Nodup := by
  have hnames : (unlookedNames tag).Nodup := by
    unfold unlookedNames
    split <;> decide
  exact pairwise_map.mpr (hnames.imp fun hne heq => hne (bindingName_inj heq))

theorem mem_missingBindings_iff {e : Located Problem} :
    e ∈ missingBindings tag source attrs ↔ ∃ attr, e = missingValue attr.name attr.span ∧
      needsValue attr.name ∧ Text.isBlank attr.value ∧
      ∃ before after, attrs = before ++ attr :: after ∧
        ¬ (attr.name ∈ takenBindings tag source ∧ attr.name ∉ before.map (·.name)) := by
  unfold missingBindings
  rw [mem_filterMap]
  refine exists_congr fun attr => ?_
  rw [mem_untaken_iff nodup_takenBindings, exists_split_filter needsValue attrs attr
    fun found => ¬ (attr.name ∈ takenBindings tag source ∧ ¬ found)]
  unfold Attr.missing?
  constructor
  · rintro ⟨⟨hneeds, hsplit⟩, heq⟩
    rw [hneeds] at heq
    split at heq
    · next hblank => exact ⟨(Option.some.inj heq).symm, hneeds, hblank, hsplit⟩
    · cases heq
  · rintro ⟨rfl, hneeds, hblank, hsplit⟩
    rw [hneeds, hblank]
    exact ⟨⟨rfl, hsplit⟩, rfl⟩

theorem process_tells (ho : o.IsWeb) (above : List Element) (el : Element) (hel : el.Consistent) :
    (el.process o above).Tells fun _ l => l = missingBindings el.tag el.source el.pending := by
  have htaken := el.taken_takes ho.directivePrefix above
  have homits : (el.taken o.toSettings above).Omits isMissing :=
    .bind (takeKey_omits rfl _ _) (.bind (takeSlot_omits rfl _ _) (.pure _))
  rw [process_eq]
  refine .bindOmits homits (.bind (transformAll_tells ho) ?_)
  rintro el' l ⟨hmods, rfl⟩
  have hvalued := (htaken.trans hmods).valued hel
  refine .bindLift ?_
  -- What is left to do looks at no attribute any more.
  have hhandled (el : Element) : (el.handleDirectives o >>= fun el =>
      pure { el with processed := true }).Tells fun _ l => l = [] := by
    refine (Outcome.Ensures.tells (P := fun _ => True) ?_ ?_).mono fun _ _ h => h.2
    · exact .bind (handleDirectives_refines ho.usesWeb el) fun _ _ => .pure trivial
    · exact .bind (.bind (runHandlers_omits ho.usesWeb _ _) fun _ => .pure _) fun _ => .pure _
  refine (hhandled _).mono ?_
  rintro _ l rfl
  rw [missing_addAttributes ho.directivePrefix, append_nil, ← filterMap_missing?_filter]
  exact congrArg (List.filterMap Attr.missing?) hvalued

/-! ## Structural directives -/

/-- The error for a structural directive of an element that has no value. The last value counts if
there are several. -/
def missingAt (el : Element) (name : String) : List (Located Problem) :=
  if (el.attr? name).any Text.isBlank then [missingValue name el.span] else []

/-- The errors for the structural directives of an element. How an element continues a chain is only
looked at if it does not start one. -/
def missingStructure (el : Element) : List (Located Problem) :=
  el.missingAt "r-for" ++ el.missingAt "r-if" ++
    if (el.attr? "r-if").all Text.isBlank then el.missingAt "r-else-if" else []

theorem SameSource.missingAt (h : el.SameSource el') (name : String) :
    el.missingAt name = el'.missingAt name := by
  rw [Element.missingAt, attr?, h.source, h.span]
  rfl

theorem takeValued_eq (s : Settings) (el : Element) (name : String) :
    (el.takeValued s name).value = ((el.attr? (s.directive name)).filter fun v => !Text.isBlank v,
        (el.take (s.directive name)).2) ∧
      (el.takeValued s name).notes.missing = el.missingAt (s.directive name) := by
  have hspan := (el.take_view (s.directive name)).span
  unfold takeValued missingAt
  rw [← fst_take]
  rcases htake : el.take (s.directive name) with ⟨_ | value, el'⟩
  · exact ⟨rfl, rfl⟩
  · rw [htake] at hspan
    dsimp only at hspan ⊢
    rw [Option.any_some, Option.filter_some]
    by_cases hblank : Text.isBlank value
    · rw [hblank, hspan]
      exact ⟨rfl, rfl⟩
    · rw [Bool.eq_false_iff.mpr hblank]
      exact ⟨rfl, rfl⟩

theorem missing_takeLoop (s : Settings) (el : Element) :
    (el.takeLoop s).notes.missing = el.missingAt (s.directive "for") := by
  unfold takeLoop
  rw [notes_bind, missing_append, (el.takeValued_eq s "for").2]
  rcases (el.takeValued s "for").value with ⟨_ | exp, el'⟩
  · exact append_nil _
  · dsimp only
    split <;> exact append_nil _

section Structure

variable {s : Settings} (hs : s.directivePrefix = "r-")
include hs

section

variable (el : Element)

theorem valued_take_directive (name : String)
    (hname : name ∈ ["for", "if", "else", "else-if", "once", "pre"]) :
    (el.take (s.directive name)).2.valued = el.valued := by
  refine valued_take_plain ?_
  rw [directive_eq hs]
  revert name
  decide

theorem valued_takeLoop : (el.takeLoop s).value.valued = el.valued := by
  have htake := valued_take_directive hs el "for" (by decide)
  unfold takeLoop
  rw [value_bind, (el.takeValued_eq s "for").1]
  dsimp only
  split
  · exact htake
  · split <;> exact htake

theorem valued_takeOnce : (el.takeOnce s).valued = el.valued := by
  have htake := valued_take_directive hs el "once" (by decide)
  unfold takeOnce takeFlag
  dsimp only
  split <;> exact htake

theorem valued_takePre : (el.takePre s).valued = el.valued := by
  have htake := valued_take_directive hs el "pre" (by decide)
  unfold takePre takeFlag
  dsimp only
  split <;> exact htake

end

theorem takeCondition_tells (id : NodeId) :
    (el.takeCondition s id).value.valued = el.valued ∧
      (el.takeCondition s id).notes.missing = el.missingAt "r-if" ++
        if (el.attr? "r-if").all Text.isBlank then el.missingAt "r-else-if" else [] := by
  have hif : s.directive "if" = "r-if" := by rw [directive_eq hs]; rfl
  have helseIf : s.directive "else-if" = "r-else-if" := by rw [directive_eq hs]; rfl
  have htake := valued_take_directive hs el "if" (by decide)
  obtain ⟨hval, hmiss⟩ := el.takeValued_eq s "if"
  unfold takeCondition
  rw [value_bind, notes_bind, missing_append, hval, hmiss]
  rw [hif] at htake ⊢
  have hview := el.take_view "r-if"
  generalize (el.take "r-if").2 = el₁ at htake hview ⊢
  cases hexp : (el.attr? "r-if").filter fun v => !Text.isBlank v with
  | some exp =>
    obtain ⟨hattr, hblank⟩ := Option.filter_eq_some_iff.mp hexp
    have hwr : Text.isBlank exp = false := by simpa using hblank
    refine ⟨htake, ?_⟩
    rw [hattr, Option.all_some, hwr]
    rfl
  | none =>
    have hblank : (el.attr? "r-if").all Text.isBlank := by
      cases hattr : el.attr? "r-if" with
      | none => rfl
      | some exp =>
        rw [hattr] at hexp
        simpa using hexp
    rw [if_pos hblank]
    dsimp only
    -- The mark for `else` is set or not; what follows is the same for both.
    obtain ⟨el₂, helse, hvalued, hsrc⟩ : ∃ el₂, (if (el₁.takeFlag (s.directive "else")).1 then
          { (el₁.takeFlag (s.directive "else")).2 with isElse := true }
        else (el₁.takeFlag (s.directive "else")).2) = el₂ ∧ el₂.valued = el.valued ∧
          el₂.SameSource el := by
      refine ⟨_, rfl, ?_⟩
      have htake' := (valued_take_directive hs el₁ "else" (by decide)).trans htake
      have hview' := (el₁.take_view (s.directive "else")).trans hview
      split <;> exact ⟨htake', hview'.tag, hview'.source, hview'.span⟩
    rw [helse]
    obtain ⟨hval₂, hmiss₂⟩ := el₂.takeValued_eq s "else-if"
    have htake₂ := valued_take_directive hs el₂ "else-if" (by decide)
    rw [value_bind, notes_bind, missing_append, hval₂, hmiss₂, helseIf, hsrc.missingAt]
    rw [helseIf] at htake₂
    refine ⟨?_, by simp⟩
    split <;> exact htake₂.trans hvalued

end Structure

/-! ## Elements of expansions -/

theorem consistent_ofTag (hsrc : el.source = (ofTag tag attrs).source)
    (hvalued : el.valued = (ofTag tag attrs).valued) : el.Consistent := by
  intro attr hattr
  rw [hvalued] at hattr
  rw [hasAttr, hsrc, ofTag, Dict.contains_ofList, List.any_map, List.any_eq_true]
  exact ⟨attr, (mem_filter.mp hattr).1, by simp⟩

theorem takenBindings_erase :
    takenBindings tag (source.erase "r-for") = takenBindings tag source := by
  refine map_congr_left fun name _ => ?_
  have hne : ":" ++ name ≠ "r-for" := by
    intro h
    have := congrArg (fun text => text.toList.head?) h
    simp at this
  rw [bindingName, bindingName, Dict.contains_erase_of_ne _ hne]

variable {s : Settings}

/-- What is left of a start tag when its loop has been taken, or dropped. -/
theorem takeLoopIf_spec (hs : s.directivePrefix = "r-") (keep : Bool) (el : Element) (tag : String)
    (attrs : List Attr) (htag : el.tag = tag) (hsrc : el.source = (ofTag tag attrs).source)
    (hpend : el.pending = attrs) :
    (el.takeLoopIf s keep).value.tag = tag ∧ (el.takeLoopIf s keep).value.Consistent ∧
      (el.takeLoopIf s keep).value.valued = (ofTag tag attrs).valued ∧
      takenBindings tag (el.takeLoopIf s keep).value.source =
        takenBindings tag (ofTag tag attrs).source ∧
      (el.takeLoopIf s keep).notes.missing = if keep then el.missingAt "r-for" else [] := by
  have hfor : s.directive "for" = "r-for" := by rw [directive_eq hs]; rfl
  have hvalued : el.valued = (ofTag tag attrs).valued := by rw [valued, hpend]; rfl
  cases keep with
  | true =>
    obtain ⟨loop, pending, -, heq⟩ := el.takeLoop_cases s
    have hvalued' := (valued_takeLoop hs el).trans hvalued
    have hmiss := el.missing_takeLoop s
    rw [hfor] at hmiss
    show (el.takeLoop s).value.tag = tag ∧ (el.takeLoop s).value.Consistent ∧
      (el.takeLoop s).value.valued = _ ∧ takenBindings tag (el.takeLoop s).value.source = _ ∧
      (el.takeLoop s).notes.missing = el.missingAt "r-for"
    have hsrc' : (el.takeLoop s).value.source = (ofTag tag attrs).source := by
      rw [heq]
      exact hsrc
    refine ⟨by rw [heq]; exact htag, consistent_ofTag hsrc' hvalued', hvalued', ?_, hmiss⟩
    rw [hsrc']
  | false =>
    have hview := el.take_view "r-for"
    have hvalued' := (valued_take_directive hs el "for" (by decide)).trans hvalued
    rw [hfor] at hvalued'
    show (el.takeEntirely (s.directive "for")).2.tag = tag ∧
      (el.takeEntirely (s.directive "for")).2.Consistent ∧
      (el.takeEntirely (s.directive "for")).2.valued = _ ∧
      takenBindings tag (el.takeEntirely (s.directive "for")).2.source = _ ∧ [] = []
    rw [hfor]
    refine ⟨hview.tag.trans htag, fun attr hattr => ?_, hvalued', ?_, rfl⟩
    · have hattr' : attr ∈ (el.take "r-for").2.valued := hattr
      have hne : attr.name ≠ "r-for" := by
        intro heq
        have := (mem_filter.mp hattr').2
        rw [heq] at this
        revert this
        decide
      show ((el.take "r-for").2.source.erase "r-for").contains attr.name
      rw [Dict.contains_erase_of_ne _ hne]
      exact consistent_ofTag (hview.source.trans hsrc) hvalued' attr hattr'
    · show takenBindings tag ((el.take "r-for").2.source.erase "r-for") = _
      rw [takenBindings_erase, hview.source, hsrc]

end Element

open Element in
/-- A branch reports the missing values of its own attributes. Only the first one has the loop. -/
theorem branchElement_tells (ho : o.IsWeb) (above : List Element) (el : Element)
    (first : Bool) (branch : Branch) :
    (branchElement o above el first branch).Tells fun _ l =>
      l = (if first then
          { ofTag el.tag branch.attrs with ns := el.ns, span := el.span }.missingAt "r-for"
        else []) ++ missingBindings el.tag (ofTag el.tag branch.attrs).source branch.attrs := by
  obtain ⟨htag, hconsistent, hvalued, htaken, hmiss⟩ := takeLoopIf_spec ho.directivePrefix first
    { ofTag el.tag branch.attrs with ns := el.ns, span := el.span } el.tag branch.attrs rfl rfl rfl
  unfold branchElement
  refine .bindLift ?_
  rw [hmiss]
  generalize (takeLoopIf o.toSettings first _).value = clone at htag hconsistent hvalued htaken ⊢
  obtain ⟨once, pending, -, honce⟩ := clone.takeOnce_cases o.toSettings
  have hvalued' := valued_takeOnce ho.directivePrefix clone
  rw [honce] at hvalued' ⊢
  refine (process_tells ho above { clone with pending, once } ?_).mono ?_
  · intro attr hattr
    rw [hvalued'] at hattr
    exact hconsistent attr hattr
  · rintro _ l rfl
    congr 1
    have hpend : pending.filter (fun attr => needsValue attr.name) =
        branch.attrs.filter fun attr => needsValue attr.name := hvalued'.trans hvalued
    rw [missingBindings, missingBindings, hpend, ← htaken, ← htag]

end TemplateCompiler
