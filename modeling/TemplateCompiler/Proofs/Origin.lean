import TemplateCompiler.Proofs.Processing
import TemplateCompiler.Template.Builder

/-!
# What elements keep of their start tags

Every element of a tree comes from a start tag, and `Element.From` says what it keeps of it, through
all the steps that give its attributes their meaning. Most of all, its plain attributes are literals
of the start tag, unless something else about the element shows that it has more than those.

An element that takes the place of an expanded one is made from changed attributes. It still fits
the description, because the directive that leads to the expansion stays among them and leaves its
mark.
-/

namespace TemplateCompiler

open List

variable {erased key tag name : String} {o : Options} {attrs : List Attr} {el : Element}
  {s : Settings}
  {attr : Attr}

/-! ## Names -/

namespace Dict

variable {β : Type}

theorem contains_foldl_insert (entries : List (String × β)) (d : Dict β) :
    (entries.foldl (fun d e => d.insert e.1 e.2) d).contains key =
      (d.contains key || entries.any (·.1 = key)) := by
  induction entries generalizing d with
  | nil => simp
  | cons e rest ih =>
    rw [foldl_cons, ih, contains]
    by_cases h : key = e.1
    · simp [h]
    · simp [h, contains, Ne.symm h]

theorem contains_ofList (entries : List (String × β)) (key : String) :
    (ofList entries).contains key = entries.any (·.1 = key) := by
  rw [ofList, contains_foldl_insert]
  rfl

theorem get?_ofList (entries : List (String × β)) :
    (ofList entries).get? key = (entries.reverse.find? (·.1 = key)).map (·.2) := by
  have hfold (d : Dict β) : (entries.foldl (fun d e => d.insert e.1 e.2) d).get? key =
      ((entries.reverse.find? (·.1 = key)).map (·.2)).or (d.get? key) := by
    induction entries generalizing d with
    | nil => rfl
    | cons e rest ih =>
      rw [foldl_cons, ih, reverse_cons, find?_append]
      cases rest.reverse.find? (·.1 = key) with
      | some found => rfl
      | none =>
        by_cases hkey : key = e.1
        · simp [hkey]
        · simp [hkey, Ne.symm hkey]
  rw [ofList, hfold]
  exact Option.or_none

theorem get?_erase (d : Dict β) :
    (d.erase key).get? name = if name = key then none else d.get? name := by
  unfold erase get?
  induction d.entries with
  | nil => simp
  | cons e rest ih =>
    obtain ⟨k, v⟩ := e
    by_cases hkey : k = key
    · subst hkey
      rw [filter_cons_of_neg (by simp), ih, lookup_cons]
      by_cases hname : name = k
      · simp [hname]
      · simp [hname, beq_eq_false_iff_ne.mpr hname]
    · rw [filter_cons_of_pos (by simpa using hkey), lookup_cons, lookup_cons, ih]
      by_cases hname : name = k
      · simp [hname, hkey]
      · simp [beq_eq_false_iff_ne.mpr hname]

theorem contains_of_contains_erase {d : Dict β}
    (h : (d.erase erased).contains key) : d.contains key := by
  rw [contains, get?_erase] at h
  split at h
  · cases h
  · exact h

theorem contains_erase_of_ne (d : Dict β) (h : key ≠ erased) :
    (d.erase erased).contains key = d.contains key := by
  rw [contains, get?_erase, if_neg h]
  rfl

end Dict

theorem Element.attr?_ofTag :
    (ofTag tag attrs).attr? name = (attrs.reverse.find? (·.name = name)).map (·.value) := by
  rw [attr?, ofTag, Dict.get?_ofList, ← map_reverse, find?_map, Option.map_map]
  rfl

theorem Settings.directive_inj {name' : String} :
    s.directive name = s.directive name' ↔ name = name' := by
  simp [Settings.directive]

namespace Element

theorem isDirectiveName_directive : isDirectiveName s (s.directive name).toList := by
  simp [isDirectiveName, Settings.directive]

theorem model_not_mem_takenNames : s.directive "model" ∉ takenNames s := by
  -- Names are told apart by their last letters, since the letters before them may be any.
  have hlast (name : String) (hname : name ∈ takenNames s) :
      name.toList.reverse.take 5 ≠ ['l', 'e', 'd', 'o', 'm'] := by
    revert name
    simp [takenNames, valueNames]
  intro hmem
  exact hlast _ hmem (by simp [Settings.directive])

/-! ## Start tags -/

/-- What the element `el` keeps of a start tag. -/
structure From (s : Settings) (tag : String) (attrs : List Attr) (span : Span) (el : Element) :
    Prop where
  tag : el.tag = tag
  span : el.span = span
  marks : el.marks = {}
  pre : el.pre → ∃ attr ∈ attrs, attr.name = s.directive "pre"
  written : el.hasAttr (s.directive "pre") → ∃ attr ∈ attrs, attr.name = s.directive "pre"
  pending : el.hasBindings = false → el.pending ⊆ attrs
  literal : el.hasBindings = false → el.slotTarget = none → ∀ b ∈ el.attrs,
    ∃ attr ∈ attrs, b = plainBinding attr
  style : el.StyleBraced

/-- What `From` sees of an element, its pending attributes apart. -/
def fromView (el : Element) :=
  (el.tag, el.span, el.marks, el.pre, el.source, el.hasBindings, el.slotTarget, el.attrs,
    el.staticStyle)

variable {s : Settings} {tag : String} {attrs : List Attr} {span : Span} {el el' : Element}

theorem From.drop (h : el.From s tag attrs span) (hview : el'.fromView = el.fromView)
    (hpend : el'.pending ⊆ el.pending) : el'.From s tag attrs span := by
  simp only [fromView, Prod.mk.injEq] at hview
  obtain ⟨htag, hspan, hmarks, hpre, hsrc, hbindings, htgt, hattrs, hstyle⟩ := hview
  have hwr (name : String) : el'.hasAttr name = el.hasAttr name := by
    rw [hasAttr, hsrc]
    rfl
  constructor
  · rw [htag, h.tag]
  · rw [hspan, h.span]
  · rw [hmarks, h.marks]
  · rw [hpre]
    exact h.pre
  · rw [hwr]
    exact h.written
  · rw [hbindings]
    exact fun hb attr hattr => h.pending hb (hpend hattr)
  · rw [hbindings, htgt, hattrs]
    exact h.literal
  · rw [StyleBraced, hstyle]
    exact h.style

theorem From.refine (h : el.From s tag attrs span) (hr : Refines s el el') :
    el'.From s tag attrs span := by
  have hunbound (hb : el'.hasBindings = false) : el.hasBindings = false := by
    cases hel : el.hasBindings with
    | false => rfl
    | true => rw [hr.bindings hel] at hb; cases hb
  have hwr (name : String) : el'.hasAttr name = el.hasAttr name := by
    rw [hasAttr, show el'.source = el.source from congrArg Frame.source hr.frame]
    rfl
  constructor
  · exact (congrArg Frame.tag hr.frame).trans h.tag
  · exact (congrArg Frame.span hr.frame).trans h.span
  · exact (congrArg Frame.marks hr.frame).trans h.marks
  · rw [show el'.pre = el.pre from congrArg Frame.pre hr.frame]
    exact h.pre
  · rw [hwr]
    exact h.written
  · exact fun hb attr hattr => h.pending (hunbound hb) (hr.pending.subset hattr)
  · intro hb ht b hmem
    rcases hr.attrs hb ht b hmem with hmem | ⟨attr, hattr, rfl⟩
    · exact h.literal (hunbound hb) (hr.target ht) b hmem
    · exact ⟨attr, h.pending (hunbound hb) hattr, rfl⟩
  · exact hr.style h.style

/-- An element that is left as written gets the literals of its start tag. -/
theorem From.keepAttributes (h : el.From s tag attrs span) :
    el.keepAttributes.From s tag attrs span := by
  unfold Element.keepAttributes
  split
  · split
    · exact h
    · exact h.drop rfl (List.Subset.refl _)
  · refine ⟨h.tag, h.span, h.marks, h.pre, h.written, h.pending, fun hb _ b hmem => ?_, h.style⟩
    obtain ⟨attr, hattr, rfl⟩ := List.mem_map.mp hmem
    exact ⟨attr, h.pending hb hattr, rfl⟩

/-! ## Structural directives -/

section

variable (s : Settings) (el : Element)

theorem takeValued_cases (name : String) :
    ∃ exp pending, Without [s.directive name] el.pending pending ∧
      (el.takeValued s name).value = (exp, { el with pending }) := by
  obtain ⟨pending, hwo, heq⟩ := el.take_cases (s.directive name)
  unfold takeValued
  split
  · next value el' hel' =>
    rw [hel'] at heq
    cases heq
    split
    · exact ⟨none, pending, hwo, rfl⟩
    · exact ⟨some value, pending, hwo, rfl⟩
  · next el' hel' =>
    rw [hel'] at heq
    cases heq
    exact ⟨none, pending, hwo, rfl⟩

theorem takeLoop_cases : ∃ loop pending, Without [s.directive "for"] el.pending pending ∧
      (el.takeLoop s).value = { el with pending, loop } := by
  obtain ⟨exp, pending, hwo, heq⟩ := el.takeValued_cases s "for"
  unfold takeLoop
  rw [Noted.value_bind, heq]
  cases exp with
  | none => exact ⟨el.loop, pending, hwo, rfl⟩
  | some exp =>
    dsimp only
    split
    · next loop _ => exact ⟨some loop, pending, hwo, rfl⟩
    · exact ⟨el.loop, pending, hwo, rfl⟩

theorem takeOnce_cases : ∃ once pending, Without [s.directive "once"] el.pending pending ∧
      el.takeOnce s = { el with pending, once } := by
  obtain ⟨pending, hwo, heq⟩ := el.take_cases (s.directive "once")
  unfold takeOnce takeFlag
  dsimp only
  rw [heq]
  split
  · exact ⟨true, pending, hwo, rfl⟩
  · exact ⟨el.once, pending, hwo, rfl⟩

theorem takePre_cases : ∃ pre pending, Without [s.directive "pre"] el.pending pending ∧
      (pre = true → el.pre = true ∨ el.hasAttr (s.directive "pre") = true) ∧
      el.takePre s = { el with pending, pre } := by
  obtain ⟨pending, hwo, heq⟩ := el.take_cases (s.directive "pre")
  unfold takePre takeFlag
  dsimp only
  rw [heq]
  split
  · next hsome =>
    refine ⟨true, pending, hwo, fun _ => .inr ?_, rfl⟩
    unfold take at hsome
    split at hsome
    · next hattr => exact Option.isSome_of_eq_some hattr
    · cases hsome
  · exact ⟨el.pre, pending, hwo, .inl, rfl⟩

theorem takePre_eq :
    el.takePre s = { el with pending := (el.takePre s).pending, pre := (el.takePre s).pre } := by
  obtain ⟨pre, pending, -, -, heq⟩ := el.takePre_cases s
  rw [heq]

end

/-- A condition starts a chain with the element itself; otherwise only its place in one is set. -/
theorem takeCondition_cases (s : Settings) (id : NodeId) (el : Element) :
    ∃ pending, Without (["if", "else", "else-if"].map s.directive) el.pending pending ∧
      ((∃ exp, (el.takeCondition s id).value =
        { el with pending, ifExp := some exp, conditions := el.conditions ++ [⟨some exp, id⟩] }) ∨
      ∃ isElse elseIf, (el.takeCondition s id).value = { el with pending, isElse, elseIf }) := by
  obtain ⟨exp, pending, hwo, heq⟩ := el.takeValued_cases s "if"
  unfold takeCondition
  rw [Noted.value_bind, heq]
  cases exp with
  | some exp =>
    refine ⟨pending, ⟨hwo.sublist, fun attr hattr hname => ?_⟩, .inl ⟨exp, rfl⟩⟩
    exact hwo.kept attr hattr fun heq => hname (mem_cons.mpr (.inl (mem_singleton.mp heq)))
  | none =>
    obtain ⟨pending₁, hwo₁, heq₁⟩ := { el with pending }.take_cases (s.directive "else")
    unfold takeFlag
    dsimp only
    rw [heq₁]
    -- The mark for `else` is set or not; what follows is the same for both.
    obtain ⟨isElse, helse⟩ : ∃ isElse, (if ({ el with pending }.take (s.directive "else")).1.isSome
        then { el with pending := pending₁, isElse := true } else { el with pending := pending₁ }) =
          { el with pending := pending₁, isElse } := by
      split
      · exact ⟨true, rfl⟩
      · exact ⟨el.isElse, rfl⟩
    rw [helse]
    obtain ⟨exp, pending₂, hwo₂, heq₂⟩ :=
      { el with pending := pending₁, isElse }.takeValued_cases s "else-if"
    have hpend := hwo.trans (hwo₁.trans hwo₂)
    rw [Noted.value_bind, heq₂]
    cases exp with
    | some exp => exact ⟨pending₂, hpend, .inr ⟨isElse, some exp, rfl⟩⟩
    | none => exact ⟨pending₂, hpend, .inr ⟨isElse, el.elseIf, rfl⟩⟩

theorem takeLoopIf_cases (s : Settings) (keep : Bool) (el : Element) :
    ∃ loop pending source, Without [s.directive "for"] el.pending pending ∧
      (∀ name, source.contains name → el.hasAttr name) ∧
      (keep → source = el.source) ∧
      (el.takeLoopIf s keep).value = { el with pending, loop, source } := by
  unfold takeLoopIf
  split
  · obtain ⟨loop, pending, hwo, heq⟩ := el.takeLoop_cases s
    exact ⟨loop, pending, el.source, hwo, fun _ h => h, fun _ => rfl, heq⟩
  · next hkeep =>
    obtain ⟨pending, hwo, heq⟩ := el.take_cases (s.directive "for")
    refine ⟨el.loop, pending, el.source.erase (s.directive "for"), hwo, ?_,
      fun h => absurd h hkeep, ?_⟩
    · exact fun _ h => Dict.contains_of_contains_erase h
    · show (el.takeEntirely (s.directive "for")).2 = _
      unfold takeEntirely
      dsimp only
      rw [heq]

theorem structural_cases (s : Settings) (id : NodeId) (el : Element) :
    ∃ loop once pending ifExp conditions isElse elseIf, (do
          let el ← el.takeLoop s
          let el ← el.takeCondition s id
          return el.takeOnce s : Noted Element).value =
        { el with loop, once, pending, ifExp, conditions, isElse, elseIf } ∧
      Without (["for", "if", "else", "else-if", "once"].map s.directive) el.pending pending ∧
      (conditions = el.conditions ∧ ifExp = el.ifExp ∨
        ∃ exp, conditions = el.conditions ++ [⟨some exp, id⟩] ∧ ifExp = some exp) := by
  obtain ⟨loop, pending, hwo, hloop⟩ := el.takeLoop_cases s
  obtain ⟨pending₁, hwo₁, hcond⟩ := { el with pending, loop }.takeCondition_cases s id
  obtain ⟨once, pending₂, hwo₂, honce⟩ :=
    ({ el with pending, loop }.takeCondition s id).value.takeOnce_cases s
  rw [Noted.value_bind, Noted.value_bind, hloop, honce]
  rcases hcond with ⟨exp, heq⟩ | ⟨isElse, elseIf, heq⟩ <;> rw [heq] at hwo₂ ⊢
  · exact ⟨_, _, _, _, _, _, _, rfl, hwo.trans (hwo₁.trans hwo₂), .inr ⟨exp, rfl, rfl⟩⟩
  · exact ⟨_, _, _, _, _, _, _, rfl, hwo.trans (hwo₁.trans hwo₂), .inl ⟨rfl, rfl⟩⟩

/-! ## Elements of expansions -/

/-- An element with the mark of a binding keeps to a start tag whatever its attributes are. -/
theorem From.ofBound (htag : el.tag = tag) (hspan : el.span = span) (hmarks : el.marks = {})
    (hpre : el.pre = false)
    (hwr : el.hasAttr (s.directive "pre") → ∃ attr ∈ attrs, attr.name = s.directive "pre")
    (hbound : el.hasBindings) (hstyle : el.StyleBraced) : el.From s tag attrs span where
  tag := htag
  span := hspan
  marks := hmarks
  pre h := by rw [hpre] at h; cases h
  written := hwr
  pending h := by rw [hbound] at h; cases h
  literal h := by rw [hbound] at h; cases h
  style := hstyle

theorem Refines.bare (h : Refines s el el') (hel : el.Bare) : el'.Bare where
  children := (congrArg Frame.children h.frame).trans hel.children
  scopedSlots := (congrArg Frame.scopedSlots h.frame).trans hel.scopedSlots
  conditions := (congrArg Frame.conditions h.frame).trans hel.conditions
  ifExp := (congrArg Frame.ifExp h.frame).trans hel.ifExp

end Element

/-- What is known of the attributes of a branch that takes the place of an element: the two-way
binding is among them, and they hold no other directive to leave content as written. -/
structure Branch.Proper (s : Settings) (attrs : List Attr) (branch : Branch) : Prop where
  model : ∃ attr ∈ branch.attrs, attr.name = s.directive "model"
  pre : ∀ attr ∈ branch.attrs, attr.name = s.directive "pre" → attr ∈ attrs

/-- An expansion into proper branches, the first of which has a condition. -/
structure Expansion.Proper (s : Settings) (attrs : List Attr) (e : Expansion) : Prop where
  first : ∃ branch rest exp, e.branches = branch :: rest ∧ branch.condition = some exp
  branches : ∀ branch ∈ e.branches, branch.Proper s attrs

/-- A processed element without links that keeps to a start tag. -/
structure Element.IsBranch (s : Settings) (tag : String) (attrs : List Attr) (span : Span)
    (el : Element) : Prop where
  bare : el.Bare
  origin : el.From s tag attrs span
  processed : el.processed
  bound : el.hasBindings
  unmarked : el.pre = false
  model : ∃ attr ∈ el.pending, attr.name = s.directive "model"
  needsData : el.plain = false

/-- The element of a branch is processed after its loop and the note to render it once are taken. -/
theorem result_branchElement (o : Options) (above : List Element) (el : Element) (first : Bool)
    (branch : Branch) : ∃ loop once pending source, (branchElement o above el first branch).result =
        ({ Element.ofTag el.tag branch.attrs with
          ns := el.ns, span := el.span, loop, once, pending, source }.process o above).result ∧
      Element.Without (["for", "once"].map o.directive) branch.attrs pending ∧
      (∀ name, source.contains name →
        (Element.ofTag el.tag branch.attrs).hasAttr name) ∧
      (first → source = (Element.ofTag el.tag branch.attrs).source) := by
  obtain ⟨loop, pending, source, hwo, hsrc, hsame, hloop⟩ :=
    Element.takeLoopIf_cases o.toSettings first
      { Element.ofTag el.tag branch.attrs with ns := el.ns, span := el.span }
  obtain ⟨once, pending', hwo', honce⟩ := Element.takeOnce_cases o.toSettings
    { Element.ofTag el.tag branch.attrs with ns := el.ns, span := el.span, pending, loop, source }
  refine ⟨loop, once, pending', source, (Outcome.result_bindLift _ _).trans ?_,
    hwo.trans hwo', hsrc, hsame⟩
  rw [hloop, honce]

open Element in
theorem branchElement_spec (ho : o.UsesWeb) (above : List Element) (el : Element)
    (first : Bool) {branch : Branch}
    (hbr : branch.Proper o.toSettings attrs) :
    (branchElement o above el first branch).Ensures
      (IsBranch o.toSettings el.tag attrs el.span) := by
  obtain ⟨attr, hattr, hname⟩ := hbr.model
  obtain ⟨loop, once, pending, source, heq, hwo, hsrc, -⟩ :=
    result_branchElement o above el first branch
  have hmem : attr ∈ pending := hwo.kept attr hattr (by simp [hname, Settings.directive_inj])
  refine .ofResult heq (((process_spec ho above _).and (process_needsData ho above hmem
    (hname ▸ model_not_mem_takenNames))).mono fun clone ⟨hclone, hdata⟩ => ?_)
  have hbound : clone.hasBindings :=
    hclone.bound attr hmem (hname ▸ model_not_mem_takenNames)
      (hname ▸ isDirectiveName_directive)
  refine ⟨hclone.bare ⟨rfl, rfl, rfl, rfl⟩, ?_, hclone.processed, hbound,
    congrArg Frame.pre hclone.frame,
    ⟨attr, hclone.kept attr hmem (hname ▸ model_not_mem_takenNames), hname⟩, hdata⟩
  refine .ofBound (congrArg Frame.tag hclone.frame) (congrArg Frame.span hclone.frame)
    (congrArg Frame.marks hclone.frame) (congrArg Frame.pre hclone.frame) (fun h => ?_) hbound
    (hclone.style nofun)
  rw [hasAttr, show clone.source = source from congrArg Frame.source hclone.frame] at h
  have := hsrc _ h
  rw [hasAttr, ofTag, Dict.contains_ofList] at this
  obtain ⟨attr', hattr', hname'⟩ : ∃ attr' ∈ branch.attrs, attr'.name = _ := by simpa using this
  exact ⟨attr', hbr.pre attr' hattr' hname', hname'⟩

theorem otherBranches_each {above : List Element} {P : Element → Prop} {branches : List Branch}
    (h : ∀ branch ∈ branches, (branchElement o above el false branch).Ensures P) :
    (otherBranches o above el branches).Ensures fun clones =>
      clones.length = branches.length ∧ ∀ clone ∈ clones, P clone := by
  induction branches with
  | nil => exact .pure ⟨rfl, by simp⟩
  | cons branch rest ih =>
    obtain ⟨hfirst, hrest⟩ := forall_mem_cons.mp h
    refine .bind hfirst fun clone hclone => .bind (ih hrest) fun others hoth => .pure ?_
    exact ⟨congrArg (· + 1) hoth.1, forall_mem_cons.mpr ⟨hclone, hoth.2⟩⟩

theorem otherBranches_spec (ho : o.UsesWeb) (above : List Element) (el : Element)
    (branches : List Branch)
    (hbrs : ∀ branch ∈ branches, branch.Proper o.toSettings attrs) :
    (otherBranches o above el branches).Ensures fun clones =>
      clones.length = branches.length ∧
        ∀ clone ∈ clones, clone.IsBranch o.toSettings el.tag attrs el.span :=
  otherBranches_each fun branch hbr =>
    branchElement_spec ho above el false (hbrs branch hbr)

/-! ## Expansions of the web -/

namespace Web

/-- The names of the attributes that an expansion leaves out are not the one that leads to it. -/
theorem model_mem_kept (hattr : attr ∈ attrs) (hname : attr.name = s.directive "model") :
    attr ∈ attrs.filter fun a => !([":type", s.directive "bind:type", s.directive "if",
      s.directive "else", s.directive "else-if"].contains a.name) := by
  have htype : s.directive "model" ≠ ":type" := by
    intro h
    have := congrArg (fun name => name.toList.reverse.take 5) h
    simp [Settings.directive] at this
  simp [mem_filter, hattr, hname, htype, Settings.directive_inj]

theorem typeBranches_proper {type : String}
    (hattr : attr ∈ el.pending) (hname : attr.name = s.directive "model") :
    ∀ branch ∈ typeBranches s.directivePrefix type el, branch.Proper s el.pending := by
  have hkept := model_mem_kept hattr hname
  have hprop (extra : Attr) (condition : Option String) (hextra : extra.name ≠ s.directive "pre") :
      Branch.Proper s el.pending
        { attrs := (el.pending.filter fun a => !([":type", s.directive "bind:type",
            s.directive "if", s.directive "else", s.directive "else-if"].contains a.name)) ++
              [extra], condition } := by
    refine ⟨⟨attr, mem_append_left _ hkept, hname⟩, fun other hother hpre => ?_⟩
    rcases mem_append.mp hother with hother | hother
    · exact (mem_filter.mp hother).1
    · rw [mem_singleton.mp hother] at hpre
      exact absurd hpre hextra
  have hpre (name : String) (hlast : name.toList.reverse.take 2 ≠ ['e', 'r']) :
      name ≠ s.directive "pre" := by
    intro h
    apply hlast
    rw [h]
    simp [Settings.directive]
  intro branch hbr
  simp only [typeBranches, mem_cons, not_mem_nil, or_false] at hbr
  rcases hbr with rfl | rfl | rfl
  · exact hprop ⟨"type", "checkbox", {}⟩ _ (hpre "type" (by decide))
  · exact hprop ⟨"type", "radio", {}⟩ _ (hpre "type" (by decide))
  · exact hprop ⟨":type", type, {}⟩ _ (hpre ":type" (by decide))

theorem expandInputType?_proper {e : Expansion}
    (hel : ∀ name, el.hasAttr name → ∃ attr ∈ el.pending, attr.name = name)
    (h : expandInputType? s.directivePrefix el = some e) : e.Proper s el.pending := by
  unfold expandInputType? at h
  split at h
  · cases h
  · next hinput =>
    simp only [not_or, Decidable.not_not] at hinput
    obtain ⟨attr, hattr, hname⟩ := hel _ hinput.2
    obtain ⟨type, -, rfl⟩ := Option.map_eq_some_iff.mp h
    exact ⟨⟨_, _, _, rfl, rfl⟩, typeBranches_proper hattr hname⟩

end Web

theorem expansion?_eq (s : Settings) (el : Element) {modules : List Module}
    (hmods : ∀ m ∈ modules, m ∈ Web.modules) : (expansion? s el modules).Ensures fun r =>
      ∀ e, r = some e ↔
        Web.inputTypeModule ∈ modules ∧ Web.expandInputType? s.directivePrefix el = some e := by
  induction modules with
  | nil => exact .pure (by simp)
  | cons m rest ih =>
    have hrest := ih fun m' hm' => hmods m' (by simp [hm'])
    have hm := hmods m (by simp)
    -- A module that does not expand is not the one that does, unless that has nothing to expand.
    have hskip (hnone : (m.expand s el).result = .ok none) :
        (expansion? s el (m :: rest)).Ensures fun r => ∀ e, r = some e ↔
          Web.inputTypeModule ∈ m :: rest ∧ Web.expandInputType? s.directivePrefix el = some e := by
      refine .bind ⟨none, hnone, rfl⟩ ?_
      rintro _ rfl
      refine hrest.mono fun r hr e => (hr e).trans ?_
      rw [mem_cons]
      refine and_congr_left fun he => ⟨.inr, fun h => h.resolve_left fun heq => ?_⟩
      have hexpand : (m.expand s el).result = .ok (some e) := by
        rw [← heq, ← he]
        rfl
      cases hnone.symm.trans hexpand
    simp only [Web.modules, mem_cons, not_mem_nil, or_false] at hm
    rcases hm with rfl | rfl | rfl
    · exact hskip rfl
    · exact hskip rfl
    · cases hexpand : Web.expandInputType? s.directivePrefix el with
      | none =>
        have hnone := hskip (congrArg Except.ok hexpand)
        rwa [hexpand] at hnone
      | some e =>
        refine .bind ⟨some e, congrArg Except.ok hexpand, rfl⟩ ?_
        rintro _ rfl
        exact .pure (by simp)

/-- Whatever modules of the web expand, they expand properly. -/
theorem expansion?_spec
    (hel : ∀ name, el.hasAttr name → ∃ attr ∈ el.pending, attr.name = name)
    (modules : List Module) (hmods : ∀ m ∈ modules, m ∈ Web.modules) :
    (expansion? s el modules).Ensures fun r => ∀ e, r = some e → e.Proper s el.pending :=
  (expansion?_eq s el hmods).mono fun _ hr e he =>
    Web.expandInputType?_proper hel ((hr e).mp he).2

end TemplateCompiler
