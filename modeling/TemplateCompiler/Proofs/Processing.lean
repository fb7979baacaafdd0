import TemplateCompiler.Proofs.ElementWalks

/-!
# What giving attributes their meaning can do to an element

A property of elements that is kept by taking attributes and by every edit is kept by processing
(`Invariant.process`): the element is followed beside itself.

`Element.Refines` is one such property: nothing happens to the place of the element in the tree (its
`frame`), pending attributes only go away if they have one of a few names, a plain attribute of the
result is the literal of a pending one, unless the element has been marked as having bindings or
goes to an outlet, and a static style is the code of an object.
-/

namespace TemplateCompiler

open Text List Noted

variable {above : List Element} {attr : Attr} {el el' : Element} {name : String}

/-- What an element has by its start tag, its place in the tree and its structural directives. -/
structure Element.Frame where
  tag : String
  span : Span
  source : Dict String
  children : List NodeId
  scopedSlots : List (String × NodeId)
  conditions : List Condition
  ifExp : Option String
  elseIf : Option String
  isElse : Bool
  loop : Option LoopHead
  once : Bool
  pre : Bool
  forbidden : Bool
  marks : StaticMarks

namespace Element

/-! ## Invariants -/

def takenNames (s : Settings) : List String :=
  ["scope", "slot-scope", "inline-template"] ++
    valueNames.flatMap fun name => [":" ++ name, s.directivePrefix ++ "bind:" ++ name, name]

/-- A property of elements that every edit keeps. It makes the values of pending directives good,
and the parts of their names. -/
structure EditInvariant (s : Settings) (above : List Element) (good : String → Prop)
    (P : Element → Prop) : Prop where
  code : StableCode good
  written {el : Element} {attr : Attr} : P el → attr ∈ el.pending →
    isDirectiveName s attr.name.toList →
      good attr.value ∧ ∀ part, part ⊆ attr.name.toList → good (String.ofList part)
  edit {el : Element} {f : Element → Element} : P el → Edit above good el f → P (f el)

/-- A property of elements that taking an attribute keeps as well. It makes all code good that
stands in the attributes of an element or in its directives. -/
structure Invariant (s : Settings) (above : List Element) (good : String → Prop)
    (P : Element → Prop) : Prop extends EditInvariant s above good P where
  value {el : Element} {name text : String} : P el → el.attr? name = some text →
    isCode s el.tag name → good text
  stored {el : Element} : P el → ∀ d ∈ el.directives, ∀ text ∈ d.fragments ++ d.modifiers, good text
  take {el : Element} {name : String} : P el → name ∈ takenNames s → P (el.take name).2

/-- A property whose code does not matter is only asked to be kept. -/
theorem Invariant.ofKept {s : Settings} {P : Element → Prop}
    (hedit : ∀ {el : Element} {f : Element → Element}, P el → Edit above (fun _ => True) el f →
      P (f el))
    (htake : ∀ {el : Element} {name : String} {pending : List Attr}, P el → name ∈ takenNames s →
      Without [name] el.pending pending → P { el with pending }) :
    Invariant s above (fun _ => True) P where
  code := .trivial
  written _ _ _ := ⟨trivial, fun _ _ => trivial⟩
  edit := hedit
  value _ _ _ := trivial
  stored _ _ _ _ _ := trivial
  take {el name} hel hname := by
    obtain ⟨pending, hwo, heq⟩ := el.take_cases name
    rw [heq]
    exact htake hel hname hwo

variable {s : Settings} {above : List Element} {good : String → Prop} {P : Element → Prop}
  {el : Element} {name value : String}

theorem isCode_of_starts (tag : String) (h : s.directivePrefix.toList <+: name.toList) :
    isCode s tag name := by
  simp [isCode, isDirectiveName, isPrefixOf_iff_prefix.mpr h]

theorem isCode_directive (tag name : String) : isCode s tag (s.directive name) :=
  isCode_of_starts tag (by simp [Settings.directive])

theorem isCode_bound (tag name : String) : isCode s tag (":" ++ name) := by
  simp [isCode, isDirectiveName]

theorem mem_takenNames (written : String) (hname : name ∈ valueNames)
    (h : written ∈ [":" ++ name, s.directivePrefix ++ "bind:" ++ name, name]) :
    written ∈ takenNames s :=
  mem_append_right _ (mem_flatMap.mpr ⟨name, hname, h⟩)

theorem EditInvariant.walk (h : EditInvariant s above good P) :
    EditWalk s above above good
      (fun d d' => (∀ text ∈ d.fragments ++ d.modifiers, good text) ∧ d = d')
      fun el el' => el = el' ∧ P el where
  code := h.code
  loops := rfl
  view := by
    rintro el _ ⟨rfl, -⟩
    exact ⟨rfl, rfl, rfl, rfl, rfl⟩
  type := by
    rintro el _ ⟨rfl, -⟩
    rfl
  edit := by
    rintro el _ f ⟨rfl, hel⟩ hedit
    exact ⟨rfl, h.edit hel hedit⟩
  add := by
    rintro el _ d _ ⟨rfl, hel⟩ ⟨hd, rfl⟩
    exact ⟨rfl, h.edit hel (.directive hd)⟩

namespace Invariant

theorem good_take (h : Invariant s above good P) (hel : P el) (hcode : isCode s el.tag name) :
    ∀ text ∈ (el.take name).1, good text := by
  intro text htext
  rw [fst_take] at htext
  exact h.value hel htext hcode

theorem takeBound (h : Invariant s above good P) (hel : P el) (hname : name ∈ valueNames) :
    P (el.takeBound name s.directivePrefix).2 ∧
      ∀ code ∈ (el.takeBound name s.directivePrefix).1, good code := by
  have hshort := h.take hel (mem_takenNames (":" ++ name) hname (by simp))
  have hval := h.good_take hel (isCode_bound el.tag name)
  unfold Element.takeBound
  split
  · next value el' heq =>
    rw [heq] at hshort hval
    refine ⟨hshort, fun code hcode => ?_⟩
    cases hcode
    exact h.code.parse (hval value rfl)
  · next el' heq =>
    rw [heq] at hshort
    have hcode : isCode s el'.tag (s.directivePrefix ++ "bind:" ++ name) :=
      isCode_of_starts _ (by simp)
    refine ⟨h.take hshort (mem_takenNames _ hname (by simp)), fun code hmem => ?_⟩
    obtain ⟨value, hval, rfl⟩ := Option.map_eq_some_iff.mp hmem
    exact h.code.parse (h.good_take hshort hcode value hval)

theorem walk (h : Invariant s above good P) :
    Walk s above above good (fun d d' => (∀ text ∈ d.fragments ++ d.modifiers, good text) ∧ d = d')
      fun el el' => el = el' ∧ P el where
  toEditWalk := h.toEditInvariant.walk
  looped := by
    rintro el _ ⟨rfl, -⟩
    rfl
  bound := by
    rintro el _ ⟨rfl, -⟩ name
    rfl
  take := by
    rintro el _ name ⟨rfl, hel⟩ hname
    have htaken : name ∈ takenNames s := (mem_append.mp hname).elim (mem_append_left _)
      fun hname => mem_takenNames name hname (by simp)
    exact ⟨_, _, _, rfl, rfl, fun text htext hcode => h.good_take hel hcode text htext, rfl,
      h.take hel htaken⟩
  takeBound := by
    rintro el _ name ⟨rfl, hel⟩ hname
    obtain ⟨hrest, hcode⟩ := h.takeBound hel hname
    exact ⟨_, _, _, rfl, rfl, hcode, rfl, hrest⟩
  placed := by
    rintro d _ ⟨-, rfl⟩
    exact ⟨d.span, rfl⟩
  written hd := hd.1
  runtime := by
    rintro d _ needsRuntime ⟨hd, rfl⟩
    exact ⟨hd, rfl⟩
  stored := by
    rintro el _ ⟨rfl, hel⟩
    exact forall₂_same.mpr fun d hd => ⟨h.stored hel d hd, rfl⟩
  restore := by
    rintro el _ ds ds' ⟨rfl, hel⟩ hds
    obtain ⟨hgood, hsame⟩ := (forall₂_and_left _ _).mp hds
    rw [forall₂_eq_eq_eq] at hsame
    subst hsame
    exact ⟨rfl, h.edit hel (.directives hgood)⟩

end Invariant

/-! ## Bindings, listeners and directives -/

theorem splitModifiers_subset (rawName : List Char) : (splitModifiers rawName).1 ⊆ rawName ∧
      ∀ m ∈ (splitModifiers rawName).2.getD [], m.toList ⊆ rawName := by
  -- The modifiers are cut off the name, or off what follows its last bracket.
  have hpieces {front back name modifiers : List Char} (hfront : front ⊆ rawName)
      (hback : back ⊆ rawName) (hcut : cut? ['.'] back = some (name, modifiers)) :
      front ++ name ⊆ rawName ∧ ∀ piece ∈ (splitAt '.' modifiers).1 :: (splitAt '.' modifiers).2,
        piece ⊆ rawName := by
    obtain ⟨hname, hmods⟩ := cut?_subset hcut
    obtain ⟨hfirst, hoth⟩ := splitAt_subset '.' modifiers
    have hall (piece : List Char) (h : piece ⊆ modifiers) : piece ⊆ rawName :=
      List.Subset.trans h (List.Subset.trans hmods hback)
    refine ⟨append_subset.mpr ⟨hfront, List.Subset.trans hname hback⟩, ?_⟩
    exact forall_mem_cons.mpr ⟨hall _ hfirst, fun piece h => hall piece (hoth piece h)⟩
  have hofList {pieces : List (List Char)} (h : ∀ piece ∈ pieces, piece ⊆ rawName) :
      ∀ m ∈ (pieces.filter fun p => !p.isEmpty).map String.ofList, m.toList ⊆ rawName := by
    intro m hm
    obtain ⟨piece, hpiece, rfl⟩ := List.mem_map.mp hm
    rw [String.toList_ofList]
    exact h piece (mem_filter.mp hpiece).1
  unfold splitModifiers
  cases hlast : cutLast? ']' rawName with
  | none =>
    dsimp only
    cases hcut : cut? ['.'] rawName with
    | none => exact ⟨List.Subset.refl _, nofun⟩
    | some parts =>
      obtain ⟨hname, hmods⟩ := hpieces (nil_subset _) (List.Subset.refl _) hcut
      exact ⟨hname, hofList hmods⟩
  | some outer =>
    have hfront : outer.1 ++ [']'] ⊆ rawName := by
      rw [← append_eq_of_cutLast? hlast]
      simp
    dsimp only
    cases hcut : cut? ['.'] outer.2 with
    | none => exact ⟨List.Subset.refl _, nofun⟩
    | some parts =>
      obtain ⟨hname, hmods⟩ := hpieces hfront (cutLast?_subset hlast).2 hcut
      exact ⟨hname, hofList hmods⟩

theorem stripEither?_subset {short : Char} {long name rest : List Char}
    (h : stripEither? short long name = some rest) : rest ⊆ name := by
  have hsuffix {mark : List Char} (h : mark.isPrefixOf? name = some rest) : rest ⊆ name := by
    rw [← append_eq_of_isPrefixOf? h]
    simp
  rcases Option.or_eq_some_iff.mp h with h | ⟨-, h⟩
  · exact hsuffix h
  · exact hsuffix h

theorem good_directiveOf {chars : List Char} {modifiers : List String}
    (hval : good attr.value) (hchars : ∀ part, part ⊆ chars → good (String.ofList part))
    (hmods : ∀ m ∈ modifiers, good m) :
    ∀ text ∈ (directiveOf s attr chars modifiers).fragments ++
      (directiveOf s attr chars modifiers).modifiers, good text := by
  have hbare : (s.directivePrefix.toList.isPrefixOf? chars).getD chars ⊆ chars := by
    cases hstarts : s.directivePrefix.toList.isPrefixOf? chars with
    | none => exact List.Subset.refl _
    | some rest =>
      rw [← append_eq_of_isPrefixOf? hstarts]
      simp
  have hgiven : ∀ text ∈ (if attr.value = "" then none else some attr.value).toList,
      good text := by
    split
    · exact nofun
    · intro text htext
      rw [mem_singleton.mp htext]
      exact hval
  unfold directiveOf
  generalize (s.directivePrefix.toList.isPrefixOf? chars).getD chars = bare at hbare ⊢
  dsimp only
  intro text htext
  rcases mem_append.mp htext with htext | htext
  · cases hcut : cut? [':'] bare with
    | none =>
      rw [hcut] at htext
      rcases mem_append.mp htext with htext | htext
      · exact hgiven text htext
      · cases htext
    | some parts =>
      rw [hcut] at htext
      rcases mem_append.mp htext with htext | htext
      · exact hgiven text htext
      · cases harg : computedArgument? parts.2 with
        | none => simp [harg, Argument.fragments] at htext
        | some code =>
          have hcode : text = String.ofList code := by
            simpa [harg, Argument.fragments] using htext
          rw [hcode]
          exact hchars code (List.Subset.trans (computedArgument?_subset harg)
            (List.Subset.trans (cut?_subset hcut).2 hbare))
  · exact hmods text htext

namespace EditInvariant

variable {attr : Attr}

theorem addDirective (h : EditInvariant s above good P) (hel : P { el with hasBindings := true })
    (hattr : attr ∈ el.pending) (hname : isDirectiveName s attr.name.toList) :
    P (el.addAttribute s above attr).value := by
  obtain ⟨hval, hparts⟩ := h.written hel hattr hname
  obtain ⟨hsplit, hmods⟩ := splitModifiers_subset attr.name.toList
  unfold Element.addAttribute
  dsimp only
  rw [hname]
  split
  · next hnot => cases hnot
  · split
    · next bare heq =>
      refine (h.walk.addBinding ⟨rfl, hel⟩ rfl rfl hval
        (fun part hpart => hparts part ?_) _).value.2
      exact List.Subset.trans hpart (List.Subset.trans (stripEither?_subset heq) hsplit)
    · split
      · next bare heq =>
        refine (h.walk.addListener ⟨rfl, hel⟩ rfl hval (fun part hpart => hparts part ?_) _).value.2
        exact List.Subset.trans hpart (List.Subset.trans (stripEither?_subset heq) hsplit)
      · have hgood := good_directiveOf (s := s) hval
          (fun part hpart => hparts part (List.Subset.trans hpart hsplit)) fun m hm => by
            rw [← String.ofList_toList (s := m)]
            exact hparts _ (hmods m hm)
        exact (h.walk.addWrittenDirective ⟨rfl, hel⟩ rfl ⟨hgood, rfl⟩ rfl).value.2

theorem addAttribute (h : EditInvariant s above good P) (hel : P el) (hattr : attr ∈ el.pending) :
    P (el.addAttribute s above attr).value := by
  cases hname : isDirectiveName s attr.name.toList with
  | true => exact h.addDirective (h.edit hel .bound) hattr hname
  | false =>
    unfold Element.addAttribute
    dsimp only
    rw [hname]
    exact (h.walk.addPlain attr.span ⟨rfl, h.edit hel (.plainAttr hattr)⟩).value.2

end EditInvariant

theorem pending_addAttribute (s : Settings) (above : List Element)
    (h : attr ∈ el.pending) : (el.addAttribute s above attr).value.pending = el.pending := by
  have hkept : EditInvariant s above (fun _ => True) (·.pending = el.pending) :=
    { code := .trivial
      written := fun _ _ _ => ⟨trivial, fun _ _ => trivial⟩
      edit := fun hel hedit => by cases hedit <;> exact hel }
  exact hkept.addAttribute rfl h

theorem EditInvariant.addAttributes (h : EditInvariant s above good P) {attrs : List Attr}
    (hel : P el) (hattrs : ∀ attr ∈ attrs, attr ∈ el.pending) :
    P (addAttributes s above attrs el).value := by
  induction attrs generalizing el with
  | nil => exact hel
  | cons attr rest ih =>
    obtain ⟨hattr, hrest⟩ := forall_mem_cons.mp hattrs
    refine ih (h.addAttribute hel hattr) ?_
    rwa [pending_addAttribute s above hattr]

/-! ## Processing as a whole -/

variable {o : Options}

/-- Whether an element is noted to need a data object does not matter for `P`. -/
def KeptByPlain (P : Element → Prop) : Prop :=
  ∀ {el : Element} (plain : Bool), P el → P { el with plain }

namespace Invariant

theorem described (h : Invariant s above good P) (hel : P el) : P (el.described s above).value :=
  (h.walk.described ⟨rfl, hel⟩).value.2

theorem takeKey (h : Invariant s above good P) (hel : P el) : P (el.takeKey s).value :=
  (h.walk.takeKey ⟨rfl, hel⟩).value.2

theorem taken (h : Invariant s above good P) (hplain : KeptByPlain P) (hel : P el) :
    P (el.taken s above).value := by
  unfold Element.taken
  rw [value_bind]
  exact h.described (hplain _ (h.takeKey hel))

theorem transformAll (h : Invariant s above good P) {modules : List Module}
    (hmods : ∀ m ∈ modules, m ∈ Web.modules) (hel : P el) :
    (transformAll s modules el).Ensures P :=
  (h.walk.transformAll hmods ⟨rfl, hel⟩).first fun _ _ h => h.2

section

variable (h : Invariant o.toSettings above good P) (ho : o.UsesWeb) (hel : P el)

include h ho hel

theorem handleDirectives : (el.handleDirectives o).Ensures P :=
  (h.walk.handleDirectives ho ⟨rfl, hel⟩).first fun _ _ h => h.2

theorem extended : (el.extended o above).Ensures P := by
  refine .bind (h.transformAll ho.modules hel) fun el₁ hel₁ => .bindLift ?_
  exact .bind (h.handleDirectives ho (h.addAttributes hel₁ fun _ hattr => hattr))
    fun el₂ hel₂ => .pure (h.edit hel₂ .processed)

theorem process (hplain : KeptByPlain P) : (el.process o above).Ensures P := by
  rw [process_eq]
  exact .bindLift (h.extended ho (h.taken hplain hel))

end

end Invariant

/-! ## Refinement -/

def frame (el : Element) : Frame where
  tag := el.tag
  span := el.span
  source := el.source
  children := el.children
  scopedSlots := el.scopedSlots
  conditions := el.conditions
  ifExp := el.ifExp
  elseIf := el.elseIf
  isElse := el.isElse
  loop := el.loop
  once := el.once
  pre := el.pre
  forbidden := el.forbidden
  marks := el.marks

/-- What adding a binding, a listener or a directive leaves alone. -/
def core (el : Element) : Frame × List Attr × Bool × Option String × Option String :=
  (el.frame, el.pending, el.hasBindings, el.slotTarget, el.staticStyle)

def StyleBraced (el : Element) : Prop := ∀ text ∈ el.staticStyle, ∃ inner, text = braced inner

/-- The binding that an attribute becomes when it is no directive. -/
def plainBinding (attr : Attr) : Binding := { name := attr.name, value := Text.literal attr.value }

/-- What processing can make of the element `el`. -/
structure Refines (s : Settings) (el el' : Element) : Prop where
  frame : el'.frame = el.frame
  pending : el'.pending.Sublist el.pending
  kept : ∀ attr ∈ el.pending, attr.name ∉ takenNames s → attr ∈ el'.pending
  bindings : el.hasBindings → el'.hasBindings
  target : el'.slotTarget = none → el.slotTarget = none
  attrs : el'.hasBindings = false → el'.slotTarget = none → ∀ b ∈ el'.attrs,
    b ∈ el.attrs ∨ ∃ attr ∈ el.pending, b = plainBinding attr
  style : el.StyleBraced → el'.StyleBraced

namespace Refines

variable {s : Settings}

theorem refl (el : Element) : Refines s el el where
  frame := rfl
  pending := List.Sublist.refl _
  kept _ h _ := h
  bindings := id
  target := id
  attrs _ _ _ hb := .inl hb
  style := id

theorem trans {el₁ el₂ el₃ : Element} (h₁ : Refines s el₁ el₂) (h₂ : Refines s el₂ el₃) :
    Refines s el₁ el₃ where
  frame := h₂.frame.trans h₁.frame
  pending := h₂.pending.trans h₁.pending
  kept attr h hname := h₂.kept attr (h₁.kept attr h hname) hname
  bindings h := h₂.bindings (h₁.bindings h)
  target h := h₁.target (h₂.target h)
  attrs hb ht b hmem := by
    rcases h₂.attrs hb ht b hmem with h | ⟨attr, hattr, rfl⟩
    · refine h₁.attrs ?_ (h₂.target ht) b h
      cases hb₂ : el₂.hasBindings with
      | false => rfl
      | true => rw [h₂.bindings hb₂] at hb; cases hb
    · exact .inr ⟨attr, h₁.pending.subset hattr, rfl⟩
  style h := h₂.style (h₁.style h)

/-- A step that keeps the core of an element may add attributes as far as its bindings allow. -/
theorem ofCore (hcore : el'.core = el.core) (hattrs : el.hasBindings = false → ∀ b ∈ el'.attrs,
      b ∈ el.attrs ∨ ∃ attr ∈ el.pending, b = plainBinding attr) : Refines s el el' := by
  simp only [core, Prod.mk.injEq] at hcore
  obtain ⟨hframe, hpend, hbindings, htgt, hstyle⟩ := hcore
  exact ⟨hframe, hpend ▸ List.Sublist.refl _, fun _ h _ => hpend ▸ h,
    fun h => hbindings.trans h, fun h => htgt ▸ h, fun h _ => hattrs (hbindings ▸ h),
    fun h text htext => h text (hstyle ▸ htext)⟩

theorem ofSame (hcore : el'.core = el.core) (hattrs : el'.attrs = el.attrs) : Refines s el el' :=
  ofCore hcore fun _ _ hb => .inl (hattrs ▸ hb)

/-- A step on an element with bindings may add attributes of any kind. -/
theorem ofBound (hcore : el'.core = el.core) (hbound : el.hasBindings) : Refines s el el' :=
  ofCore hcore fun h => by rw [hbound] at h; cases h

theorem drop (hname : name ∈ takenNames s) {pending : List Attr}
    (h : Without [name] el.pending pending) : Refines s el { el with pending } := by
  refine ⟨rfl, h.sublist, fun attr hattr hfree => ?_, id, id, fun _ _ _ hb => .inl hb, id⟩
  exact h.kept attr hattr fun h => hfree (mem_singleton.mp h ▸ hname)

theorem edit {f : Element → Element} (h : Edit above good el f) : Refines s el (f el) := by
  cases h with
  | target => exact ⟨rfl, List.Sublist.refl _, fun _ h _ => h, id, nofun, nofun, id⟩
  -- The attribute for the outlet need be no literal of the markup, but now there is a target.
  | targetAttr => exact ⟨rfl, List.Sublist.refl _, fun _ h _ => h, id, nofun, nofun, id⟩
  | staticStyle =>
    refine ⟨rfl, List.Sublist.refl _, fun _ h _ => h, id, id, fun _ _ _ hb => .inl hb, ?_⟩
    intro _ text htext
    obtain rfl := Option.some.inj htext
    exact ⟨_, rfl⟩
  | bound => exact ⟨rfl, List.Sublist.refl _, fun _ h _ => h, fun _ => rfl, id, nofun, id⟩
  | attr hbound => exact .ofBound rfl hbound
  | @plainAttr attr hattr =>
    refine .ofCore rfl fun _ b hb => ?_
    rcases mem_append.mp hb with hb | hb
    · exact .inl hb
    · exact .inr ⟨attr, hattr, mem_singleton.mp hb⟩
  | _ => exact .ofSame rfl rfl

theorem invariant (s : Settings) (above : List Element) (el : Element) :
    Invariant s above (fun _ => True) (Refines s el) :=
  .ofKept (fun hel h => hel.trans (.edit h)) fun hel hname hwo =>
    hel.trans (.drop hname hwo)

end Refines

variable {s : Settings}

theorem taken_refines (s : Settings) (above : List Element) (el : Element) :
    Refines s el (el.taken s above).value :=
  (Refines.invariant s above el).taken (fun _ h => h.trans (.ofSame rfl rfl)) (.refl el)

theorem addAttributes_refines (s : Settings) (above : List Element) (attrs : List Attr)
    (el : Element) (hattrs : ∀ attr ∈ attrs, attr ∈ el.pending) :
    Refines s el (addAttributes s above attrs el).value :=
  (Refines.invariant s above el).addAttributes (.refl el) hattrs

theorem handleDirectives_refines (ho : o.UsesWeb) (el : Element) :
    (el.handleDirectives o).Ensures (Refines o.toSettings el) :=
  (Refines.invariant o.toSettings [] el).handleDirectives ho (.refl el)

theorem hasBindings_addAttributes (above : List Element) (attrs : List Attr)
    (el : Element) (hattrs : ∀ attr ∈ attrs, attr ∈ el.pending)
    (hmem : attr ∈ attrs) (hname : isDirectiveName s attr.name.toList) :
    (addAttributes s above attrs el).value.hasBindings := by
  induction attrs generalizing el with
  | nil => cases hmem
  | cons first rest ih =>
    obtain ⟨hfirst, hrest⟩ := forall_mem_cons.mp hattrs
    rw [← pending_addAttribute s above hfirst] at hrest
    rcases mem_cons.mp hmem with rfl | hmem
    · refine (addAttributes_refines s above rest _ hrest).bindings ?_
      exact ((Refines.invariant s above { el with hasBindings := true }).addDirective (.refl _)
        hfirst hname).bindings rfl
    · exact ih _ hrest hmem

/-- What processing makes of the element `el`. -/
structure Processed (s : Settings) (el el' : Element) : Prop extends Refines s el el' where
  processed : el'.processed
  /-- A directive that is not taken leaves its mark. -/
  bound : ∀ attr ∈ el.pending, attr.name ∉ takenNames s →
    isDirectiveName s attr.name.toList → el'.hasBindings

theorem process_spec (ho : o.UsesWeb) (above : List Element) (el : Element) :
    (el.process o above).Ensures (Processed o.toSettings el) := by
  have h := Refines.invariant o.toSettings above el
  rw [process_eq]
  refine .bindLift (.bind (h.transformAll ho.modules (taken_refines _ above el)) fun el' hel' => ?_)
  have hattrs := addAttributes_refines o.toSettings above el'.pending el' fun _ h => h
  refine .bindLift (.bind (handleDirectives_refines ho _) fun el'' hel'' => .pure ?_)
  have hlast : Refines o.toSettings el'' { el'' with processed := true } := .ofSame rfl rfl
  refine ⟨((hel'.trans hattrs).trans hel'').trans hlast, rfl, fun attr hattr hfree hname => ?_⟩
  exact hlast.bindings (hel''.bindings (hasBindings_addAttributes above el'.pending el'
    (fun _ h => h) (hel'.kept attr hattr hfree) hname))

theorem needsData_invariant (s : Settings) (above : List Element) :
    Invariant s above (fun _ => True) (·.plain = false) :=
  .ofKept (fun h hedit => by cases hedit <;> first | exact h | rfl) fun h _ _ => h

/-- An element that is noted to need a data object once its key is taken needs one. -/
theorem process_needsData_of_withPlain (ho : o.UsesWeb) (above : List Element)
    (h : (el.takeKey o.toSettings).value.withPlain.plain = false) :
    (el.process o above).Ensures (·.plain = false) := by
  have hinvariant := needsData_invariant o.toSettings above
  rw [process_eq]
  refine .bindLift (hinvariant.extended ho ?_)
  rw [taken, value_bind]
  exact hinvariant.described h

theorem process_needsData (ho : o.UsesWeb) (above : List Element)
    (hattr : attr ∈ el.pending) (hname : attr.name ∉ takenNames o.toSettings) :
    (el.process o above).Ensures (·.plain = false) := by
  refine process_needsData_of_withPlain ho above ?_
  have hkept := ((Refines.invariant o.toSettings above el).takeKey (.refl el)).kept attr hattr hname
  rw [withPlain, isEmpty_eq_false_iff.mpr (ne_nil_of_mem hkept), Bool.and_false]

end Element

namespace Web

open Element

theorem transform_refines {m : Module} (hm : m ∈ modules) (s : Settings) (el : Element) :
    (m.transform s el).Ensures (Refines s el) :=
  (transform_walks (Refines.invariant s [] el).walk ⟨rfl, .refl el⟩ hm).first fun _ _ h => h.2

theorem handler_refines {handler : DirectiveHandler}
    (h : directives.get? name = some handler) (s : Settings) (el : Element) (dir : Directive) :
    (handler s el dir).Ensures fun r => Refines s el r.1 :=
  (handler_walks (Refines.invariant s [] el).walk h ⟨rfl, .refl el⟩ dir.span
    fun _ _ => trivial).first fun _ _ h => h.2.2

end Web

end TemplateCompiler
