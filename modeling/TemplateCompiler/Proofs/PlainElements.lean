import TemplateCompiler.Proofs.MissingValues
import TemplateCompiler.Proofs.RawContent

/-!
# Elements without a data object

The call for an element that is noted to be plain has no data object. The note is made early: when
the key of an element has been taken, it is plain if nothing is pending any more. All that could add
to the data object is still pending then if it was written, because what has been taken before are
structural directives only, and no later step adds to a data object without taking back the note. So
the object that is left out would have been empty (`plain_dataCode`).

Inside an element that is left as written the note is made in another way, and there it may be
wrong: an input that is expanded there can become a scoped slot of a plain element.
-/

namespace TemplateCompiler

open Markup Noted Option List Element DataObject Web

variable {o : Options} {el : Element}

namespace Element

variable {s : Settings} {el : Element} {name : String}

/-- What makes entries of the data object of an element, apart from its attributes, scoped slots and
component and the mark that it is left as written. -/
def data (el : Element) :=
  (el.directives, el.key, el.ref, el.props, el.listeners, el.slotTarget, el.inlineTemplate,
    el.staticClass, el.classBinding, el.staticStyle, el.styleBinding, el.boundObject,
    el.boundListeners)

def Dataless (el : Element) : Prop := el.data = ({} : Element).data

/-- A plain element is without data, and if it has been processed without scoped slots. An element
that has not been processed has no data but attributes that are kept as written, and what else may
add to it is pending. -/
structure Sparing (s : Settings) (el : Element) : Prop where
  plain : el.plain → el.Dataless ∧ el.attrs = []
  slots : el.plain → el.processed → el.scopedSlots = []
  fresh : el.processed = false → el.Dataless
  kept : el.processed = false → el.attrs ≠ [] → el.pending ≠ []
  written : el.processed = false → ∀ name ∈ takenNames s, el.hasAttr name →
    ∃ attr ∈ el.pending, attr.name = name
  pre : el.pre → el.hasAttr (s.directive "pre")

/-- The element of a start tag that is being taken. -/
structure Starting (s : Settings) (el : Element) : Prop where
  needsData : el.plain = false
  model : el.processed → ∃ attr ∈ el.pending, attr.name = s.directive "model"
  attrs : el.processed = false → el.attrs = []

theorem Sparing.ofProcessed (hneeds : el.plain = false) (hdone : el.processed)
    (hpre : el.pre → el.hasAttr (s.directive "pre")) : el.Sparing s := by
  have hplain {p : Prop} (h : el.plain) : p := absurd hneeds (by rw [h]; decide)
  have hfresh {p : Prop} (h : el.processed = false) : p := absurd hdone (by rw [h]; decide)
  exact ⟨hplain, hplain, hfresh, hfresh, hfresh, hpre⟩

/-! ## Taking a start tag -/

/-- Taking structural directives keeps what else is written. -/
theorem Sparing.strip (h : el.Sparing s) (hattrs : el.processed = false → el.attrs = [])
    {pending : List Attr}
    (hpend : ∀ attr ∈ el.pending, attr.name ∈ takenNames s → attr ∈ pending) :
    ({ el with pending }).Sparing s where
  plain := h.plain
  slots := h.slots
  fresh := h.fresh
  kept hprocessed hne := absurd (hattrs hprocessed) hne
  written hprocessed name hname hwritten := by
    obtain ⟨attr, hattr, rfl⟩ := h.written hprocessed name hname hwritten
    exact ⟨attr, hpend attr hattr hname, rfl⟩
  pre := h.pre

theorem directive_not_mem_takenNames (hs : s.directivePrefix = "r-")
    (hname : name ∈ ["for", "if", "else", "else-if", "once", "pre"]) :
    s.directive name ∉ takenNames s := by
  have hnames : takenNames s = takenNames { ({} : Settings) with directivePrefix := "r-" } := by
    unfold takenNames
    rw [hs]
  rw [hnames, Settings.directive_eq hs]
  revert name
  decide +kernel

/-! ## Processing -/

/-- None of the attributes that processing takes has been written. -/
def Untaken (s : Settings) (el : Element) : Prop := ∀ name ∈ takenNames s, el.attr? name = none

theorem take_of_none (h : el.attr? name = none) : el.take name = (none, el) := by
  unfold take
  rw [h]

namespace Untaken

section

variable (h : el.Untaken s) (hname : name ∈ valueNames)

include h hname

theorem takeBound : el.takeBound name s.directivePrefix = (none, el) := by
  unfold Element.takeBound
  rw [take_of_none (h _ (mem_takenNames _ hname (by simp)))]
  dsimp only
  rw [take_of_none (h _ (mem_takenNames _ hname (by simp)))]
  rfl

theorem takePlain : el.take name = (none, el) :=
  take_of_none (h _ (mem_takenNames _ hname (by simp)))

theorem takeValue : el.takeValue name s.directivePrefix = (none, el) := by
  unfold Element.takeValue
  rw [h.takeBound hname]
  dsimp only
  rw [h.takePlain hname]
  rfl

end

theorem takeSlot (h : el.Untaken s) : ∃ slotName slotScope,
    (el.takeSlot s).value = { el with slotName, slotScope } := by
  have hscope (name : String) (hname : name ∈ ["scope", "slot-scope", "inline-template"]) :
      el.take name = (none, el) := take_of_none (h name (mem_append_left _ hname))
  unfold Element.takeSlot
  split
  · unfold takeOutlet
    rw [h.takeValue (by decide)]
    refine ⟨none, el.slotScope, ?_⟩
    dsimp only
    split <;> rfl
  · refine ⟨el.slotName, none, ?_⟩
    have hscoped : (el.takeScope s).value = { el with slotScope := none } := by
      unfold takeScope
      split
      · rw [hscope "scope" (by simp)]
        dsimp only
        rw [hscope "slot-scope" (by simp)]
        rfl
      · rw [hscope "slot-scope" (by simp)]
        rfl
    have htgt : ({ el with slotScope := none } : Element).Untaken s := h
    rw [value_bind, hscoped, value_pure, takeTarget, htgt.takeValue (by decide)]

theorem described (h : el.Untaken s) (above : List Element) : ∃ slotName slotScope,
    (el.described s above).value = { el with slotName, slotScope } := by
  obtain ⟨slotName, slotScope, heq⟩ := h.takeSlot
  have hslot : ({ el with slotName, slotScope } : Element).Untaken s := h
  refine ⟨slotName, slotScope, ?_⟩
  rw [Element.described, takeRef, h.takeValue (by decide)]
  rw [value_bind, heq, takeComponent, hslot.takeValue (by decide)]
  dsimp only
  unfold takeFlag
  rw [take_of_none (hslot "inline-template" (by simp [takenNames]))]
  rfl

theorem transformAll (h : el.Untaken s) : transformAll s Web.modules el = pure el := by
  have hplain {name : String} (hname : name ∈ valueNames) :
      Web.takePlain s name el = pure (none, el) := by
    unfold Web.takePlain
    rw [h.takePlain hname]
  have hclass : Web.takeClass s el = pure el := by
    rw [Web.takeClass, hplain (by decide), pure_bind, Web.keepClass, Web.takeBoundClass,
      h.takeBound (by decide)]
  have hstyle : takeStyle s el = pure el := by
    have hkeep : keepStyle none el = el := rfl
    rw [takeStyle, hplain (by decide), pure_bind, hkeep, takeBoundStyle, h.takeBound (by decide)]
  show (liftM (takeClass s el) >>= fun el => liftM (takeStyle s el) >>= fun el =>
    pure el >>= pure : Outcome Element) = pure el
  simp only [hclass, hstyle, liftM_pure, pure_bind]

theorem extended (ho : o.IsWeb) (h : el.Untaken o.toSettings) (above : List Element)
    (hpend : el.pending = []) (hdirs : el.directives = []) :
    el.extended o above = pure { el with directives := [], processed := true } := by
  have hadd : addAttributes o.toSettings above el.pending el = pure el := by
    rw [hpend, addAttributes]
  have hhandle : el.handleDirectives o = pure { el with directives := [] } := by
    rw [handleDirectives, hdirs]
    rfl
  rw [Element.extended, ho.modules, h.transformAll, pure_bind, hadd, liftM_pure, pure_bind, hhandle,
    pure_bind]

end Untaken

theorem snd_take_of_none (h : (el.take name).1 = none) : (el.take name).2 = el := by
  rw [take_of_none (by rwa [fst_take] at h)]

theorem snd_takeBound_of_none {directivePrefix : String}
    (h : (el.takeBound name directivePrefix).1 = none) :
    (el.takeBound name directivePrefix).2 = el := by
  unfold takeBound at h ⊢
  split at h
  · cases h
  · next el' heq =>
    have hel : el' = el := by
      have := snd_take_of_none (congrArg Prod.fst heq)
      rwa [heq] at this
    subst hel
    exact snd_take_of_none (map_eq_none_iff.mp h)

theorem takeKey_cases (s : Settings) (el : Element) :
    (el.takeKey s).value.key.isSome ∨ (el.takeKey s).value = el := by
  unfold takeKey
  split
  · left
    split <;> rfl
  · next el' heq =>
    refine .inr ?_
    unfold takeValue at heq
    split at heq
    · cases heq
    · next el₁ hbound =>
      have hel : el₁ = el := by
        have := snd_takeBound_of_none (congrArg Prod.fst hbound)
        rwa [hbound] at this
      subst hel
      obtain ⟨hnone, rfl⟩ := Prod.mk.inj heq
      exact snd_take_of_none (map_eq_none_iff.mp hnone)

theorem Sparing.process (ho : o.IsWeb) (h : el.Sparing o.toSettings)
    (hprocessed : el.processed = false) (above : List Element) :
    (el.process o above).Ensures (Sparing o.toSettings) := by
  have hdone : (el.process o above).Ensures fun el' => el'.processed ∧
      (el'.pre → el'.hasAttr (o.directive "pre")) := by
    refine (process_spec ho.usesWeb above el).mono fun el' hel' => ⟨hel'.processed, ?_⟩
    have hsrc : el'.source = el.source := congrArg Frame.source hel'.frame
    have hpre : el'.pre = el.pre := congrArg Frame.pre hel'.frame
    rw [hpre, hasAttr, hsrc]
    exact h.pre
  cases hplain : (el.takeKey o.toSettings).value.withPlain.plain with
  | false =>
    exact ((process_needsData_of_withPlain ho.usesWeb above hplain).and hdone).mono
      fun el' hel' => .ofProcessed hel'.1 hel'.2.1 hel'.2.2
  | true =>
    rw [withPlain] at hplain
    simp only [Bool.and_eq_true, isNone_iff_eq_none, List.isEmpty_iff, and_assoc] at hplain
    have hkey : (el.takeKey o.toSettings).value = el :=
      (takeKey_cases o.toSettings el).resolve_left (by rw [hplain.1]; decide)
    obtain ⟨-, hslots, hpend⟩ := hkey ▸ hplain
    have huntaken : el.Untaken o.toSettings := by
      intro name hname
      cases hattr : el.attr? name with
      | none => rfl
      | some value =>
        obtain ⟨attr, hattr, -⟩ := h.written hprocessed name hname (isSome_of_eq_some hattr)
        rw [hpend] at hattr
        cases hattr
    have hattrs : el.attrs = [] := Classical.byContradiction fun hne => h.kept hprocessed hne hpend
    have hplained : el.withPlain.Untaken o.toSettings := huntaken
    obtain ⟨slotName, slotScope, heq⟩ := hplained.described above
    have hfresh := h.fresh hprocessed
    have hdescribed :
        ({ el.withPlain with slotName, slotScope } : Element).Untaken o.toSettings := huntaken
    rw [process_eq]
    refine .bindLift ?_
    have hdirs : el.directives = [] := (Prod.mk.inj hfresh).1
    rw [taken, value_bind, hkey, heq, hdescribed.extended ho above hpend hdirs]
    have hnot {p : Prop} (h : true = false) : p := by cases h
    refine .pure ⟨fun _ => ⟨?_, hattrs⟩, fun _ _ => hslots, fun h => hnot h, fun h => hnot h,
      fun h => hnot h, h.pre⟩
    exact Prod.ext rfl (Prod.mk.inj hfresh).2

/-! ## Start tags -/

theorem IsExpanded.sparing {tag : String} {span : Span} (h : el.IsExpanded s tag span) :
    el.Sparing s ∧ el.Starting s :=
  ⟨.ofProcessed h.needsData h.processed fun hpre => absurd h.unmarked (by rw [hpre]; decide),
    h.needsData, fun _ => h.model, fun hnot => absurd h.processed (by rw [hnot]; decide)⟩

theorem Sparing.takePre (hs : s.directivePrefix = "r-") (h : el.Sparing s) (hnew : el.Starting s) :
    (el.takePre s).Sparing s ∧ (el.takePre s).Starting s := by
  obtain ⟨pre, pending, hwo, hpre, heq⟩ := el.takePre_cases s
  have hstripped := h.strip hnew.attrs fun attr hattr hname => hwo.kept attr hattr
    fun hpre => directive_not_mem_takenNames hs (by simp) (mem_singleton.mp hpre ▸ hname)
  rw [heq]
  refine ⟨{ hstripped with pre := fun h' => (hpre h').elim h.pre id }, hnew.needsData,
    fun hprocessed => ?_, hnew.attrs⟩
  obtain ⟨attr, hattr, hname⟩ := hnew.model hprocessed
  exact ⟨attr, hwo.kept attr hattr (by simp [hname, Settings.directive_inj]), hname⟩

theorem Sparing.keepAttributes (h : el.Sparing s) (hnew : el.Starting s) :
    el.keepAttributes.Sparing s ∧
      (el.keepAttributes.processed → el.keepAttributes.plain = false) := by
  have hprocessed (hempty : el.pending = []) : el.processed = false := by
    refine (Bool.not_eq_true _).mp fun hprocessed => ?_
    obtain ⟨attr, hattr, -⟩ := hnew.model hprocessed
    rw [hempty] at hattr
    cases hattr
  unfold Element.keepAttributes
  split
  · next hempty =>
    have hprocessed := hprocessed (List.isEmpty_iff.mp hempty)
    split
    · exact ⟨h, fun _ => hnew.needsData⟩
    · refine ⟨{ h with
        plain := fun _ => ⟨h.fresh hprocessed, hnew.attrs hprocessed⟩
        slots := fun _ hdone => absurd hdone (by rw [hprocessed]; decide) }, fun hdone => ?_⟩
      exact absurd hdone (by rw [hprocessed]; decide)
  · next hsome =>
    have hneeds {p : Prop} (hnot : el.plain) : p :=
      absurd hnew.needsData (by rw [hnot]; decide)
    exact ⟨{ h with
      plain := fun hplain => hneeds hplain
      kept := fun _ _ hempty => hsome (List.isEmpty_iff.mpr hempty) }, fun _ => hnew.needsData⟩

theorem Sparing.structured (hs : s.directivePrefix = "r-") (h : el.Sparing s)
    (hnew : el.Starting s) (hprocessed : el.processed = false) (id : NodeId) :
    let el' := (do
      let el ← el.takeLoop s
      let el ← el.takeCondition s id
      return el.takeOnce s : Noted Element).value
    el'.Sparing s ∧ el'.processed = false ∧ el'.plain = el.plain := by
  obtain ⟨_, _, _, _, _, _, _, heq, hwo, -⟩ := el.structural_cases s id
  have hstripped := h.strip hnew.attrs fun attr hattr hname => hwo.kept attr hattr fun hmem => by
    obtain ⟨name, hname', heq⟩ := List.mem_map.mp hmem
    refine directive_not_mem_takenNames hs ?_ (heq ▸ hname)
    exact mem_append_left ["pre"] hname'
  rw [heq]
  exact ⟨{ hstripped with }, hprocessed, rfl⟩

end Element

/-! ## The tree of a template -/

/-- What is known about plain elements, for all nodes. An element that is not processed is noted to
be plain only where it is left as written. -/
def NodeKind.Sparing (s : Settings) (around : Around) : NodeKind → Prop
  | .element el => el.Sparing s ∧ (el.plain → el.processed = false →
      around.written ∨ el.hasAttr (s.directive "pre"))
  | _ => True

theorem Builder.opened_sparing (ho : o.IsWeb) (b b' : Builder) (id : NodeId)
    (tag : String) (attrs : List Attr) (span : Span) :
    (b'.expanded o id (b.newElement o.toSettings tag attrs span)).Ensures fun r =>
      (r.2.Sparing o.toSettings ∧ r.2.Starting o.toSettings) ∧ ∃ others,
        r.1.ast = b'.ast.pushElements b'.parent? others ∧
          ∀ other ∈ others, other.Sparing o.toSettings ∧ other.processed := by
  obtain ⟨-, -, hwritten⟩ := newElement_spec o.toSettings b tag attrs span
  have hview : (b.newElement o.toSettings tag attrs span).pending = attrs ∧
      (b.newElement o.toSettings tag attrs span).plain = false ∧
      (b.newElement o.toSettings tag attrs span).pre = false ∧
      (b.newElement o.toSettings tag attrs span).processed = false ∧
      (b.newElement o.toSettings tag attrs span).attrs = [] ∧
      (b.newElement o.toSettings tag attrs span).Dataless := ⟨rfl, rfl, rfl, rfl, rfl, rfl⟩
  generalize b.newElement o.toSettings tag attrs span = new at hwritten hview ⊢
  obtain ⟨rfl, hplain, hpre, hprocessed, hattrs, hdata⟩ := hview
  have hnew : new.Sparing o.toSettings ∧ new.Starting o.toSettings := by
    have hneeds {p : Prop} (h : new.plain) : p := absurd hplain (by rw [h]; decide)
    exact ⟨⟨hneeds, hneeds, fun _ => hdata, fun _ hne => absurd hattrs hne,
        fun _ name _ => hwritten name, fun h => absurd hpre (by rw [h]; decide)⟩,
      ⟨hplain, fun h => absurd hprocessed (by rw [h]; decide), fun _ => hattrs⟩⟩
  refine (expanded_raw ho.usesWeb b' id hwritten).mono fun r hr => ?_
  obtain ⟨-, others, hast, ⟨-, rfl, heq⟩ | ⟨-, hall⟩⟩ := hr
  · rw [heq]
    exact ⟨hnew, [], hast, forall_mem_nil _⟩
  · exact ⟨(hall r.2 (by simp)).sparing, others, hast,
      fun other hother => ⟨(hall other (by simp [hother])).sparing.1,
        (hall other (by simp [hother])).processed⟩⟩

theorem sparing_tends (ho : o.IsWeb) : Tends o (fun _ => True) (NodeKind.Sparing o.toSettings)
      (fun _ el => el.Sparing o.toSettings ∧ el.Starting o.toSettings)
      fun el => el.processed → el.plain = false where
  opened {tag attrs _ span _} b b' id _ _ :=
    (Builder.opened_sparing ho b b' id tag attrs span).mono fun _ ⟨hel, others, hast, hoth⟩ =>
      ⟨hel, others, hast, fun other hother => ⟨(hoth other hother).1,
        fun _ h => absurd (hoth other hother).2 (by rw [h]; decide)⟩⟩
  pre _ h := Sparing.takePre ho.directivePrefix h.1 h.2
  asWritten {_ el} hwritten h := by
    obtain ⟨hsparing, hkept⟩ := Sparing.keepAttributes h.1 h.2
    refine ⟨⟨hsparing, fun _ _ => hwritten.imp_right fun hpre => ?_⟩, hkept⟩
    rw [keepAttributes_eq]
    exact h.1.pre hpre
  structured {_ el _} id _ h hprocessed heq := by
    obtain ⟨hsparing, hkept, hsame⟩ :=
      Sparing.structured ho.directivePrefix h.1 h.2 hprocessed id
    rw [heq] at hsparing hkept hsame
    refine ⟨⟨hsparing, fun hplain => ?_⟩, fun hdone => absurd hdone (by rw [hkept]; decide)⟩
    exact absurd h.2.needsData (by rw [← hsame, hplain]; decide)
  expanded _ h hprocessed := ⟨⟨h.1, fun _ hnot => absurd hprocessed (by rw [hnot]; decide)⟩,
    fun _ => h.2.needsData⟩
  process above _ _ h hprocessed := ((Sparing.process ho h.1 hprocessed above).and
    (process_spec ho.usesWeb above _)).mono fun _ h' =>
      ⟨h'.1, fun _ hnot => absurd h'.2.processed (by rw [hnot]; decide)⟩
  children _ h := ⟨{ h.1 with }, h.2⟩
  branch _ h _ _ := ⟨{ h.1 with }, h.2⟩
  slot id h hopen _ := ⟨{ h.1 with
    slots := fun hplain hdone => absurd (hopen hdone) (by rw [show _ from hplain]; decide) },
    h.2⟩
  unlinked h heq hdone :=
    (congrArg plain heq).trans (h ((congrArg processed heq).symm.trans hdone))
  text _ _ _ _ _ := trivial
  comment _ := trivial

/-! ## Code -/

/-- The modules of the web have nothing to add for an element without data. -/
theorem ownEntries_of_dataless (h : el.Dataless) (hattrs : el.attrs = [])
    (hpre : el.pre = false) : ownEntries modules el = .ok "" := by
  simp only [Dataless, data, Prod.mk.injEq] at h
  obtain ⟨hdirs, hkey, href, hprops, hlsn, htgt, -, hclass, hclass', hstyle, hstyle', -, -⟩ := h
  have hleading : leadingEntries el = "" := by
    simp [leadingEntries, directivesEntry, refEntry, hdirs, hkey, href, hpre, hattrs, hprops]
  have hclass : classData el = "" := by rw [classData, hclass, hclass']
  have hstyle : styleData el = "" := by rw [styleData, hstyle, hstyle']
  have htrailing : trailingEntries el = "" := by
    simp [trailingEntries, hlsn, htgt]
  have hmods : moduleEntries el modules = .ok "" := by
    show (do
      let first ← (pure (classData el) : Except HookFailure String)
      let others ← (do
        let first ← (pure (styleData el) : Except HookFailure String)
        return first ++ "")
      return first ++ others) = _
    rw [hclass, hstyle]
    rfl
  rw [ownEntries, hmods, hleading, htrailing]
  rfl

theorem dataCode_of_dataless (ho : o.IsWeb) (h : el.Dataless)
    (hattrs : el.attrs = []) (hpre : el.pre = false) (hslots : el.scopedSlots = [])
    (hcomponent : el.component = none) (slots inline : Gen (List Code)) :
    Gen.dataCode o el slots inline = pure (.text "\x7b\x7d") := by
  have hown := ownEntries_of_dataless h hattrs hpre
  simp only [Dataless, data, Prod.mk.injEq] at h
  obtain ⟨-, -, -, -, -, -, hinl, -, -, -, -, hobj, hlsn⟩ := h
  unfold Gen.dataCode
  rw [ho.modules, hown, hslots, hinl, Gen.tagEntries, hcomponent]
  show (pure (merged el (object "" [])) : Gen Code) = _
  rw [merged, hobj, hlsn]
  rfl

/-- For every template of the web: an element that does not stand in what is left as written, is
noted to be plain and has no component has an empty data object, whatever marks it is given. So the
call for it says the same without one. -/
theorem plain_dataCode (o : Options) (ho : o.IsWeb) (source : String) :
    ∃ tree, (parse o source).result = .ok tree ∧ ∀ x el, tree.element? x = some el →
      (∀ e ∈ el :: tree.ancestorElements x, e.hasAttr (o.directive "pre") = false) →
      el.plain = true → el.component = none → ∀ marks slots inline,
        Gen.dataCode o (el.withMarks marks) slots inline = pure (.text "\x7b\x7d") := by
  obtain ⟨tree, htree, hsparing⟩ := parse_each (sparing_tends ho) ho.usesWeb source
    fun _ _ => trivial
  refine ⟨tree, htree, fun x el hel houtside hplain hcomponent marks => ?_⟩
  obtain ⟨hel', hwritten⟩ := hsparing.element hel
  have hself := houtside el mem_cons_self
  have hprocessed : el.processed = true := by
    refine (Bool.not_eq_false _).mp fun hnot => ?_
    rcases hwritten hplain hnot with hinside | hpre
    · obtain ⟨e, he, hpre⟩ := List.any_eq_true.mp hinside
      rw [houtside e (mem_cons_of_mem el he)] at hpre
      cases hpre
    · rw [hself] at hpre
      cases hpre
  have hpre : el.pre = false := by
    refine (Bool.not_eq_true _).mp fun hpre => ?_
    rw [hel'.pre hpre] at hself
    cases hself
  have hdata : (el.withMarks marks).Dataless := (hel'.plain hplain).1
  exact dataCode_of_dataless ho hdata (hel'.plain hplain).2 hpre (hel'.slots hplain hprocessed)
    hcomponent

/-- A paragraph with a condition: the directive is taken before the note is made. -/
theorem plain_dataCode_condition : Web.options.IsWeb ∧
    ∃ tree el, (parse Web.options "<div><p r-if=a>x</p></div>").result = .ok tree ∧
      tree.element? 1 = some el ∧
      (∀ e ∈ el :: tree.ancestorElements 1, e.hasAttr (Web.options.directive "pre") = false) ∧
      el.plain = true ∧ el.component = none ∧ el.ifExp = some "a" ∧
      Gen.dataCode Web.options el (pure []) (pure []) = pure (.text "\x7b\x7d") := by
  obtain ⟨tree, htree, hall⟩ := plain_dataCode options isWeb_options "<div><p r-if=a>x</p></div>"
  have hcheck := check_ok htree (fun tree => (tree.element? 1).any fun el =>
    (el :: tree.ancestorElements 1).all (!·.hasAttr (options.directive "pre")) &&
      el.plain && el.component.isNone && el.ifExp = some "a") (by decide +kernel)
  simp only [Option.any_eq_true, Bool.and_eq_true, and_assoc, decide_eq_true_iff, List.all_eq_true,
    Bool.not_eq_true', isNone_iff_eq_none] at hcheck
  obtain ⟨el, hel, houtside, hplain, hcomponent, hif⟩ := hcheck
  exact ⟨isWeb_options, tree, el, htree, hel, houtside, hplain, hcomponent, hif,
    hall 1 el hel houtside hplain hcomponent el.marks (pure []) (pure [])⟩

end TemplateCompiler
