import TemplateCompiler.Proofs.Generator

/-!
# How a reference is written

The data object of an element has an entry for its reference, and if the reference is in a loop then
the entry that says so comes right after it. To tell the two cases apart in the text of an object
one has to know that nothing else that may come next looks like that entry. Property and listener
keys begin with a quote or a bracket and all other entries with a fixed name, so the first character
is enough (`IsOther`).
-/

namespace TemplateCompiler

open List String

variable {s ref callee : String} {el : Element}

namespace Element

/-- The code is a data object of the element that has the reference among the element's own entries,
followed by the mark for a loop exactly if `inLoop`. -/
def IsData (el : Element) (ref : String) (inLoop : Bool) (code : Code) : Prop :=
  ∃ first last inner,
    code = DataObject.merged el (DataObject.object (first ++ "ref:" ++ ref ++ "," ++ last) inner) ∧
    (inLoop ↔ "refInFor:true,".toList <+: last.toList)

def CallsWith (el : Element) (ref : String) (inLoop : Bool) (text : String) : Prop :=
  ∃ callee data rest, el.IsData ref inLoop data ∧
    text = "_c(" ++ callee ++ "," ++ data.render ++ rest

end Element

/-! ## What entries begin with -/

/-- The text does not begin as the mark for a loop does. -/
def IsOther (s : String) : Prop := s.toList.head? ≠ some 'r'

def Begins (s : String) : Prop := ∃ c, s.toList.head? = some c ∧ c ≠ 'r'

theorem Begins.append (h : Begins s) (t : String) : Begins (s ++ t) := by
  obtain ⟨c, hhead, hc⟩ := h
  refine ⟨c, ?_, hc⟩
  rw [toList_append, head?_append, hhead]
  rfl

theorem Begins.isOther (h : Begins s) : IsOther s := by
  obtain ⟨c, hhead, hc⟩ := h
  rw [IsOther, hhead]
  exact fun heq => hc (Option.some.inj heq)

namespace IsOther

variable {s t : String}

theorem empty : IsOther "" := nofun

theorem append (hs : IsOther s) (ht : IsOther t) : IsOther (s ++ t) := by
  rw [IsOther, toList_append, head?_append]
  cases hhead : s.toList.head? with
  | none => exact ht
  | some c =>
    rw [IsOther, hhead] at hs
    exact hs

theorem join {texts : List String} (h : ∀ t ∈ texts, IsOther t) : IsOther (String.join texts) := by
  induction texts with
  | nil => exact empty
  | cons first rest ih =>
    rw [join_cons]
    exact (h first mem_cons_self).append (ih fun t ht => h t (mem_cons_of_mem _ ht))

theorem omitted {p : Prop} [Decidable p] (h : ¬ p → IsOther s) : IsOther (if p then "" else s) := by
  split
  · exact empty
  · next hp => exact h hp

theorem not_loopMark (h : IsOther s) : ¬ "refInFor:true,".toList <+: s.toList := by
  rintro ⟨rest, heq⟩
  rw [IsOther, ← heq] at h
  exact h rfl

end IsOther

theorem begins_literal : Begins (Text.literal s) := by
  refine ⟨'"', ?_, by decide⟩
  unfold Text.literal Text.escapeSeparators Text.quoted Text.quotedChars
  rw [toList_ofList, toList_ofList]
  rfl

namespace DataObject

theorem begins_bindingKey (b : Binding) : Begins (bindingKey b) := by
  unfold bindingKey
  split
  · have hbracket : Begins "[" := ⟨'[', rfl, by decide⟩
    exact (hbracket.append _).append _
  · exact begins_literal

theorem begins_bindingEntries {bindings : List Binding} (h : bindings ≠ []) :
    Begins (bindingEntries bindings) := by
  have hentry (b : Binding) : Begins (bindingKey b ++ ":" ++ Text.escapeSeparators b.value) :=
    ((begins_bindingKey b).append _).append _
  unfold bindingEntries
  cases bindings with
  | nil => exact absurd rfl h
  | cons b rest =>
    cases rest with
    | nil => exact hentry b
    | cons next rest =>
      simp only [map_cons, String.intercalate_cons_cons]
      exact ((hentry b).append _).append _

theorem isOther_listeners (listeners : List Listener) :
    IsOther (ListenerCode.entries listeners) := by
  have hkey (key : ListenerKey) : Begins (ListenerCode.keyCode key) := by
    unfold ListenerCode.keyCode
    split
    · have hbracket : Begins "[_ek(" := ⟨'[', rfl, by decide⟩
      exact ((hbracket.append _).append _).append _
    · exact begins_literal
  refine .join fun entry hentry => ?_
  obtain ⟨listener, -, rfl⟩ := List.mem_map.mp hentry
  exact ((((hkey listener.key).append _).append _).append _).isOther

theorem isOther_trailingEntries (el : Element) : IsOther (trailingEntries el) := by
  have hslot : Begins "slot:" := ⟨'s', rfl, by decide⟩
  refine .append (.omitted fun _ => isOther_listeners _) ?_
  split
  · split
    · exact ((hslot.append _).append _).isOther
    · exact .empty
  · exact .empty

end DataObject

namespace Web

theorem isOther_classData : IsOther (classData el) := by
  have hkey : Begins (if el.tag.toList.contains '-' then "class" else "className") := by
    split <;> exact ⟨'c', rfl, by decide⟩
  unfold classData
  dsimp only
  split
  · exact (((((hkey.append _).append _).append _).append _).append _).isOther
  · exact (((hkey.append _).append _).append _).isOther
  · exact (((hkey.append _).append _).append _).isOther
  · exact .empty

theorem isOther_styleData : IsOther (styleData el) := by
  have hstyle (s : String) (hs : s.toList.head? = some 's') : Begins s := ⟨'s', hs, by decide⟩
  unfold styleData
  split
  · unfold mergedStyle
    dsimp only
    split
    · exact (((hstyle "style:(" rfl).append _).append _).isOther
    · exact (((((hstyle "style:_rs(" rfl).append _).append _).append _).append _).isOther
  · exact (((hstyle "style:(_rs(" rfl).append _).append _).isOther
  · exact (((hstyle "style:(" rfl).append _).append _).isOther
  · exact .empty

end Web

namespace DataObject

/-! ## The entry for a reference -/

/-- What comes after the reference in the entries of an element that come before those of the
modules. -/
theorem leadingEntries_ref (href : el.ref = some ref) :
    ∃ first last, leadingEntries el = first ++ "ref:" ++ ref ++ "," ++
        ((if el.refInLoop then "refInFor:true," else "") ++ last) ∧ IsOther last := by
  have hsplit (before ref mark pre attrs props : String) :
      before ++ ("ref:" ++ ref ++ "," ++ mark) ++ pre ++ attrs ++ props =
        before ++ "ref:" ++ ref ++ "," ++ (mark ++ (pre ++ attrs ++ props)) := by
    simp only [String.append_assoc]
  unfold leadingEntries refEntry
  rw [href]
  refine ⟨_, _, hsplit .., .append (.append ?_ ?_) ?_⟩
  · split
    · exact Begins.isOther ⟨'p', rfl, by decide⟩
    · exact .empty
  · have hattrs : Begins "attrs:" := ⟨'a', rfl, by decide⟩
    exact .omitted fun _ => ((hattrs.append _).append _).isOther
  · exact .omitted fun hprops =>
      ((begins_bindingEntries fun hnil => hprops (List.isEmpty_iff.mpr hnil)).append _).isOther

/-- The own entries of an element with a reference: what follows the reference begins with the mark
for a loop exactly if the reference is in one. -/
theorem ownEntries_ref {o : Options} (ho : o.WebModules) (href : el.ref = some ref) :
    ∃ first last, ownEntries o.modules el = .ok (first ++ "ref:" ++ ref ++ "," ++ last) ∧
      (el.refInLoop ↔ "refInFor:true,".toList <+: last.toList) := by
  obtain ⟨entries, hmodules, hentries⟩ := Gen.moduleEntries_web ho el .empty
    (fun _ _ => IsOther.append) Web.isOther_classData Web.isOther_styleData
  obtain ⟨first, last, hleading, hlast⟩ := leadingEntries_ref href
  refine ⟨first, (if el.refInLoop then "refInFor:true," else "") ++
    (last ++ entries ++ trailingEntries el), ?_, ?_⟩
  · unfold ownEntries
    rw [hentries el rfl rfl, hleading]
    simp only [String.append_assoc]
    rfl
  · cases el.refInLoop with
    | true =>
      rw [toList_append]
      exact iff_of_true rfl (prefix_append _ _)
    | false =>
      have hother := (hlast.append hmodules).append (isOther_trailingEntries el)
      exact iff_of_false Bool.false_ne_true (IsOther.empty.append hother).not_loopMark

end DataObject

theorem Element.callsWith_call {inLoop : Bool} {data : Code}
    (h : el.IsData ref inLoop data) (arguments : List Code) :
    el.CallsWith ref inLoop (("_c(" : Code) ++
      Code.join "," (.text callee :: [data] ++ arguments) ++ (")" : Code)).render := by
  cases arguments with
  | nil =>
    refine ⟨callee, data, ")", h, ?_⟩
    show "_c(" ++ (callee ++ "," ++ data.render) ++ ")" = _
    simp only [String.append_assoc]
  | cons next rest =>
    refine ⟨callee, data, "," ++ (Code.join "," (next :: rest)).render ++ ")", h, ?_⟩
    show "_c(" ++ (callee ++ "," ++
      (data.render ++ "," ++ (Code.join "," (next :: rest)).render)) ++ ")" = _
    simp only [String.append_assoc]

theorem callsWith_madeCode {o : Options} (ho : o.WebModules) {own : String}
    (hown : DataObject.ownEntries o.modules el = .ok own) (hdata : Gen.hasData el)
    (href : el.ref = some ref) (a : Ast) (entries codes : List Code) :
    el.CallsWith ref el.refInLoop (Gen.madeCode o.tags a el own entries codes).render := by
  obtain ⟨first, last, hown', hmark⟩ := DataObject.ownEntries_ref ho href
  cases hown.symm.trans hown'
  have hcall : Gen.isCalled el := (Bool.and_eq_true_iff.mp hdata).1
  rw [Gen.madeCode, if_pos hcall, if_pos hdata]
  exact Element.callsWith_call ⟨first, last, _, rfl, hmark⟩ _

end TemplateCompiler
