import TemplateCompiler.Proofs.Disciplines
import TemplateCompiler.Proofs.Slices

/-!
# Line separators in expressions

Not to have line separators is a discipline (`Discipline.unbroken`): a literal has none, whatever
the text it stands for. Modifiers and plain styles are written as JSON, which leaves the separators
of their texts as they are.

The functions that take expressions apart and put them together again only use the characters of
the expression and a few of their own. So what they make of an unbroken text is unbroken.
-/

namespace TemplateCompiler

open Text List

variable {s exp value : String} {before after cs rest path : List Char}

/-! ## JSON -/

theorem Text.Unbroken.quoted (h : Unbroken s) : Unbroken (Text.quoted s) := by
  have hescape (c : Char) (hc : isSeparator c = false) : ∀ d ∈ escape c, isSeparator d = false := by
    have hhex : ∀ n < 16, isSeparator (hexChar n) = false := by decide
    unfold escape
    iterate 7
      split
      · simp [isSeparator]
    split
    · have hhigh := hhex (c.toNat / 16) (by omega)
      have hlow := hhex (c.toNat % 16) (by omega)
      simp +decide [hhigh, hlow]
    · simpa using hc
  refine .ofList fun c hc => ?_
  rcases mem_append.mp hc with hc | hc
  · rcases mem_cons.mp hc with rfl | hc
    · rfl
    · obtain ⟨d, hd, hc⟩ := mem_flatMap.mp hc
      exact hescape d (unbroken_iff.mp h d hd) c hc
  · rw [mem_singleton.mp hc]
    rfl

theorem Json.unbroken_object {fields : List (String × Json)}
    (h : ∀ f ∈ fields, Unbroken f.1 ∧ Unbroken f.2.compact) :
    Unbroken (Json.object fields).compact := by
  have hfields : ∀ text ∈ compactFields fields, Unbroken text := by
    induction fields with
    | nil => exact nofun
    | cons field rest ih =>
      obtain ⟨⟨hkey, hval⟩, hrest⟩ := forall_mem_cons.mp h
      rw [compactFields, forall_mem_cons]
      exact ⟨.append (.append hkey.quoted rfl) hval, ih hrest⟩
  exact .append (.append rfl (.intercalate rfl hfields)) rfl

theorem Web.unbroken_styleObject {declarations : List (String × String)}
    (h : ∀ d ∈ declarations, Unbroken d.1 ∧ Unbroken d.2) :
    Unbroken (styleObject declarations) := by
  refine Json.unbroken_object fun field hfield => ?_
  obtain ⟨d, hd, rfl⟩ := List.mem_map.mp hfield
  refine ⟨(h d hd).1, ?_⟩
  exact (h d hd).2.quoted

theorem forall_mem_upsert {β : Type} {P : String × β → Prop} {entries : List (String × β)}
    {key : String} {value : β} (h : ∀ e ∈ entries, P e) (hnew : P (key, value)) :
    ∀ e ∈ upsert entries key value, P e := by
  induction entries with
  | nil => simpa [upsert] using hnew
  | cons e rest ih =>
    obtain ⟨hfirst, hrest⟩ := forall_mem_cons.mp h
    unfold upsert
    split
    · next hkey => exact forall_mem_cons.mpr ⟨hkey ▸ hnew, hrest⟩
    · exact forall_mem_cons.mpr ⟨hfirst, ih hrest⟩

theorem DataObject.unbroken_directiveModifiers {modifiers : List String}
    (h : ∀ m ∈ modifiers, Unbroken m) : Unbroken (directiveModifiers modifiers) := by
  unfold directiveModifiers
  split
  · exact .empty
  · refine .append rfl (Json.unbroken_object ?_)
    refine List.foldlRecOn (motive := fun fields : List (String × Json) =>
        ∀ f ∈ fields, Unbroken f.1 ∧ Unbroken f.2.compact)
      modifiers _ nofun fun fields hfields m hm => ?_
    have hflag : Unbroken (Json.bool true).compact := by decide
    exact forall_mem_upsert hfields ⟨h m hm, hflag⟩

/-! ## Parts of texts -/

namespace Text

variable {cs : List Char}

theorem trimmed_subset : trimmed cs ⊆ cs := by
  intro c hc
  have hend := mem_reverse.mp ((dropWhile_sublist _).subset (mem_reverse.mp hc))
  exact (dropWhile_sublist _).subset hend

theorem Unbroken.trim (h : Unbroken s) : Unbroken (Text.trim s) :=
  h.subset trimmed_subset

theorem inside_subset : Web.inside cs ⊆ cs :=
  fun _ hc => (tail_sublist _).subset (dropLast_subset _ hc)

theorem cut?_subset {mark : List Char} (h : cut? mark cs = some (before, after)) :
    before ⊆ cs ∧ after ⊆ cs := by
  rw [← append_eq_of_cut? h]
  simp

theorem cutLast?_subset {mark : Char}
    (h : cutLast? mark cs = some (before, after)) : before ⊆ cs ∧ after ⊆ cs := by
  rw [← append_eq_of_cutLast? h]
  simp

theorem splitAt_subset (mark : Char) (cs : List Char) :
    (splitAt mark cs).1 ⊆ cs ∧ ∀ piece ∈ (splitAt mark cs).2, piece ⊆ cs := by
  induction cs with
  | nil => exact ⟨List.Subset.refl _, nofun⟩
  | cons c cs ih =>
    obtain ⟨hfirst, hoth⟩ := ih
    have hlater (piece : List Char) (h : piece ⊆ cs) : piece ⊆ c :: cs :=
      fun x hx => mem_cons_of_mem _ (h hx)
    unfold splitAt
    split
    · refine ⟨nil_subset _, fun piece hpiece => ?_⟩
      rcases mem_cons.mp hpiece with rfl | hpiece
      · exact hlater _ hfirst
      · exact hlater piece (hoth piece hpiece)
    · exact ⟨cons_subset_cons _ hfirst, fun piece hpiece => hlater piece (hoth piece hpiece)⟩

end Text

/-! ## The discipline -/

theorem Web.unbroken_mergedStyle {plain bound : String} (hplain : Unbroken plain)
    (hbound : Unbroken bound) : Unbroken (mergedStyle plain bound) := by
  have hobj := hbound.subset (List.Subset.trans inside_subset trimmed_subset)
  unfold mergedStyle
  dsimp only
  split
  · exact .append (.append rfl (.braced (.append (.append (hplain.subset inside_subset) rfl)
      hobj))) rfl
  · exact .append (.append (.append (.append rfl hbound) rfl) hplain) rfl

theorem DataObject.unbroken_dropComma (h : Unbroken s) : Unbroken (dropComma s) := by
  unfold dropComma
  split
  · next rest hrest =>
    refine h.subset fun c hc => ?_
    rw [← mem_reverse, hrest]
    exact mem_cons_of_mem _ (mem_reverse.mp hc)
  · exact h

def Discipline.unbroken : Discipline where
  Leads _ text _ := Unbroken text
  tag := Unbroken
  modifier := Unbroken
  style := Unbroken
  fixed _ h := h
  append := .append
  inside h _ := h
  literal := .literal
  escaped _ := .escapeSeparators _
  dropComma := DataObject.unbroken_dropComma
  quotedTag h := .append (.append rfl h) rfl
  modifiers := DataObject.unbroken_directiveModifiers
  plainStyle h := h
  mergedStyle := Web.unbroken_mergedStyle

/-! ## Filter chains -/

namespace FilterChain

theorem split_subset (s : Scan) (cs : List Char) :
    (split s cs).1 ⊆ cs ∧ ∀ filter ∈ (split s cs).2, filter ⊆ cs := by
  induction cs generalizing s with
  | nil => exact ⟨List.Subset.refl _, nofun⟩
  | cons c cs ih =>
    obtain ⟨hfirst, hoth⟩ := ih (s.advance c)
    have hlater (part : List Char) (h : part ⊆ cs) : part ⊆ c :: cs :=
      fun x hx => mem_cons_of_mem _ (h hx)
    unfold split
    split
    · refine ⟨nil_subset _, fun filter hfilter => ?_⟩
      rcases mem_cons.mp hfilter with rfl | hfilter
      · exact hlater _ hfirst
      · exact hlater filter (hoth filter hfilter)
    · exact ⟨cons_subset_cons _ hfirst, fun filter hfilter => hlater filter (hoth filter hfilter)⟩

theorem unbroken_wrap {filter : String} (hexp : Unbroken exp) (hfilter : Unbroken filter) :
    Unbroken (wrap exp filter) := by
  unfold wrap
  split
  · exact .append (.append (.append (.append rfl hfilter) rfl) hexp) rfl
  · next name args hcut =>
    obtain ⟨hname, hargs⟩ := cut?_subset hcut
    have hcomma : Unbroken (if args = [')'] then "" else ",") := by split <;> rfl
    exact .append (.append (.append (.append (.append rfl (hfilter.subset hname)) rfl) hexp) hcomma)
      (hfilter.subset hargs)

theorem unbroken_foldl_wrap {filters : List String}
    (hfilters : ∀ filter ∈ filters, Unbroken filter) (hexp : Unbroken exp) :
    Unbroken (filters.foldl wrap exp) := by
  induction filters generalizing exp with
  | nil => exact hexp
  | cons filter rest ih =>
    exact ih (fun f hf => hfilters f (mem_cons_of_mem _ hf))
      (unbroken_wrap hexp (hfilters filter mem_cons_self))

theorem unbroken_parse (h : Unbroken exp) : Unbroken (parse exp) := by
  obtain ⟨hfirst, hfilters⟩ := split_subset {} exp.toList
  refine unbroken_foldl_wrap (fun filter hfilter => ?_)
    (h.subset (List.Subset.trans trimmed_subset hfirst))
  obtain ⟨part, hpart, rfl⟩ := List.mem_map.mp hfilter
  exact h.subset (List.Subset.trans trimmed_subset (hfilters part hpart))

end FilterChain

/-! ## Loop heads -/

namespace LoopHead

theorem gap?_subset (h : gap? cs = some rest) : rest ⊆ cs := by
  unfold gap? at h
  split at h
  · split at h
    · cases h
      exact fun c hc => mem_cons_of_mem _ ((dropWhile_sublist _).subset hc)
    · cases h
  · cases h

theorem word?_subset (h : word? cs = some rest) : rest ⊆ cs := by
  unfold word? at h
  split at h
  · cases h
    simp
  · cases h
    simp
  · cases h

theorem keyword?_subset (h : keyword? cs = some rest) : rest ⊆ cs := by
  obtain ⟨afterGap, hgap, h⟩ := Option.bind_eq_some_iff.mp h
  obtain ⟨afterWord, hword, h⟩ := Option.bind_eq_some_iff.mp h
  exact List.Subset.trans (gap?_subset h)
    (List.Subset.trans (word?_subset hword) (gap?_subset hgap))

theorem cutKeyword?_subset {binder source : List Char}
    (h : cutKeyword? cs = some (binder, source)) : binder ⊆ cs ∧ source ⊆ cs := by
  induction cs generalizing binder with
  | nil =>
    unfold cutKeyword? at h
    split at h
    · next hkeyword =>
      cases h
      exact ⟨nil_subset _, keyword?_subset hkeyword⟩
    · cases h
  | cons c cs ih =>
    unfold cutKeyword? at h
    split at h
    · next hkeyword =>
      cases h
      exact ⟨nil_subset _, keyword?_subset hkeyword⟩
    · obtain ⟨⟨front, rest⟩, hcut, heq⟩ := Option.map_eq_some_iff.mp h
      cases heq
      obtain ⟨hbinder, hsrc⟩ := ih hcut
      exact ⟨cons_subset_cons _ hbinder, fun x hx => mem_cons_of_mem _ (hsrc hx)⟩

theorem stripParens_subset : stripParens cs ⊆ cs := by
  have hfront : (if cs.head? = some '(' then cs.tail else cs) ⊆ cs := by
    split
    · exact (tail_sublist cs).subset
    · exact List.Subset.refl cs
  unfold stripParens
  generalize (if cs.head? = some '(' then cs.tail else cs) = inner at hfront ⊢
  dsimp only
  split
  · exact List.Subset.trans (dropLast_subset _) hfront
  · exact hfront

theorem unbroken_ofNames {source : String} {names : List Char} (hsrc : Unbroken source)
    (hnames : ∀ c ∈ names, isSeparator c = false) :
    ∀ text ∈ (ofNames source names).fragments, Unbroken text := by
  have hall : Unbroken (String.ofList names) := .ofList hnames
  have hname (part : List Char) (hpart : part ⊆ names) : Unbroken (name part) :=
    .ofList fun c hc => hnames c (hpart (trimmed_subset hc))
  unfold ofNames
  split
  · simp [fragments, hsrc, hall]
  · next front last hcut =>
    obtain ⟨hfront, hlast⟩ := cutLast?_subset hcut
    have htwo := hname front hfront
    have hiterator := hname last hlast
    split
    · simp [fragments, hsrc, hall]
    split
    · next first middle hcut' =>
      obtain ⟨hfirst, hmiddle⟩ := cutLast?_subset hcut'
      have hbinder := hname first (List.Subset.trans hfirst hfront)
      have hinner := hname middle (List.Subset.trans hmiddle hfront)
      split
      · simp [fragments, hsrc, hbinder, hinner, hiterator]
      · simp [fragments, hsrc, htwo, hiterator]
    · simp [fragments, hsrc, htwo, hiterator]

theorem unbroken_parse? {head : LoopHead} (hexp : Unbroken exp)
    (h : parse? exp = some head) : ∀ text ∈ head.fragments, Unbroken text := by
  unfold parse? at h
  split at h
  · next binder source hcut =>
    obtain ⟨hbinder, hsrc⟩ := cutKeyword?_subset hcut
    have hfront := (dropWhile_sublist (p := isGap) (l := exp.toList)).subset
    split at h
    · cases h
    · cases h
      refine unbroken_ofNames (hexp.subset ?_) fun c hc => ?_
      · exact List.Subset.trans trimmed_subset (List.Subset.trans hsrc hfront)
      · exact unbroken_iff.mp hexp c (hfront (hbinder (trimmed_subset (stripParens_subset hc))))
  · cases h

end LoopHead

/-! ## Model paths -/

namespace ModelPath

/-- What a scan over a path has gathered has no separator. -/
structure Scan.Unbroken (s : Scan) : Prop where
  current : ∀ c ∈ s.current, isSeparator c = false
  found : ∀ segment ∈ s.found, Text.Unbroken segment

theorem Scan.Unbroken.text {s : Scan} (h : s.Unbroken) : Text.Unbroken s.text :=
  .ofList fun c hc => h.current c (mem_reverse.mp hc)

theorem unbroken_quotedName {name : String} (h : Text.Unbroken name) :
    Text.Unbroken (quotedName name) := .append (.append rfl h) rfl

theorem Scan.Unbroken.step {s : Scan} (h : s.Unbroken) {c : Char} (hc : isSeparator c = false) :
    (s.step c).Unbroken := by
  have htext := h.text
  have hcons (c : Char) (hc : isSeparator c = false) :
      ∀ d ∈ c :: s.current, isSeparator d = false := by
    intro d hd
    rcases mem_cons.mp hd with rfl | hd
    · exact hc
    · exact h.current d hd
  have hadd (segment : String) (hseg : Text.Unbroken segment) :
      ∀ t ∈ segment :: s.found, Text.Unbroken t := by
    intro t ht
    rcases mem_cons.mp ht with rfl | ht
    · exact hseg
    · exact h.found t ht
  have hname := hadd _ (unbroken_quotedName htext)
  unfold Scan.step
  split
  · unfold Scan.dot
    split
    · exact ⟨hcons _ rfl, h.found⟩
    · refine ⟨by simp, ?_⟩
      split
      · exact h.found
      · exact hname
  split
  · unfold Scan.openBracket
    split
    · exact ⟨hcons _ rfl, h.found⟩
    · refine ⟨by simp, ?_⟩
      split
      · exact h.found
      split
      · exact hadd _ htext
      · exact hname
  split
  · unfold Scan.closeBracket
    split
    · exact ⟨hcons _ rfl, h.found⟩
    · exact ⟨by simp, hadd _ htext⟩
  · exact ⟨hcons c hc, h.found⟩

theorem Scan.Unbroken.foldl {s : Scan} (h : s.Unbroken)
    (hpath : ∀ c ∈ path, isSeparator c = false) : (path.foldl Scan.step s).Unbroken := by
  induction path generalizing s with
  | nil => exact h
  | cons c cs ih =>
    exact ih (h.step (hpath c mem_cons_self)) fun d hd => hpath d (mem_cons_of_mem _ hd)

theorem unbroken_segmentsOf (hpath : ∀ c ∈ path, isSeparator c = false) :
    ∀ segment ∈ segmentsOf path, Text.Unbroken segment := by
  have hscan : (path.foldl Scan.step {}).Unbroken := .foldl ⟨by simp, by simp⟩ hpath
  intro segment hseg
  unfold segmentsOf Scan.finish at hseg
  rw [mem_reverse] at hseg
  split at hseg
  · exact hscan.found segment hseg
  · rcases mem_cons.mp hseg with rfl | hseg
    · exact unbroken_quotedName hscan.text
    · exact hscan.found segment hseg

theorem unbroken_parse (h : Text.Unbroken value) : Text.Unbroken (parse value).exp ∧
      ∀ segment ∈ (parse value).segments, Text.Unbroken segment := by
  have hpath : ∀ c ∈ trimmed value.toList, isSeparator c = false :=
    fun c hc => unbroken_iff.mp h c (trimmed_subset hc)
  unfold parse
  dsimp only
  split
  · refine ⟨.ofList fun c hc => hpath c ?_, unbroken_segmentsOf hpath⟩
    cases htake : takeBytes? _ (trimmed value.toList) with
    | none =>
      rw [htake] at hc
      cases hc
    | some front =>
      obtain ⟨rest, heq, -⟩ := takeBytes?_eq_some_iff.mp htake
      rw [htake] at hc
      rw [heq]
      exact mem_append_left _ hc
  · have hall : Text.Unbroken (String.ofList (trimmed value.toList)) := .ofList hpath
    refine ⟨hall, fun segment hseg => ?_⟩
    rw [mem_singleton.mp hseg]
    exact hall

theorem unbroken_assignment {assigned : String} (h : Text.Unbroken value)
    (hassigned : Text.Unbroken assigned) : Text.Unbroken (assignment value assigned) := by
  obtain ⟨hexp, hsegs⟩ := unbroken_parse h
  unfold assignment
  dsimp only
  split
  · exact .append (.append h rfl) hassigned
  split
  · refine .append (.append (.append (.append rfl (.intercalate rfl fun segment hseg => ?_)) rfl)
      hassigned) rfl
    exact hsegs segment (mem_of_mem_tail hseg)
  · have hlast : Text.Unbroken ((parse value).segments.getLast?.getD "") := by
      cases hlast : (parse value).segments.getLast? with
      | none => exact .empty
      | some last => exact hsegs last (mem_of_getLast? hlast)
    exact .append (.append (.append (.append (.append (.append rfl hexp) rfl) hlast) rfl) hassigned)
      rfl

end ModelPath

/-! ## Code made of code -/

/-- A property of code that is kept in all the ways in which code is put together from
attributes. -/
structure StableCode (good : String → Prop) : Prop where
  fixed {text : String} : Unbroken text → good text
  append {text text' : String} : good text → good text' → good (text ++ text')
  parse {exp : String} : good exp → good (FilterChain.parse exp)
  assignment {path assigned : String} : good path → good assigned →
    good (ModelPath.assignment path assigned)

namespace StableCode

variable {good : String → Prop} {before code after : String}

theorem wrap (h : StableCode good) (hbef : Unbroken before) (hcode : good code)
    (hafter : Unbroken after) : good (before ++ code ++ after) :=
  h.append (h.append (h.fixed hbef) hcode) (h.fixed hafter)

theorem braced (h : StableCode good) (hcode : good code) : good (braced code) :=
  h.wrap (by decide) hcode (by decide)

end StableCode

theorem StableCode.trivial : StableCode fun _ => True := by
  constructor <;> intros <;> exact True.intro

theorem stableCode_unbroken : StableCode Unbroken where
  fixed h := h
  append := .append
  parse := FilterChain.unbroken_parse
  assignment := ModelPath.unbroken_assignment

end TemplateCompiler
