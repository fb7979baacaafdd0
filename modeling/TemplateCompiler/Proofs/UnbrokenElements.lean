import TemplateCompiler.Proofs.Tending
import TemplateCompiler.Proofs.Totality

/-!
# Line separators while an element is processed

A separator may stand in the value of a plain attribute, and such a value is only stored as a
literal, or as a plain style. So if the names of all attributes and the values of those that are
code have no separator, and neither have the declarations in a plain style (`Admits`), then no piece
of text has one that the element stores after it has been processed (`process_clean`). `Clean` is
what each step keeps: taking structural directives, expanding the element, and every edit.
-/

namespace TemplateCompiler

open Text List Element

variable {dynamic : Bool} {o : Options} {el : Element}

namespace Element

/-! ## What is written and what is stored -/

/-- An attribute may be written on a tag if its separators are in no piece of code and in no
style. -/
structure Admits (s : Settings) (tag name value : String) : Prop where
  unbroken : Text.Unbroken name
  code : isCode s tag name → Text.Unbroken value
  style : name = "style" → ∀ d ∈ Web.parseStyle value, Text.Unbroken d.1 ∧ Text.Unbroken d.2

/-- Neither what an element stores nor the code still to be taken from its attributes has a
separator. -/
structure Clean (s : Settings) (el : Element) : Prop extends Obeys .unbroken el where
  elseIf : ∀ text ∈ el.elseIf, Text.Unbroken text
  pending : ∀ attr ∈ el.pending, Admits s el.tag attr.name attr.value
  source : ∀ name value, el.attr? name = some value → Admits s el.tag name value

variable {s : Settings} {el : Element} {name value : String}

theorem clean_ofTag {tag : String} {attrs : List Attr} (htag : Text.Unbroken tag)
    (hattrs : ∀ attr ∈ attrs, Admits s tag attr.name attr.value) : (ofTag tag attrs).Clean s := by
  have hstored : (ofTag tag attrs).Obeys .unbroken := by
    constructor
    case tag => exact htag
    all_goals simp [ofTag]
  refine { hstored with
    elseIf := fun _ h => by cases h
    pending := hattrs
    source := fun name value hval => ?_ }
  rw [attr?_ofTag] at hval
  obtain ⟨attr, hattr, rfl⟩ := Option.map_eq_some_iff.mp hval
  have hname : attr.name = name := by simpa using find?_some hattr
  rw [← hname]
  exact hattrs attr (mem_reverse.mp (mem_of_find?_eq_some hattr))

/-! ## Edits -/

theorem unbroken_binding (hval : Text.Unbroken value)
    (hname : dynamic → Text.Unbroken name) :
    ∀ text ∈ (⟨name, value, dynamic⟩ : Binding).fragments, Text.Unbroken text := by
  intro text htext
  rcases mem_cons.mp htext with rfl | htext
  · exact hval
  · split at htext
    · next hdyn =>
      rw [mem_singleton.mp htext]
      exact hname hdyn
    · cases htext

theorem unbroken_renameClick {instead : String} (hinstead : Text.Unbroken instead)
    (hname : dynamic → Text.Unbroken name) (hdyn : dynamic) :
    Text.Unbroken (ListenerKey.renameClick name instead dynamic) := by
  have hname := hname hdyn
  unfold ListenerKey.renameClick
  rw [if_pos hdyn]
  simp +decide [unbroken_append_iff, hname, hinstead]

theorem unbroken_ofDeclared (modifiers : Option (List String))
    (hname : dynamic → Text.Unbroken name)
    (hdyn : (ListenerKey.ofDeclared name modifiers dynamic).1.dynamic) :
    Text.Unbroken (ListenerKey.ofDeclared name modifiers dynamic).1.name := by
  unfold ListenerKey.ofDeclared at hdyn ⊢
  split
  · exact hname hdyn
  · dsimp only
    split
    · exact unbroken_renameClick (by decide) hname hdyn
    · split
      · exact unbroken_renameClick (by decide) hname hdyn
      · exact hname hdyn

theorem unbroken_addHandler {key : ListenerKey} {handler : Handler} {important : Bool}
    {listeners : List Listener} (hkey : key.dynamic → Text.Unbroken key.name)
    (hhandler : Text.Unbroken handler.value)
    (h : ∀ l ∈ listeners, ∀ text ∈ l.fragments, Text.Unbroken text) :
    ∀ l ∈ TemplateCompiler.addHandler key handler important listeners, ∀ text ∈ l.fragments,
      Text.Unbroken text := by
  induction listeners with
  | nil =>
    intro l hl text htext
    rw [mem_singleton.mp hl] at htext
    rcases mem_append.mp htext with htext | htext
    · split at htext
      · next hdyn =>
        rw [mem_singleton.mp htext]
        exact hkey hdyn
      · cases htext
    · rw [mem_singleton.mp htext]
      exact hhandler
  | cons first rest ih =>
    have hfirst := h first mem_cons_self
    have hrest := ih fun l hl => h l (mem_cons_of_mem _ hl)
    unfold TemplateCompiler.addHandler
    split
    · intro l hl text htext
      rcases mem_cons.mp hl with rfl | hl
      · have hcases : text = handler.value ∨ text ∈ first.fragments := by
          unfold Listener.fragments at htext ⊢
          cases important <;> grind
        rcases hcases with rfl | hold
        · exact hhandler
        · exact hfirst text hold
      · exact h l (mem_cons_of_mem _ hl) text htext
    · exact forall_mem_cons.mpr ⟨hfirst, hrest⟩

theorem obeys_of_unbroken {d : Directive}
    (h : ∀ text ∈ d.fragments ++ d.modifiers, Text.Unbroken text) : d.Obeys .unbroken where
  fragments text htext := h text (mem_append_left _ htext)
  modifiers name hname := h name (mem_append_right _ hname)

namespace Clean

theorem addAttr (h : el.Clean s) (hval : Text.Unbroken value)
    (hname : dynamic → Text.Unbroken name) : (el.addAttr name value dynamic).Clean s := by
  refine { h with attrs := forall_mem_append.mpr ⟨h.attrs, fun b hb => ?_⟩ }
  rw [mem_singleton.mp hb]
  exact unbroken_binding hval hname

theorem edit {above : List Element} {f : Element → Element} (h : el.Clean s)
    (hedit : Edit above Text.Unbroken el f) : (f el).Clean s := by
  have hsome {code : String} (hcode : Text.Unbroken code) :
      ∀ text ∈ some code, Text.Unbroken text := fun text htext => Option.some.inj htext ▸ hcode
  cases hedit with
  | inline | bound | processed => exact { h with }
  | key hcode => exact { h with key := hsome hcode }
  | ref hcode => exact { h with ref := hsome hcode }
  | slotName hname => exact { h with slotName := hname }
  | slotScope hscope => exact { h with slotScope := hscope }
  | target hcode => exact { h with slotTarget := hsome hcode }
  | targetAttr hcode =>
    have hattr : (el.addAttr "slot" _).Clean s := h.addAttr hcode nofun
    exact { hattr with slotTarget := hsome hcode }
  | component hcode => exact { h with component := hsome hcode }
  | staticClass text => exact { h with staticClass := hsome (.literal _) }
  | classBinding hcode => exact { h with classBinding := hsome hcode }
  | staticStyle hstyle =>
    exact { h with
      staticStyle := hsome (Web.unbroken_styleObject ((h.source _ _ hstyle).style rfl)) }
  | styleBinding hcode => exact { h with styleBinding := hsome hcode }
  | plainAttr => exact h.addAttr (.literal _) nofun
  | attr _ hval hname => exact h.addAttr hval hname
  | prop hval hname =>
    refine { h with props := forall_mem_append.mpr ⟨h.props, fun b hb => ?_⟩ }
    rw [mem_singleton.mp hb]
    exact unbroken_binding hval hname
  | handler hval hname =>
    exact { h with
      listeners := unbroken_addHandler (unbroken_ofDeclared _ hname) hval.trim h.listeners }
  | directive hd =>
    refine { h with directives := forall_mem_append.mpr ⟨h.directives, fun d hd' => ?_⟩ }
    rw [mem_singleton.mp hd']
    exact obeys_of_unbroken hd
  | directives hd => exact { h with directives := fun d hd' => obeys_of_unbroken (hd d hd') }
  | boundListeners hcode => exact { h with boundListeners := hcode }
  | boundObject hobj => exact { h with boundObject := hobj }

theorem take (h : el.Clean s) (name : String) : (el.take name).2.Clean s := by
  obtain ⟨pending, hwo, heq⟩ := el.take_cases name
  rw [heq]
  exact { h with pending := fun attr hattr => h.pending attr (hwo.sublist.subset hattr) }

theorem invariant (s : Settings) (above : List Element) :
    Invariant s above Text.Unbroken (Clean s) where
  code := stableCode_unbroken
  written {el attr} h hattr hname := by
    have hadmits := h.pending attr hattr
    refine ⟨hadmits.code ?_, fun part hpart => hadmits.unbroken.subset hpart⟩
    simp [isCode, hname]
  edit h hedit := h.edit hedit
  value h hval hcode := (h.source _ _ hval).code hcode
  stored h d hd text htext := by
    rcases mem_append.mp htext with htext | htext
    · exact (h.directives d hd).fragments text htext
    · exact (h.directives d hd).modifiers text htext
  take h _ := h.take _

end Clean

/-- If no attribute brings a separator into a piece of code or a style, then processing an element
gives an element that stores none. -/
theorem process_clean (ho : o.UsesWeb) (above : List Element)
    (h : el.Clean o.toSettings) : (el.process o above).Ensures (Clean o.toSettings) :=
  (Clean.invariant o.toSettings above).process ho h fun _ h => { h with }

/-! ## Structural directives -/

namespace Clean

section

variable (h : el.Clean s)

include h

theorem takeValued (name : String) : (el.takeValued s name).value.2.Clean s ∧
      ∀ exp ∈ (el.takeValued s name).value.1, Text.Unbroken exp := by
  have htake := h.take (s.directive name)
  have hval := (Clean.invariant s []).good_take h (isCode_directive el.tag name)
  unfold Element.takeValued
  split
  · next value el' heq =>
    rw [heq] at htake hval
    split
    · exact ⟨htake, nofun⟩
    · exact ⟨htake, hval⟩
  · next heq =>
    rw [heq] at htake
    exact ⟨htake, nofun⟩

theorem takeLoop : (el.takeLoop s).value.Clean s := by
  obtain ⟨htaken, hexp⟩ := h.takeValued "for"
  unfold Element.takeLoop
  rw [Noted.value_bind]
  generalize (el.takeValued s "for").value = taken at htaken hexp ⊢
  obtain ⟨exp, el'⟩ := taken
  cases exp with
  | none => exact htaken
  | some exp =>
    dsimp only
    split
    · next loop hloop =>
      refine { htaken with loop := fun head hhead => ?_ }
      cases hhead
      exact LoopHead.unbroken_parse? (hexp exp rfl) hloop
    · exact htaken

theorem takeCondition (id : NodeId) : (el.takeCondition s id).value.Clean s := by
  obtain ⟨htaken, hexp⟩ := h.takeValued "if"
  unfold Element.takeCondition
  rw [Noted.value_bind]
  generalize (el.takeValued s "if").value = taken at htaken hexp ⊢
  obtain ⟨exp, el'⟩ := taken
  cases exp with
  | some exp =>
    refine { htaken with
      ifExp := hexp, conditions := forall_mem_append.mpr ⟨htaken.conditions, fun c hc => ?_⟩ }
    rw [mem_singleton.mp hc]
    exact hexp
  | none =>
    have hflag := htaken.take (s.directive "else")
    unfold takeFlag
    dsimp only
    generalize el'.take (s.directive "else") = flag at hflag ⊢
    have helse : Clean s (if flag.1.isSome then { flag.2 with isElse := true } else flag.2) := by
      split
      · exact { hflag with }
      · exact hflag
    generalize (if flag.1.isSome then { flag.2 with isElse := true } else flag.2) = el'' at helse ⊢
    obtain ⟨htaken', hexp'⟩ := helse.takeValued "else-if"
    rw [Noted.value_bind]
    generalize (el''.takeValued s "else-if").value = taken at htaken' hexp' ⊢
    obtain ⟨exp, el'⟩ := taken
    cases exp with
    | none => exact htaken'
    | some exp => exact { htaken' with elseIf := hexp' }

theorem takeOnce : (el.takeOnce s).Clean s := by
  have htake := h.take (s.directive "once")
  unfold Element.takeOnce takeFlag
  dsimp only
  split
  · exact { htake with }
  · exact htake

theorem takePre : (el.takePre s).Clean s := by
  have htake := h.take (s.directive "pre")
  unfold Element.takePre takeFlag
  dsimp only
  split
  · exact { htake with }
  · exact htake

theorem takeLoopIf (keep : Bool) : (el.takeLoopIf s keep).value.Clean s := by
  unfold Element.takeLoopIf
  split
  · exact h.takeLoop
  · have htake := h.take (s.directive "for")
    refine { htake with source := fun name value hval => htake.source name value ?_ }
    have hval : ((el.take (s.directive "for")).2.source.erase (s.directive "for")).get? name =
      some value := hval
    rw [Dict.get?_erase] at hval
    split at hval
    · cases hval
    · exact hval

theorem keepAttributes : el.keepAttributes.Clean s := by
  unfold Element.keepAttributes
  split
  · split
    · exact h
    · exact { h with }
  · refine { h with attrs := fun b hb text htext => ?_ }
    obtain ⟨attr, -, rfl⟩ := List.mem_map.mp hb
    rw [mem_singleton.mp htext]
    exact .literal _

theorem linkChain {link : ChainLink}
    (hlink : ∀ exp, link = .elseIf exp → Text.Unbroken exp) : (el.linkChain link).Clean s := by
  cases link with
  | none => exact h
  | elseIf exp =>
    refine { h with elseIf := fun text htext => ?_ }
    cases htext
    exact hlink exp rfl
  | otherwise => exact { h with }

end

end Clean

end Element

/-! ## Expansions -/

/-- The branches of an expansion bring no separator into a piece of code. -/
structure Expansion.Admitted (s : Settings) (tag : String) (e : Expansion) : Prop where
  first : ∃ branch rest, e.branches = branch :: rest
  attrs : ∀ branch ∈ e.branches, ∀ attr ∈ branch.attrs, Admits s tag attr.name attr.value
  condition : ∀ branch ∈ e.branches, ∀ text ∈ branch.condition, Unbroken text
  link : ∀ exp, e.link = .elseIf exp → Unbroken exp

namespace Web

variable {s : Settings} {el : Element}

theorem unbroken_computedType? (h : el.Clean s) {type : String}
    (htype : computedType? s.directivePrefix el = some type) : Unbroken type := by
  have hcode (name value : String) (hval : el.attr? name = some value)
      (hname : isCode s el.tag name) : Unbroken value :=
    (h.source name value hval).code hname
  unfold computedType? at htype
  split at htype
  · next value hval =>
    cases htype
    apply FilterChain.unbroken_parse
    rcases Option.or_eq_some_iff.mp hval with hval | ⟨-, hval⟩
    · exact hcode _ value hval (isCode_bound el.tag "type")
    · exact hcode _ value hval (isCode_directive el.tag "bind:type")
  · split at htype
    · cases htype
    · obtain ⟨object, hobj, rfl⟩ := Option.map_eq_some_iff.mp htype
      exact .append (.append rfl (hcode _ object hobj (isCode_directive el.tag "bind")))
        rfl

theorem expandInputType?_admitted (h : el.Clean s) {e : Expansion}
    (he : expandInputType? s.directivePrefix el = some e) : e.Admitted s el.tag := by
  unfold expandInputType? at he
  split at he
  · cases he
  obtain ⟨type, htype, rfl⟩ := Option.map_eq_some_iff.mp he
  have htype := unbroken_computedType? h htype
  have hcond : ∀ text ∈ el.attr? (s.directivePrefix ++ "if"), Unbroken text :=
    fun text htext => (h.source _ text htext).code (isCode_directive el.tag "if")
  have hguarded (name : String) (hname : Unbroken name) :
      Unbroken ("(" ++ type ++ ")==='" ++ name ++ "'" ++
        (el.attr? (s.directivePrefix ++ "if")).elim "" fun c => "&&(" ++ c ++ ")") := by
    refine .append (.append (.append (.append (.append rfl htype) rfl) hname) rfl) ?_
    cases hc : el.attr? (s.directivePrefix ++ "if") with
    | none => exact .empty
    | some c => exact .append (.append rfl (hcond c hc)) rfl
  have hkept (extra : Attr) (hextra : Admits s el.tag extra.name extra.value) :
      ∀ attr ∈ (el.pending.filter fun a => !([":type", s.directivePrefix ++ "bind:type",
        s.directivePrefix ++ "if", s.directivePrefix ++ "else",
        s.directivePrefix ++ "else-if"].contains a.name)) ++ [extra],
        Admits s el.tag attr.name attr.value := by
    intro attr hattr
    rcases mem_append.mp hattr with hattr | hattr
    · exact h.pending attr (mem_filter.mp hattr).1
    · rw [mem_singleton.mp hattr]
      exact hextra
  have htyped (name value : String) (hname : Unbroken name) (hval : Unbroken value)
      (hstyle : name ≠ "style") : Admits s el.tag name value :=
    ⟨hname, fun _ => hval, fun h => absurd h hstyle⟩
  constructor
  · exact ⟨_, _, rfl⟩
  · simp only [typeBranches, forall_mem_cons]
    exact ⟨hkept _ (htyped "type" "checkbox" rfl rfl (by decide)),
      hkept _ (htyped "type" "radio" rfl rfl (by decide)),
      hkept _ (htyped ":type" type rfl htype (by decide)), by simp⟩
  · simp only [typeBranches, forall_mem_cons]
    refine ⟨fun text htext => ?_, fun text htext => ?_, hcond, by simp⟩
    · cases htext
      exact hguarded _ (by decide)
    · cases htext
      exact hguarded _ (by decide)
  · intro exp hexp
    unfold chainLink at hexp
    split at hexp
    · cases hexp
    · split at hexp
      · next value hval =>
        cases hexp
        exact (h.source _ _ hval).code (isCode_directive el.tag "else-if")
      · cases hexp

end Web

theorem branchElement_clean (ho : o.UsesWeb) (above : List Element)
    (htag : Unbroken el.tag) (first : Bool) {branch : Branch}
    (hattrs : ∀ attr ∈ branch.attrs, Admits o.toSettings el.tag attr.name attr.value) :
    (branchElement o above el first branch).Ensures (Clean o.toSettings) := by
  have hclean : Clean o.toSettings
      { ofTag el.tag branch.attrs with ns := el.ns, span := el.span } :=
    { clean_ofTag htag hattrs with }
  exact .bindLift (process_clean ho above (hclean.takeLoopIf first).takeOnce)

theorem Builder.expanded_clean (ho : o.UsesWeb) (b : Builder)
    (id : NodeId) (h : el.Clean o.toSettings) :
    (b.expanded o id el).Ensures fun r => r.2.Clean o.toSettings ∧
      ∃ others, r.1.ast = b.ast.pushElements b.parent? others ∧
        ∀ other ∈ others, other.Clean o.toSettings := by
  refine .bind (expansion?_eq o.toSettings el ho.modules) fun r hr => ?_
  cases r with
  | none => exact .pure ⟨h, [], rfl, by simp⟩
  | some e =>
    have he := Web.expandInputType?_admitted h ((hr e).mp rfl).2
    obtain ⟨branch, rest, hbrs⟩ := he.first
    have hattrs := he.attrs
    have hconds := he.condition
    rw [hbrs, forall_mem_cons] at hattrs hconds
    show (b.expand o id el e).Ensures _
    unfold expand
    rw [hbrs]
    refine .bind (branchElement_clean ho _ h.tag true hattrs.1) fun head hhead => ?_
    refine .bind (otherBranches_each fun branch' hmem =>
      branchElement_clean ho _ h.tag false (hattrs.2 branch' hmem)) fun others hoth => .pure ?_
    have hlater (ids : List NodeId) : ∀ c ∈ (rest.zip ids).map fun p =>
        (⟨p.1.condition, p.2⟩ : Condition), ∀ text ∈ c.exp, Unbroken text := by
      intro c hc
      obtain ⟨p, hp, rfl⟩ := List.mem_map.mp hc
      exact hconds.2 p.1 (of_mem_zip hp).1
    refine ⟨Clean.linkChain ?_ he.link, others, rfl, hoth.2⟩
    exact { hhead with
      ifExp := hconds.1
      conditions := forall_mem_append.mpr ⟨hhead.conditions,
        forall_mem_cons.mpr ⟨hconds.1, hlater _⟩⟩ }

/-! ## Templates with line separators

In most positions of a template a line separator is part of a literal: in texts outside of
interpolations, in comments, and in the values of attributes that are neither directives nor
bindings. `isLiteral` checks that a signal has its separators only there. Then no body of the code
of the template has one (`compile_separators`), with a single exception: the plain style of an
element is written as it stands, and brings its separators into the data object of the element.
-/

open Markup

/-- What may be kept of a text, with its references decoded and its blanks collapsed or not. -/
def readings (s : Settings) (content : String) : List String :=
  let texts := [content, decodeReferences content]
  if s.whitespace = .condense then
    texts ++ texts.map fun text => String.ofList (collapseBlanks false text.toList)
  else texts

def Interpolation.areUnbroken (s : Settings) (text : String) : Bool :=
  ((parse? s.delimiters text).getD []).all fun token => !token.fragments.any broken

def Markup.Signal.isLiteral (s : Settings) : Signal → Bool
  | .event (.opened tag attrs _ _) =>
    !broken tag && attrs.all fun attr =>
      !broken attr.name && !(Element.isCode s tag attr.name && broken attr.value)
  | .event (.text content _) => (readings s content).all (Interpolation.areUnbroken s)
  | _ => true

def Markup.Signal.hasPlainStyles : Signal → Bool
  | .event (.opened _ attrs _ _) =>
    attrs.all fun attr => attr.name ≠ "style" ||
      (Web.parseStyle attr.value).all fun d => !broken d.1 && !broken d.2
  | _ => true

theorem Interpolation.areUnbroken_iff {s : Settings} {text : String} :
    areUnbroken s text ↔ ∀ token ∈ (parse? s.delimiters text).getD [],
      ∀ code ∈ token.fragments, Unbroken code := by
  simp [areUnbroken, Text.Unbroken]

/-- If the separators of a start tag are in literal positions other than styles, then its attributes
may all be written on it. -/
theorem admits_of_isLiteral {s : Settings} {tag : String} {attrs : List Attr} {unary : Bool}
    {span : Span} (h : Signal.isLiteral s (.event (.opened tag attrs unary span)))
    (hstyles : Signal.hasPlainStyles (.event (.opened tag attrs unary span))) :
    Unbroken tag ∧ ∀ attr ∈ attrs, Element.Admits s tag attr.name attr.value := by
  simp only [Signal.isLiteral, Signal.hasPlainStyles, Bool.and_eq_true, Bool.not_eq_true',
    all_eq_true, Bool.and_eq_false_imp, Bool.or_eq_true, decide_eq_true_eq] at h hstyles
  refine ⟨h.1, fun attr hattr => ⟨(h.2 attr hattr).1, (h.2 attr hattr).2, fun hname => ?_⟩⟩
  exact (hstyles attr hattr).resolve_left (not_not_intro hname)

namespace Builder

/-- The text that is kept is one of the readings of the run of characters, or at most a space. -/
theorem keptText_cases (s : Settings) (b : Builder) (parent : Element) (content : String) :
    b.keptText s parent content = "" ∨ b.keptText s parent content = " " ∨
      b.keptText s parent content ∈ readings s content := by
  -- A text that is collapsed is a reading, and a space collapses to itself.
  have hcollapsed {text : String}
      (h : text = "" ∨ text = " " ∨ text ∈ [content, decodeReferences content]) :
      let kept := if !b.keepsSpace && s.whitespace = .condense then
        String.ofList (collapseBlanks false text.toList) else text
      kept = "" ∨ kept = " " ∨ kept ∈ readings s content := by
    by_cases hcondense : s.whitespace = .condense
    · split
      · rcases h with rfl | rfl | h
        · exact .inl rfl
        · exact .inr (.inl rfl)
        · refine .inr (.inr ?_)
          unfold readings
          rw [if_pos hcondense]
          exact mem_append_right _ (mem_map_of_mem h)
      · refine h.imp id (Or.imp id fun h => ?_)
        unfold readings
        rw [if_pos hcondense]
        exact mem_append_left _ h
    · have hnot : ¬ (!b.keepsSpace && decide (s.whitespace = .condense)) := by
        simp [hcondense]
      rw [if_neg hnot]
      refine h.imp id (Or.imp id fun h => ?_)
      unfold readings
      rwa [if_neg hcondense]
  refine hcollapsed ?_
  split
  · refine .inr (.inr ?_)
    split <;> simp
  · split
    · exact .inl rfl
    · split
      · exact .inl rfl
      · exact .inr (.inl rfl)

end Builder

/-! ## Trees -/

/-- The pieces of code that a node stores have no separator. -/
def NodeKind.Clean (s : Settings) : NodeKind → Prop
  | .element el => el.Clean s
  | .text _ tokens _ => ∀ token ∈ tokens.getD [], ∀ code ∈ token.fragments, Unbroken code
  | .comment _ _ => True

theorem clean_tends {o : Options} (ho : o.UsesWeb) :
    Tends o (fun signal => signal.isLiteral o.toSettings ∧ signal.hasPlainStyles)
      (fun _ => NodeKind.Clean o.toSettings) (fun _ => Element.Clean o.toSettings)
      fun _ => True where
  opened {tag attrs _ span _} b b' id h _ := by
    obtain ⟨htag, hattrs⟩ := admits_of_isLiteral h.1 h.2
    have hnew : (b.newElement o.toSettings tag attrs span).Clean o.toSettings :=
      { Element.clean_ofTag htag hattrs with }
    exact Builder.expanded_clean ho b' id hnew
  pre _ h := h.takePre
  asWritten _ h := ⟨h.keepAttributes, trivial⟩
  structured id _ h _ heq := by
    refine ⟨?_, trivial⟩
    rw [← heq]
    exact ((Element.Clean.takeLoop h).takeCondition id).takeOnce
  expanded _ h _ := ⟨h, trivial⟩
  process above _ _ h _ := Element.process_clean ho above h
  children _ (h : Element.Clean ..) := { h with }
  branch _ (h : Element.Clean ..) _ (hother : Element.Clean ..) := { h with
    conditions := forall_mem_append.mpr ⟨h.conditions, forall_mem_singleton.mpr hother.elseIf⟩ }
  slot id h _ hother := by
    -- The key of a scoped slot is the target of the element in it.
    refine { h with slotKeys := forall_mem_append.mpr ⟨fun slot hslot => ?_, ?_⟩ }
    · exact Element.Obeys.slotKeys h.toObeys slot (mem_filter.mp hslot).1
    · intro slot hslot
      rw [mem_singleton.mp hslot]
      exact .getD (.fixed rfl rfl) (Element.Obeys.slotTarget hother.toObeys)
  unlinked _ _ := trivial
  text b parent h _ hne := by
    intro token htoken
    split at htoken
    · cases htoken
    · next hnot =>
      rw [Bool.or_eq_true, not_or, decide_eq_true_eq] at hnot
      have hreading := ((b.keptText_cases _ parent _).resolve_left hne).resolve_left hnot.2
      exact Interpolation.areUnbroken_iff.mp (all_eq_true.mp h.1 _ hreading) token htoken
  comment _ := trivial

theorem Ast.Each.obeys {s : Settings} {a a' : Ast} (h : a.Each s fun _ => NodeKind.Clean s)
    (hsame : a'.unmarked = a.unmarked) : a'.Obeys .unbroken where
  elements x el hel := by
    obtain ⟨el₀, hel₀, heq⟩ := element?_of_unmarked hsame hel
    have hclean : el₀.Clean s := h.element hel₀
    rw [heq]
    exact { hclean with }
  texts x content tokens isStatic hkind := by
    obtain ⟨isStatic₀, hkind₀⟩ := text_of_unmarked hsame hkind
    exact h x _ hkind₀

/-! ## Whole templates -/

/-- **Line separators in code.** If a template has its separators in literal positions only, and
none in the declarations of a plain style, then the bodies of its code have none. -/
theorem compile_separators (o : Options) (ho : o.UsesWeb) (template : String)
    (hliteral : ∀ signal ∈ read o.tags o.comments (trim template),
      signal.isLiteral o.toSettings = true)
    (hstyles : ∀ signal ∈ read o.tags o.comments (trim template), signal.hasPlainStyles = true) :
    ∃ out, compile o template = .ok out ∧
      ∀ body ∈ out.mainBody :: out.staticBodies, broken body = false := by
  obtain ⟨tree, htree, hclean⟩ := parse_each (clean_tends ho) ho (trim template)
    fun signal hmem => ⟨hliteral signal hmem, hstyles signal hmem⟩
  obtain ⟨-, bodies, hbodies, hmain, hhoisted⟩ :=
    (hclean.obeys (Ast.unmarked_optimize o tree)).generate ho.modules (p := fun _ => false) rfl rfl
  have hcompiled : (compileTree o (trim template)).result = .ok bodies := by
    rw [compileTree, Outcome.result_bind, optimizedTree, Outcome.result_map, htree]
    exact hbodies
  refine ⟨_, compile_of_result hcompiled, forall_mem_cons.mpr ⟨hmain, ?_⟩⟩
  exact forall_mem_map.mpr hhoisted

/-- The separators of a title and of a text are escaped. The one of a style is not. -/
theorem compile_separators_title :
    (∃ out, compile Web.options "<p title='a\u2028'>d\u2029</p>" = .ok out ∧
      ∀ body ∈ out.mainBody :: out.staticBodies, broken body = false) ∧
    (compile Web.options "<p style='top: b\u2028c'></p>").toOption.any
      (broken ·.mainBody) = true := by
  have hread : ∀ signal ∈ read Web.options.tags Web.options.comments
      (trim "<p title='a\u2028'>d\u2029</p>"),
      signal.isLiteral Web.options.toSettings = true ∧ signal.hasPlainStyles = true := by
    decide +kernel
  refine ⟨compile_separators Web.options Web.usesWeb_options _ (fun signal h => (hread signal h).1)
    fun signal h => (hread signal h).2, ?_⟩
  decide +kernel

end TemplateCompiler
