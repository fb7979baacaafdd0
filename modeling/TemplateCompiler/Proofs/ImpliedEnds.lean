import Mathlib.Data.List.Chain
import TemplateCompiler.Proofs.Segments
import TemplateCompiler.Web.Tags

/-!
# What implied end tags achieve

In HTML a paragraph ends where a tag begins that cannot stand in one, and a tag whose end may be
left out ends where the next one of its name begins. The scanner closes at most two open tags for
this before it opens one. That is enough: wherever a tag is opened, the innermost open tag is
neither a paragraph that should have ended nor a tag of the same name that should have
(`read_admits`).

The reason is that open tags never stand directly inside one another in such a way (`Apart`). So
once the innermost ones are closed, the tag that comes to light is not another one to close. Closing
tags only shortens the stack, and a tag is put on top of it only where it is admitted.
-/

namespace TemplateCompiler.Markup

open Text List Option

variable {tag name : String} {span closing : Span} {t : TagTable} {stack inner : List OpenTag}
  {s : Scanner} {tags : List String} {missing unary : Bool}

/-- Whether a tag may be opened directly inside another one, both by their names in lower case. -/
structure Admits (t : TagTable) (outer inner : String) : Prop where
  paragraph : t.isNonPhrasing inner → outer ≠ "p"
  repeated : t.mayBeLeftOpen inner → outer ≠ inner

def AdmitsIn (t : TagTable) (tags : List String) (tag : String) : Prop :=
  ∀ innermost ∈ tags.head?, Admits t (asciiLower innermost) (asciiLower tag)

/-- Wherever some signals open a tag, it is admitted; they start with the tags `tags` open. -/
def Orderly (t : TagTable) (signals : List Signal) (tags : List String) : Prop :=
  ∀ before tag attrs unary span after,
    signals = before ++ .event (.opened tag attrs unary span) :: after →
    ∃ around, openAfter before tags = some around ∧ AdmitsIn t around tag

namespace Orderly

variable {t : TagTable} {tags tags' : List String}

theorem ofNone {signals : List Signal}
    (h : ∀ tag attrs unary span, Signal.event (.opened tag attrs unary span) ∉ signals) :
    Orderly t signals tags := by
  intro before tag attrs unary span after heq
  exact absurd (by simp [heq]) (h tag attrs unary span)

theorem single {attrs : List Attr} {unary : Bool}
    (h : AdmitsIn t tags tag) : Orderly t [.event (.opened tag attrs unary span)] tags := by
  intro before tag' attrs' unary' span' after heq
  obtain ⟨rfl, heq⟩ : before = [] ∧ [Signal.event (.opened tag attrs unary span)] =
      .event (.opened tag' attrs' unary' span') :: after := by
    cases before with
    | nil => exact ⟨rfl, heq⟩
    | cons first before => simp at heq
  cases heq
  exact ⟨tags, rfl, h⟩

theorem append {first second : List Signal} (hfirst : Orderly t first tags)
    (hopen : openAfter first tags = some tags') (hsecond : Orderly t second tags') :
    Orderly t (first ++ second) tags := by
  intro before tag attrs unary span after heq
  rcases append_eq_append_iff.mp heq with ⟨lead, rfl, hcut⟩ | ⟨tail, hcut, htail⟩
  · obtain ⟨around, haround, hadmits⟩ := hsecond lead tag attrs unary span after hcut
    refine ⟨around, ?_, hadmits⟩
    rw [openAfter_append, hopen]
    exact haround
  · cases tail with
    | nil =>
      -- the signal is the first one of the second part
      obtain ⟨around, haround, hadmits⟩ :=
        hsecond [] tag attrs unary span after (by simpa using htail.symm)
      cases haround
      refine ⟨tags', ?_, hadmits⟩
      rw [append_nil] at hcut
      rw [← hcut]
      exact hopen
    | cons head tail =>
      injection htail with hhead htail
      subst hhead
      exact hfirst before tag attrs unary span tail hcut

end Orderly

/-! ## Closing and opening tags -/

/-- An open tag may stand directly inside another one. -/
def Apart (t : TagTable) (inner outer : OpenTag) : Prop := Admits t outer.key inner.key

theorem not_opened_mem_closeSignals (o : OpenTag) (attrs : List Attr) :
    Signal.event (.opened tag attrs unary span) ∉ closeSignals t closing missing o := by
  unfold closeSignals
  split <;> simp

theorem orderly_flatMap_closeSignals :
    Orderly t (inner.flatMap (closeSignals t closing missing)) tags := by
  refine .ofNone fun tag attrs unary span hmem => ?_
  obtain ⟨o, -, hmem⟩ := mem_flatMap.mp hmem
  exact not_opened_mem_closeSignals o attrs hmem

/-- An end tag that matches nothing may stand for an empty paragraph or a line break. Both are
admitted where they are. -/
theorem unmatchedSignals_orderly (hbreak : t.isNonPhrasing "br" = false)
    (hnone : ∀ o ∈ stack, o.key ≠ asciiLower name) :
    Orderly t (unmatchedSignals name span) (tagNames stack) := by
  have hhead {innermost : String} (h : innermost ∈ (tagNames stack).head?) :
      asciiLower innermost ≠ asciiLower name := by
    rw [tagNames, head?_map] at h
    obtain ⟨o, ho, rfl⟩ := map_eq_some_iff.mp h
    exact hnone o (mem_of_mem_head? ho)
  unfold unmatchedSignals
  split
  · next hname =>
    refine .single fun innermost h => ⟨fun hbad => ?_, fun _ => hhead h⟩
    rw [hname, hbreak] at hbad
    cases hbad
  split
  · next hname =>
    have hopened : Orderly t [.event (.opened name [] false span)] (tagNames stack) :=
      .single fun innermost h => ⟨fun _ => hname ▸ hhead h, fun _ => hhead h⟩
    exact hopened.append rfl (.ofNone (by simp))
  · exact .ofNone (by simp)

theorem closeTag_orderly (hbreak : t.isNonPhrasing "br" = false) :
    Orderly t (closeTag t name span stack).1 (tagNames stack) := by
  unfold closeTag
  split
  · refine .ofNone fun tag attrs unary span' hmem => ?_
    rcases mem_append.mp hmem with hmem | hmem
    · obtain ⟨o, -, hmem⟩ := mem_flatMap.mp hmem
      exact not_opened_mem_closeSignals o attrs hmem
    · exact not_opened_mem_closeSignals _ attrs hmem
  · next hdrop =>
    refine unmatchedSignals_orderly hbreak fun o ho => ?_
    have hall := dropWhile_eq_nil_iff.mp hdrop o ho
    simpa using hall

theorem closeTag_innermost (h : innermost? stack = some (asciiLower name)) :
    (closeTag t name span stack).2 = stack.tail := by
  cases stack with
  | nil => cases h
  | cons o outer =>
    have hkey : o.key = asciiLower name := Option.some.inj h
    unfold closeTag
    simp [hkey]

/-- The rules that the scanner goes by when it closes tags implicitly, as far as they matter for
what it opens afterwards. -/
structure Rules (t : TagTable) : Prop where
  html : t.expectHtml
  paragraph : t.mayBeLeftOpen "p"
  lineBreak : t.isNonPhrasing "br" = false

variable {t : TagTable}

theorem admitsIn_tagNames :
    AdmitsIn t (tagNames stack) tag ↔ ∀ o ∈ stack.head?, Admits t o.key (asciiLower tag) := by
  unfold AdmitsIn tagNames
  rw [head?_map]
  constructor
  · exact fun h o ho => h o.tag (Option.mem_map_of_mem _ ho)
  · intro h innermost hmem
    obtain ⟨o, ho, rfl⟩ := map_eq_some_iff.mp hmem
    exact h o ho

theorem admits_of_chain {o : OpenTag} {outer : List OpenTag}
    (h : (o :: outer).IsChain (Apart t)) : ∀ o' ∈ outer.head?, Admits t o'.key o.key :=
  (isChain_cons.mp h).1

def outOfParagraph (t : TagTable) (name : String) (span : Span) (stack : List OpenTag) :
    List Signal × List OpenTag :=
  if innermost? stack = some "p" && t.isNonPhrasing (asciiLower name) then closeTag t "p" span stack
  else ([], stack)

section

variable (ht : Rules t) (name : String) (span : Span)

include ht

theorem closeImplied_eq (stack : List OpenTag) : closeImplied t name span stack =
      if t.mayBeLeftOpen (asciiLower name) &&
          innermost? (outOfParagraph t name span stack).2 = some (asciiLower name) then
        ((outOfParagraph t name span stack).1 ++
            (closeTag t name span (outOfParagraph t name span stack).2).1,
          (closeTag t name span (outOfParagraph t name span stack).2).2)
      else outOfParagraph t name span stack := by
  unfold closeImplied
  rw [ht.html]
  rfl

/-- A paragraph that a start tag ends is the only one to end. -/
theorem outOfParagraph_spec (hstk : stack.IsChain (Apart t)) :
    (outOfParagraph t name span stack).2 <:+ stack ∧ (t.isNonPhrasing (asciiLower name) →
        ∀ o ∈ (outOfParagraph t name span stack).2.head?, o.key ≠ "p") := by
  unfold outOfParagraph
  split
  · next hcond =>
    rw [Bool.and_eq_true, decide_eq_true_iff] at hcond
    have hinnermost : innermost? stack = some (asciiLower "p") := hcond.1
    rw [closeTag_innermost hinnermost]
    refine ⟨tail_suffix _, fun _ o ho => ?_⟩
    cases stack with
    | nil => cases ho
    | cons p outer =>
      have hp : p.key = "p" := Option.some.inj hcond.1
      have hadmits := admits_of_chain hstk o ho
      rw [hp] at hadmits
      exact hadmits.repeated ht.paragraph
  · next hcond =>
    refine ⟨suffix_refl _, fun hphrasing o ho hp => hcond ?_⟩
    rw [hphrasing, Bool.and_true, decide_eq_true_iff, innermost?, mem_def.mp ho, ← hp]
    rfl

/-- What a start tag ends implicitly is enough for the innermost open tag to admit it. -/
theorem closeImplied_spec (hstk : stack.IsChain (Apart t)) :
    (closeImplied t name span stack).2 <:+ stack ∧
      AdmitsIn t (tagNames (closeImplied t name span stack).2) name := by
  obtain ⟨hsuffix, hparagraph⟩ := outOfParagraph_spec ht name span hstk
  rw [admitsIn_tagNames, closeImplied_eq ht]
  generalize outOfParagraph t name span stack = r at hsuffix hparagraph ⊢
  split
  · next hcond =>
    rw [Bool.and_eq_true, decide_eq_true_iff] at hcond
    rw [closeTag_innermost hcond.2]
    refine ⟨(tail_suffix _).trans hsuffix, fun o ho => ?_⟩
    -- The tag that is closed has the name of the new one, so what admits it admits the new one.
    cases hr : r.2 with
    | nil =>
      rw [hr] at ho
      cases ho
    | cons same outer =>
      rw [hr] at hcond ho
      have hkey : same.key = asciiLower name := Option.some.inj hcond.2
      exact hkey ▸ admits_of_chain (hr ▸ hstk.suffix hsuffix) o ho
  · next hcond =>
    refine ⟨hsuffix, fun o ho => ⟨fun hphrasing => hparagraph hphrasing o ho,
      fun hleft hkey => hcond ?_⟩⟩
    rw [hleft, Bool.true_and, decide_eq_true_iff, innermost?, mem_def.mp ho, ← hkey]
    rfl

theorem closeImplied_orderly (stack : List OpenTag) :
    Orderly t (closeImplied t name span stack).1 (tagNames stack) := by
  refine (closeImplied_induct (P := fun so => Orderly t so.1 (tagNames stack) ∧
    openAfter so.1 (tagNames stack) = some (tagNames so.2)) ⟨.ofNone (by simp), rfl⟩ ?_ name).1
  intro inner so _ hso
  refine ⟨hso.1.append hso.2 (closeTag_orderly ht.lineBreak), ?_⟩
  rw [openAfter_append, hso.2]
  exact openAfter_closeTag t inner span so.2

end

/-! ## Reading -/

namespace Scanner

/-- A reading opens tags where they are admitted, and leaves open tags that admit each other. -/
structure Tidy (t : TagTable) (s : Scanner) (r : List Signal × Scanner) : Prop where
  orderly : Orderly t r.1 (tagNames s.stack)
  chain : r.2.stack.IsChain (Apart t)

theorem openTag_tidy (ht : Rules t) (tag : StartTag) (span : Span)
    (hstk : stack.IsChain (Apart t)) :
    Orderly t (openTag t tag span stack).1 (tagNames stack) ∧
      (openTag t tag span stack).2.IsChain (Apart t) := by
  obtain ⟨hsuffix, hadmits⟩ := closeImplied_spec ht tag.tag span hstk
  have hchain := hstk.suffix hsuffix
  unfold openTag
  dsimp only
  constructor
  · exact (closeImplied_orderly ht tag.tag span stack).append
      (openAfter_closeImplied t tag.tag span stack) (.single hadmits)
  · split
    · exact hchain
    · exact isChain_cons.mpr ⟨admitsIn_tagNames.mp hadmits, hchain⟩

theorem orderly_textSignals (content : List Char) (start : Nat) :
    Orderly t (textSignals content start) tags := by
  refine .ofNone fun tag attrs unary span => ?_
  unfold textSignals
  split <;> simp

theorem tidy_step (ht : Rules t) (comments : Bool)
    (hstk : s.stack.IsChain (Apart t)) : s.Tidy t (s.step t comments) := by
  have htakes := s.takes_step t comments
  generalize s.step t comments = r at htakes ⊢
  cases htakes with
  | raw | cdata | run => exact ⟨orderly_textSignals _ _, hstk⟩
  | malformed =>
    refine ⟨(orderly_textSignals _ _).append (openAfter_textSignals _ _) (.ofNone ?_), hstk⟩
    simp
  | comment | skipped => exact ⟨.ofNone (by simp), hstk⟩
  | closed =>
    exact ⟨(orderly_textSignals _ _).append (openAfter_textSignals _ _)
      (closeTag_orderly ht.lineBreak), hstk.suffix (closeTag_suffix t _ _ _)⟩
  | opened hraw htag span after =>
    obtain ⟨horderly, hchain⟩ := openTag_tidy ht _ span hstk
    exact ⟨horderly, hchain⟩

/-- From any place on where the open tags admit each other, each tag is opened where it is
admitted. -/
theorem orderly_run (ht : Rules t) (comments : Bool) (s : Scanner)
    (hstk : s.stack.IsChain (Apart t)) : Orderly t (run t comments s) (tagNames s.stack) := by
  fun_induction run t comments s with
  | case1 s hend => exact orderly_flatMap_closeSignals
  | case2 s hend next ih =>
    obtain ⟨horderly, hchain⟩ : s.Tidy t next := tidy_step ht comments hstk
    exact horderly.append (nests_step t comments s) (ih hchain)

end Scanner

theorem rules_web : Rules Web.tagTable where
  html := rfl
  paragraph := by decide
  lineBreak := by decide

/-- **Tags nest as HTML has it.** Wherever reading a template with the tags of the web opens a tag,
some tags are open, as replaying the signals before it shows, and the innermost of them is not a
paragraph if the tag cannot stand in one, and not a tag of the same name if its end may be left
out. -/
theorem read_admits (comments : Bool) (source : String) (before after : List Signal) (tag : String)
    (attrs : List Attr) (unary : Bool) (span : Span)
    (h : read Web.tagTable comments source =
      before ++ .event (.opened tag attrs unary span) :: after) :
    ∃ around, openAfter before [] = some around ∧ ∀ innermost ∈ around.head?,
      (Web.tagTable.isNonPhrasing (asciiLower tag) = true → asciiLower innermost ≠ "p") ∧
      (Web.tagTable.mayBeLeftOpen (asciiLower tag) = true →
        asciiLower innermost ≠ asciiLower tag) := by
  obtain ⟨around, haround, hadmits⟩ := Scanner.orderly_run rules_web comments
    { cursor := { rest := source.toList } } .nil before tag attrs unary span after h
  exact ⟨around, haround, fun innermost hin =>
    ⟨(hadmits innermost hin).paragraph, (hadmits innermost hin).repeated⟩⟩

/-- A list item ends the paragraph in the item before it, and that item as well. -/
theorem read_admits_item : ∃ before after around,
      read Web.tagTable false "<ul><li>a<p>b<LI>c</ul>" =
        before ++ .event (.opened "LI" [] false ⟨13, 17⟩) :: after ∧
      before.length = 7 ∧ openAfter before [] = some around ∧ ∀ innermost ∈ around.head?,
        (Web.tagTable.isNonPhrasing (asciiLower "LI") = true → asciiLower innermost ≠ "p") ∧
        (Web.tagTable.mayBeLeftOpen (asciiLower "LI") = true →
          asciiLower innermost ≠ asciiLower "LI") := by
  have hread : read Web.tagTable false "<ul><li>a<p>b<LI>c</ul>" =
      (read Web.tagTable false "<ul><li>a<p>b<LI>c</ul>").take 7 ++
        .event (.opened "LI" [] false ⟨13, 17⟩) ::
          (read Web.tagTable false "<ul><li>a<p>b<LI>c</ul>").drop 8 := by decide +kernel
  obtain ⟨around, haround, hadmits⟩ := read_admits false _ _ _ "LI" [] false _ hread
  exact ⟨_, _, around, hread, by decide +kernel, haround, hadmits⟩

end TemplateCompiler.Markup
