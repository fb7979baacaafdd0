import TemplateCompiler.Extension.Script
import TemplateCompiler.Proofs.Tending
import Mathlib.Data.List.Chain

/-!
# White space in a tree

White space between tags becomes a space or nothing, depending on what stands around it, and what
stands around it changes: comments, forbidden elements, scoped slots and branches come and go
between two runs of white space. All the same the tree has a normal form (`parse_spaced`): no two
neighbours are spaces, no element ends with one, and with condensed white space the texts have no
other blanks. The last two do not hold below a tag that keeps its white space. The builder has a
flag for that. It is taken back when the innermost such tag is closed, so it may be off inside of an
outer one, but when it is on, one of the open elements has such a tag. This direction is all that is
needed.

`Ast.Spaced` is the normal form of a tree under construction. An element that is still open may end
with a space. Nothing is asked of the extensions but to leave the tag and the children of an element
alone, and some may fail.
-/

namespace TemplateCompiler

open Markup List Option Ast

variable {f : Element → Element} {parent : Option NodeId} {kind : NodeKind} {signal : Signal}
  {tokens : Option (List TextToken)} {isStatic first : Bool} {a : Ast} {children : List NodeId}
  {el el' : Element} {above : List Element}

/-! ## Extensions that leave the content of an element alone -/

def Element.content (el : Element) : String × List NodeId := (el.tag, el.children)

theorem Element.content_of_frame {el el' : Element} (h : el'.frame = el.frame) :
    el'.content = el.content :=
  congrArg (fun f : Frame => (f.tag, f.children)) h

/-- A module that leaves the content of elements alone when it transforms them. -/
def Module.KeepsContent (m : Module) : Prop :=
  ∀ s el, (m.transform s el).Yields (·.content = el.content)

def DirectiveHandler.KeepsContent (handler : DirectiveHandler) : Prop :=
  ∀ s el dir, (handler s el dir).Yields (·.1.content = el.content)

/-- A configuration whose extensions leave the content of elements alone. -/
structure Options.KeepsContent (o : Options) : Prop where
  modules : ∀ m ∈ o.modules, m.KeepsContent
  directives : ∀ name handler, o.directives.get? name = some handler →
    DirectiveHandler.KeepsContent handler

/-- Scripted modules attach data to elements, and touch nothing else. -/
theorem ModuleScript.keepsContent (m : ModuleScript) : m.toModule.KeepsContent := by
  intro s el
  have hguarded : (liftM (m.guarded .transform el (el, false) (.ok (m.attach el, true))) :
      Outcome (Element × Bool)).Yields (·.1.content = el.content) := by
    intro r hr
    unfold guarded at hr
    split at hr
    · cases hr; rfl
    split at hr
    · cases hr
    · cases hr; rfl
  refine .bind hguarded fun r hr => ?_
  dsimp only
  split
  · exact .bindLift (.pure hr)
  · exact .pure hr

theorem DirectiveScript.keepsContent (d : DirectiveScript) :
    DirectiveHandler.KeepsContent d.toHandler := by
  intro s el dir
  have hchange : (d.change el dir).content = el.content := by
    unfold change
    cases d.attr <;> cases d.prop <;> cases d.handler <;> cases d.directive <;> cases d.extra <;>
      rfl
  unfold toHandler
  cases d.fail with
  | some cause =>
    intro r hr
    cases hr
  | none =>
    cases d.error with
    | some message => exact .bindLift (.pure hchange)
    | none => exact .pure hchange

/-- The extensions of the web leave the content of elements alone, and so do scripted ones. -/
theorem Options.keepsContent_of_scripts {o : Options}
    (hmods : ∀ m ∈ o.modules, m ∈ Web.modules ∨ ∃ script : ModuleScript, m = script.toModule)
    (hdirs : ∀ name handler, o.directives.get? name = some handler →
      (∃ known, Web.directives.get? known = some handler) ∨
        ∃ script : DirectiveScript, handler = script.toHandler) : o.KeepsContent := by
  constructor
  · intro m hm
    rcases hmods m hm with hweb | ⟨script, rfl⟩
    · exact fun s el => (Web.transform_refines hweb s el).yields.mono fun _ h =>
        Element.content_of_frame h.frame
    · exact script.keepsContent
  · intro name handler hget
    rcases hdirs name handler hget with ⟨known, hweb⟩ | ⟨script, rfl⟩
    · exact fun s el dir => (Web.handler_refines hweb s el dir).yields.mono fun _ h =>
        Element.content_of_frame h.frame
    · exact script.keepsContent

namespace Element

variable {o : Options}

theorem transformAll_content (s : Settings) (modules : List Module)
    (hmods : ∀ m ∈ modules, m.KeepsContent) (el : Element) :
    (transformAll s modules el).Yields (·.content = el.content) := by
  induction modules generalizing el with
  | nil => exact .pure rfl
  | cons m rest ih =>
    refine .bind (hmods m (by simp) s el) fun el' hel' => ?_
    exact (ih (fun m' hm' => hmods m' (by simp [hm'])) el').mono fun _ h => h.trans hel'

theorem runHandlers_content (ho : o.KeepsContent) (directives : List Directive) (el : Element) :
    (runHandlers o directives el).Yields (·.1.content = el.content) := by
  induction directives generalizing el with
  | nil => exact .pure rfl
  | cons directive rest ih =>
    have hfirst : (el.runHandler o directive).Yields (·.1.content = el.content) := by
      unfold runHandler
      split
      · next handler heq =>
        exact .bind (ho.directives _ handler heq o.toSettings el directive) fun r hr => .pure hr
      · exact .bindLift (.pure rfl)
    refine .bind hfirst fun r hr => ?_
    exact .bind (ih r.1) fun r' hr' => .pure (hr'.trans hr)

theorem handleDirectives_content (ho : o.KeepsContent) :
    (el.handleDirectives o).Yields (·.content = el.content) :=
  .bind (runHandlers_content ho el.directives { el with directives := [] }) fun _ hr => .pure hr

theorem process_content (ho : o.KeepsContent) :
    (el.process o above).Yields (·.content = el.content) := by
  have hbef := el.taken_refines o.toSettings above
  rw [process_eq]
  refine .bindLift (.bind (transformAll_content _ o.modules ho.modules _) fun el' hel' => ?_)
  have hattrs := addAttributes_refines o.toSettings above el'.pending el' fun _ h => h
  refine .bindLift (.bind (handleDirectives_content ho) fun el'' hel'' => .pure ?_)
  calc el''.content
    _ = (addAttributes o.toSettings above el'.pending el').value.content := hel''
    _ = el'.content := content_of_frame hattrs.frame
    _ = _ := hel'
    _ = el.content := content_of_frame hbef.frame

end Element

/-! ## The normal form -/

/-- Text without blanks other than single spaces. -/
structure Condensed (text : List Char) : Prop where
  spaces : ∀ c ∈ text, c ∉ ['\t', '\n', '\r', '\x0c']
  single : text.IsChain fun c d => ¬ (c = ' ' ∧ d = ' ')

/-- Collapsed text is condensed. Inside of a run of blanks it does not go on with a space. -/
theorem condensed_collapseBlanks (inRun : Bool) (cs : List Char) :
    Condensed (collapseBlanks inRun cs) ∧
      (inRun → (collapseBlanks inRun cs).head? ≠ some ' ') := by
  induction cs generalizing inRun with
  | nil => exact ⟨⟨by simp [collapseBlanks], by simp [collapseBlanks]⟩, by simp [collapseBlanks]⟩
  | cons c cs ih =>
    unfold collapseBlanks
    split
    · obtain ⟨hcondensed, hhead⟩ := ih true
      split
      · exact ⟨hcondensed, fun _ => hhead rfl⟩
      · next hrun =>
        refine ⟨⟨?_, ?_⟩, fun h => absurd h hrun⟩
        · intro d hd
          rcases mem_cons.mp hd with rfl | hd
          · decide
          · exact hcondensed.spaces d hd
        · refine hcondensed.single.cons fun d hd hboth => hhead rfl ?_
          rw [hd, hboth.2]
    · next hblank =>
      obtain ⟨hcondensed, -⟩ := ih false
      have hc : c ≠ ' ' ∧ c ∉ ['\t', '\n', '\r', '\x0c'] := by
        simpa using hblank
      refine ⟨⟨?_, ?_⟩, fun _ => ?_⟩
      · intro d hd
        rcases mem_cons.mp hd with rfl | hd
        · exact hc.2
        · exact hcondensed.spaces d hd
      · exact hcondensed.single.cons fun d _ hboth => hc.1 hboth.1
      · simpa using hc.1

/-- Whether the tag of an element keeps its white space. -/
def Settings.isPre (s : Settings) (el : Element) : Bool := s.tags.isPre el.tag

namespace Ast

/-- No two neighbours among some nodes are spaces. -/
def SingleSpaces (a : Ast) (children : List NodeId) : Prop :=
  children.IsChain fun y z => ¬ (a.isSpace y ∧ a.isSpace z)

/-- White space is in normal form in a tree in which the elements of `stack` are open. If `keeps` is
set, one of them keeps its white space. -/
structure Spaced (s : Settings) (keeps : Bool) (stack : List NodeId) (a : Ast) : Prop where
  parents : a.ParentsFirst
  nested : a.Nested stack
  inTree : ∀ x el, a.element? x = some el → ∀ y ∈ el.children, y < a.nodes.size
  single : ∀ x el, a.element? x = some el → a.SingleSpaces el.children
  trimmed : ∀ x el, a.element? x = some el → x ∉ stack → s.isPre el = false →
    a.anyAbove s.isPre x = false → ∀ y ∈ el.children.getLast?, a.isSpace y = false
  condensed : s.whitespace = .condense → ∀ x content tokens isStatic,
    a.kind? x = some (.text content tokens isStatic) → a.anyAbove s.isPre x = false →
      Condensed content.toList
  flag : keeps → (stack.any fun x => (a.element? x).any s.isPre)

variable {a a' : Ast} {s : Settings} {keeps : Bool} {stack : List NodeId} {id x : NodeId}
  {el : Element}

theorem isSpace_of_element (h : a.element? x = some el) : a.isSpace x = false := by
  rw [isSpace, element?_eq_some_iff.mp h]

theorem isSpace_modifyElement (x : NodeId) : (a.modifyElement id f).isSpace x = a.isSpace x := by
  unfold isSpace
  rw [kind?_modifyElement]
  by_cases h : id = x
  · rw [if_pos h]
    cases a.kind? x with
    | none => rfl
    | some kind => cases kind <;> rfl
  · rw [if_neg h]

theorem isSpace_push (hx : x < a.nodes.size) : (a.push parent kind).isSpace x = a.isSpace x := by
  unfold isSpace
  rw [kind?_push, if_neg (Nat.ne_of_lt hx)]

namespace Spaced

section

variable (h : a.Spaced s keeps stack)

include h

theorem reroot (root : Option NodeId) : Spaced s keeps stack { a with root } := by
  have hext : Extends a { a with root } :=
    ⟨Nat.le_refl _, fun _ _ => rfl, fun _ hx => hx⟩
  have habove (x : NodeId) (hx : x < a.nodes.size) :
      anyAbove { a with root } s.isPre x = a.anyAbove s.isPre x :=
    h.parents.anyAbove_congr hext (fun _ _ => rfl) hx
  refine ⟨h.parents, h.nested.extend hext, h.inTree, h.single, fun x el hel hclosed hpre hx => ?_,
    fun hcondense x content tokens isStatic hkind hx => ?_, h.flag⟩
  · rw [habove x (lt_size_of_element? hel)] at hx
    exact h.trimmed x el hel hclosed hpre hx
  · rw [habove x (lt_size_of_kind? hkind)] at hx
    exact h.condensed hcondense x content tokens isStatic hkind hx

/-- An element may be changed, as long as its tag stays the same and its children are in order. It
must not end with a space, unless it is open. -/
theorem modify (htag : ∀ el, a.element? id = some el → (f el).tag = el.tag)
    (hin : ∀ el, a.element? id = some el → ∀ y ∈ (f el).children, y < a.nodes.size)
    (hsingle : ∀ el, a.element? id = some el → a.SingleSpaces (f el).children)
    (htrimmed : ∀ el, a.element? id = some el →
      id ∈ stack ∨ (f el).children.getLast? = el.children.getLast?) :
    (a.modifyElement id f).Spaced s keeps stack := by
  have hpre (el : Element) (hel : a.element? id = some el) : s.isPre (f el) = s.isPre el := by
    rw [Settings.isPre, Settings.isPre, htag el hel]
  have habove (x : NodeId) : (a.modifyElement id f).anyAbove s.isPre x = a.anyAbove s.isPre x :=
    anyAbove_modifyElement hpre x
  have hspaces : (a.modifyElement id f).isSpace = a.isSpace := funext isSpace_modifyElement
  constructor
  · intro x p hp
    rw [parent?_modifyElement] at hp
    exact h.parents x p hp
  · exact h.nested.extend (.modifyElement ..)
  · intro x el hel
    rw [size_modifyElement]
    rcases element?_modifyElement_cases hel with ⟨-, hel⟩ | ⟨rfl, old, hold, rfl⟩
    · exact h.inTree x el hel
    · exact hin old hold
  · intro x el hel
    unfold SingleSpaces
    rw [hspaces]
    rcases element?_modifyElement_cases hel with ⟨-, hel⟩ | ⟨rfl, old, hold, rfl⟩
    · exact h.single x el hel
    · exact hsingle old hold
  · intro x el hel hclosed hel' habove'
    rw [habove] at habove'
    rw [hspaces]
    rcases element?_modifyElement_cases hel with ⟨-, hel⟩ | ⟨rfl, old, hold, rfl⟩
    · exact h.trimmed x el hel hclosed hel' habove'
    · rw [(htrimmed old hold).resolve_left hclosed]
      exact h.trimmed id old hold hclosed ((hpre old hold).symm.trans hel') habove'
  · intro hcondense x content tokens isStatic htext habove'
    rw [habove] at habove'
    rw [kind?_modifyElement] at htext
    split at htext
    · obtain ⟨kind, hkind, heq⟩ := map_eq_some_iff.mp htext
      cases kind with
      | element el => cases heq
      | text content' tokens' isStatic' =>
        cases heq
        exact h.condensed hcondense x _ _ _ hkind habove'
      | comment content' isStatic' => cases heq
    · exact h.condensed hcondense x _ _ _ htext habove'
  · intro hkeeps
    rw [← h.flag hkeeps]
    exact congrArg stack.any (funext (any_element?_modifyElement hpre))

theorem relink (hcont : ∀ el, (f el).content = el.content) :
    (a.modifyElement id f).Spaced s keeps stack := by
  have htag (el : Element) : (f el).tag = el.tag := congrArg Prod.fst (hcont el)
  have hkids (el : Element) : (f el).children = el.children := congrArg Prod.snd (hcont el)
  refine h.modify (fun el _ => htag el) (fun el hel => ?_) (fun el hel => ?_) fun el _ => .inr ?_
  · rw [hkids]
    exact h.inTree id el hel
  · rw [hkids]
    exact h.single id el hel
  · rw [hkids]

/-- A new node stands below an old one. An element has no children yet, and a text is condensed if
it has to be. -/
theorem push (hpar : ∀ p ∈ parent, p < a.nodes.size)
    (helt : ∀ el, kind = .element el → el.children = [])
    (htext : s.whitespace = .condense → a.anyAt s.isPre parent = false →
      ∀ content tokens isStatic, kind = .text content tokens isStatic → Condensed content.toList) :
    (a.push parent kind).Spaced s keeps stack := by
  have hpars : (a.push parent kind).ParentsFirst := h.parents.push hpar
  have hold (x : NodeId) (hx : x < a.nodes.size) :
      ((a.push parent kind).element? x).any s.isPre = (a.element? x).any s.isPre := by
    rw [element?_push_of_lt hx]
  have habove (x : NodeId) (hx : x < a.nodes.size) :
      (a.push parent kind).anyAbove s.isPre x = a.anyAbove s.isPre x :=
    h.parents.anyAbove_congr (.push ..) hold hx
  have hcases (x : NodeId) (el : Element) (hel : (a.push parent kind).element? x = some el) :
      a.element? x = some el ∨ el.children = [] :=
    (element?_push_cases hel).symm.imp_right fun hnew => helt el hnew.2
  constructor
  · exact hpars
  · exact h.nested.extend (.push ..)
  · intro x el hel y hy
    rw [size_push]
    rcases hcases x el hel with hel | hnone
    · exact Nat.lt_succ_of_lt (h.inTree x el hel y hy)
    · rw [hnone] at hy
      cases hy
  · intro x el hel
    rcases hcases x el hel with hel | hnone
    · refine (h.single x el hel).imp_of_mem_imp fun y z hy hz hboth => ?_
      rwa [isSpace_push (h.inTree x el hel y hy), isSpace_push (h.inTree x el hel z hz)]
    · rw [hnone]
      exact .nil
  · intro x el hel hclosed hpre habove' y hy
    rcases hcases x el hel with hel | hnone
    · have hmem : y ∈ el.children := mem_of_getLast? hy
      rw [habove x (lt_size_of_element? hel)] at habove'
      rw [isSpace_push (h.inTree x el hel y hmem)]
      exact h.trimmed x el hel hclosed hpre habove' y hy
    · rw [hnone] at hy
      cases hy
  · intro hcondense x content tokens isStatic hkind habove'
    rw [kind?_push] at hkind
    split at hkind
    · next heq =>
      -- What is above the new node is above the nodes with its parent.
      rw [hpars.anyAbove_eq, parent?_push, if_pos heq] at habove'
      refine htext hcondense ?_ content tokens isStatic (Option.some.inj hkind)
      cases parent with
      | none => rfl
      | some p =>
        have hp := hpar p rfl
        rwa [anyAt, any_some, hold p hp, habove p hp] at habove'
    · rw [habove x (lt_size_of_kind? hkind)] at habove'
      exact h.condensed hcondense x _ _ _ hkind habove'
  · intro hkeeps
    obtain ⟨x, hx, hpre⟩ := List.any_eq_true.mp (h.flag hkeeps)
    refine List.any_eq_true.mpr ⟨x, hx, ?_⟩
    rwa [hold x (h.nested.lt_size x hx)]

theorem pushElements {els : List Element}
    (hpar : ∀ p ∈ parent, p < a.nodes.size) (hels : ∀ el ∈ els, el.children = []) :
    (a.pushElements parent els).Spaced s keeps stack := by
  induction els generalizing a with
  | nil => exact h
  | cons el rest ih =>
    have hpush : (a.push parent (.element el)).Spaced s keeps stack := by
      refine h.push hpar (fun el' heq => ?_) fun _ _ _ _ _ heq => ?_
      · cases heq
        exact hels el (by simp)
      · cases heq
    refine ih hpush (fun p hp => ?_) fun el' hel' => hels el' (by simp [hel'])
    rw [size_push]
    exact Nat.lt_succ_of_lt (hpar p hp)

theorem enter (hel : a.element? id = some el) (hpar : a.parent? id = stack.head?) :
    a.Spaced s (keeps || s.isPre el) (id :: stack) := by
  refine ⟨h.parents, ⟨isSome_of_eq_some hel, hpar, h.nested⟩, h.inTree, h.single,
    fun x el hel hclosed => ?_, h.condensed, fun hkeeps => ?_⟩
  · exact h.trimmed x el hel fun hmem => hclosed (by simp [hmem])
  · rw [any_cons, hel, any_some]
    rcases (Bool.or_eq_true _ _).mp hkeeps with hkeeps | hpre
    · rw [h.flag hkeeps, Bool.or_true]
    · rw [hpre, Bool.true_or]

end

/-- The innermost open element may be closed. If the flag is not set, it must not end with a
space. -/
theorem pop (h : a.Spaced s keeps (id :: stack)) (hel : a.element? id = some el)
    (htrimmed : keeps = false → ∀ y ∈ el.children.getLast?, a.isSpace y = false) :
    a.Spaced s (keeps && !s.isPre el) stack := by
  obtain ⟨-, hpar, hnested⟩ := h.nested
  have hflag (hkeeps : keeps) :
      s.isPre el ∨ (stack.any fun x => (a.element? x).any s.isPre) := by
    have := h.flag hkeeps
    rwa [any_cons, hel, Bool.or_eq_true] at this
  refine ⟨h.parents, hnested, h.inTree, h.single, fun x elx helx hclosed hpre habove => ?_,
    h.condensed, fun hkeeps => ?_⟩
  · by_cases hx : x = id
    · subst hx
      cases hel.symm.trans helx
      cases hk : keeps with
      | false => exact htrimmed hk
      | true =>
        -- One of the open elements keeps its white space, but this one and those above it do not.
        rw [h.parents.anyAbove_eq, hpar, h.parents.anyAt_head _ hnested] at habove
        rcases hflag hk with hpre' | hany
        · rw [hpre] at hpre'
          cases hpre'
        · rw [habove] at hany
          cases hany
    · exact h.trimmed x elx helx (by simp [hx, hclosed]) hpre habove
  · rw [Bool.and_eq_true, Bool.not_eq_true'] at hkeeps
    refine (hflag hkeeps.1).resolve_left fun hpre => ?_
    rw [hkeeps.2] at hpre
    cases hpre

end Spaced

end Ast

/-! ## Closing an element -/

namespace Builder

variable {o : Options} {s : Settings} {b : Builder} {id p : NodeId} {el : Element} {keeps : Bool}
  {stack : List NodeId} {a' : Ast}

theorem dropSpaces_prefix : dropSpaces a children <+: children := by
  have := reverse_prefix.mpr (dropWhile_suffix a.isSpace (l := children.reverse))
  rwa [reverse_reverse] at this

theorem getLast?_dropSpaces : ∀ y ∈ (dropSpaces a children).getLast?, a.isSpace y = false := by
  intro y hy
  have hhead := head?_dropWhile_not a.isSpace children.reverse
  unfold dropSpaces at hy
  rw [getLast?_reverse] at hy
  rw [hy] at hhead
  exact hhead

theorem trimmed_content (b : Builder) (el : Element) :
    (b.trimmed el).tag = el.tag ∧ (b.trimmed el).children <+: el.children ∧ (b.keepsSpace = false →
        ∀ y ∈ (b.trimmed el).children.getLast?, b.ast.isSpace y = false) := by
  unfold trimmed
  split
  · next hkeeps =>
    exact ⟨rfl, prefix_refl _, fun h => by rw [h] at hkeeps; cases hkeeps⟩
  · exact ⟨rfl, dropSpaces_prefix, fun _ => getLast?_dropSpaces⟩

theorem finished_content (ho : o.KeepsContent) (b : Builder) (id : NodeId) (el : Element) :
    (b.finished o id el).Yields (·.content = el.content) := by
  unfold finished
  split
  · exact .pure rfl
  · exact Element.process_content ho

theorem addBranch_spaced (h : a.Spaced s keeps stack) (head : NodeId)
    (branch : Condition) : (addBranch a head branch).Spaced s keeps stack :=
  h.relink fun _ => rfl

theorem upToElement_spaced (h : a.Spaced s keeps stack) (hp : p ∈ stack) :
    (a.upToElement s p).Spaced s keeps stack :=
  h.modify (fun _ _ => rfl)
    (fun q hq y hy => h.inTree p q hq y ((lastElements_front s hq).subset hy))
    (fun q hq => List.IsChain.prefix (h.single p q hq) (lastElements_front s hq)) fun _ _ => .inl hp

theorem joins_spaced {parent : Option NodeId} {stray : Prop} (h : a.Spaced s keeps stack)
    (hid : a.element? id = some el) (hparent : ∀ p ∈ parent, p ∈ stack)
    (hjoins : a.Joins s id el' stray parent a') : a'.Spaced s keeps stack := by
  cases hjoins with
  | root | extra | forbidden => exact h
  | rootBranch => exact addBranch_spaced h _ _
  | lone => exact upToElement_spaced h (hparent _ rfl)
  | branch => exact addBranch_spaced (upToElement_spaced h (hparent _ rfl)) _ _
  | slot => exact h.relink fun _ => rfl
  | @child p =>
    refine h.modify (fun _ _ => rfl) (fun q hq y hy => ?_) (fun q hq => ?_)
      fun _ _ => .inl (hparent _ rfl)
    · rcases mem_append.mp hy with hy | hy
      · exact h.inTree p q hq y hy
      · rw [mem_singleton.mp hy]
        exact lt_size_of_element? hid
    · refine (h.single p q hq).append (.singleton id) fun y _ z hz hboth => ?_
      rw [head?_cons, mem_some] at hz
      rw [← hz, isSpace_of_element hid] at hboth
      cases hboth.2

theorem close_spaced (ho : o.KeepsContent)
    (h : b.ast.Spaced o.toSettings b.keepsSpace (id :: b.stack)) :
    (b.close o id).Yields fun b' => b'.ast.Spaced o.toSettings b'.keepsSpace b'.stack := by
  obtain ⟨el, hel⟩ := isSome_iff_exists.mp h.nested.1
  obtain ⟨htag, hstarts, hlast⟩ := b.trimmed_content el
  rw [close_eq hel]
  refine .bind (finished_content ho b id (b.trimmed el)) fun el' hel' => .lift ?_
  have htag' : el'.tag = el.tag := (congrArg Prod.fst hel').trans htag
  have hkids : el'.children = (b.trimmed el).children := congrArg Prod.snd hel'
  rw [← hkids] at hstarts hlast
  -- The element is changed while it still counts as open, and then taken off the open ones.
  have hset : (b.ast.setElement id el').Spaced o.toSettings b.keepsSpace (id :: b.stack) := by
    refine h.modify (fun old hold => ?_) (fun old hold y hy => ?_) (fun old hold => ?_)
      fun _ _ => .inl (by simp) <;> cases hel.symm.trans hold
    · exact htag'
    · exact h.inTree id el hel y (hstarts.subset hy)
    · exact List.IsChain.prefix (h.single id el hel) hstarts
  have hself : (b.ast.setElement id el').element? id = some el' := element?_modifyElement_self hel
  have hclosed := hset.pop hself fun hkeeps y hy => by
    rw [setElement, isSpace_modifyElement]
    exact hlast hkeeps y hy
  obtain ⟨_, _, heq, hjoins, -⟩ := joined_joins o.toSettings b id el'
  rw [heq]
  exact joins_spaced hclosed hself (fun _ => mem_of_mem_head?) hjoins

end Builder

/-! ## Taking a start tag -/

section Expansion

variable {o : Options}

theorem branchElement_content (ho : o.KeepsContent) (branch : Branch) :
    (branchElement o above el first branch).Yields (·.content = (el.tag, [])) := by
  obtain ⟨_, _, _, _, heq, -⟩ := result_branchElement o above el first branch
  unfold Outcome.Yields
  rw [heq]
  exact Element.process_content ho

theorem otherBranches_content (ho : o.KeepsContent) (branches : List Branch) :
    (otherBranches o above el branches).Yields fun clones =>
      ∀ clone ∈ clones, clone.content = (el.tag, []) := by
  induction branches with
  | nil => exact .pure (by simp)
  | cons branch rest ih =>
    refine .bind (branchElement_content ho branch) fun clone hclone => ?_
    refine .bind ih fun others hoth => .pure fun c hc => ?_
    rcases mem_cons.mp hc with rfl | hc
    · exact hclone
    · exact hoth c hc

end Expansion

namespace Builder

variable {o : Options} {b : Builder} {id p : NodeId} {el : Element} {tag : String}
  {attrs : List Attr} {unary : Bool} {span : Span}

/-- An expansion adds elements without content beside the element, whose tag stays the same. -/
theorem expanded_content (ho : o.KeepsContent) (hel : el.children = []) :
    (b.expanded o id el).Yields fun r => ∃ others,
      r.1 = { b with ast := b.ast.pushElements b.parent? others } ∧
        (∀ other ∈ others, other.children = []) ∧ r.2.content = (el.tag, []) := by
  have hsame : el.content = (el.tag, []) := congrArg (Prod.mk el.tag) hel
  refine .bind (fun _ _ => trivial) fun r _ => ?_
  cases r with
  | none => exact .pure ⟨[], rfl, by simp, hsame⟩
  | some e =>
    unfold expand
    dsimp only
    split
    · rw [linkChain_eq]
      exact .pure ⟨[], rfl, by simp, hsame⟩
    · next branch rest _ =>
      refine .bind (branchElement_content ho branch) fun head hhead => ?_
      refine .bind (otherBranches_content ho rest) fun others hoth => .pure ?_
      refine ⟨others, rfl, fun other hother => congrArg Prod.snd (hoth other hother), ?_⟩
      rw [linkChain_eq]
      exact hhead

theorem enter_content (s : Settings) (b : Builder) (el : Element) :
    (b.enter s el).2.content = el.content := by
  unfold enter
  split
  · rfl
  · rw [Element.takePre_eq]
    rfl

theorem structured_content (s : Settings) (b : Builder) (id : NodeId) (el : Element) :
    (b.structured s id el).value.content = el.content := by
  unfold structured
  split
  · rw [Element.keepAttributes_eq]
    rfl
  · split
    · rfl
    · obtain ⟨_, _, _, _, _, _, _, heq, -⟩ := el.structural_cases s id
      rw [heq]
      rfl

/-- The element of a start tag is put into the tree with others beside it. None of them has content
yet, and its tag stays the same. -/
theorem placed_content (ho : o.KeepsContent) (b : Builder) :
    (b.placed o tag attrs span).Yields fun b' => ∃ (new el : Element) (others : List Element)
    (a : Ast),
      new.content = (tag, []) ∧ el.content = (tag, []) ∧ (∀ other ∈ others, other.children = []) ∧
      a.nodes = ((b.ast.push b.parent? (.element new)).pushElements b.parent? others).nodes ∧
      b'.ast = a.setElement b.ast.nodes.size el ∧ b'.stack = b.stack ∧
      b'.keepsSpace = (b.keepsSpace || o.tags.isPre tag) := by
  have hnew : (b.newElement o.toSettings tag attrs span).content = (tag, []) := rfl
  unfold placed
  dsimp only [nextId]
  generalize b.newElement o.toSettings tag attrs span = new at hnew ⊢
  obtain ⟨rfl, hempty⟩ := Prod.mk.inj hnew
  refine .bindLift (.bindLift (.bind (expanded_content ho hempty) fun r hr =>
    .bindLift (.bindLift (.pure ?_))))
  obtain ⟨others, hr, hoth, hcont⟩ := hr
  have henter := (enter_content o.toSettings r.1 r.2).trans hcont
  have hstruct := (structured_content o.toSettings (r.1.enter o.toSettings r.2).1
    b.ast.nodes.size (r.1.enter o.toSettings r.2).2).trans henter
  generalize ((r.1.enter o.toSettings r.2).1.structured o.toSettings b.ast.nodes.size
    (r.1.enter o.toSettings r.2).2).value = el at hstruct ⊢
  obtain ⟨reported, hroot⟩ :=
    withRoot_eq o.toSettings (r.1.enter o.toSettings r.2).1 b.ast.nodes.size el
  rw [hroot]
  refine ⟨new, el, others, _, hnew, hstruct, hoth, congrArg (·.ast.nodes) hr, rfl,
    congrArg (·.stack) hr, ?_⟩
  -- The flag looks at the tag that the element has after its expansion.
  show (r.1.keepsSpace || o.tags.isPre (r.1.enter o.toSettings r.2).2.tag) = _
  rw [show (r.1.enter o.toSettings r.2).2.tag = new.tag from congrArg Prod.fst henter, hr]

theorem placed_spaced (ho : o.KeepsContent) (h : b.ast.Spaced o.toSettings b.keepsSpace b.stack) :
    (b.placed o tag attrs span).Yields fun b' =>
      b'.ast.Spaced o.toSettings b'.keepsSpace (b.ast.nodes.size :: b.stack) ∧
        b'.stack = b.stack := by
  refine (placed_content ho b).mono ?_
  rintro b' ⟨new, el, others, ⟨_, root⟩, hnew, hel, hoth, rfl, hast, hstk, hflag⟩
  obtain ⟨rfl, hempty⟩ := Prod.mk.inj hnew
  obtain ⟨htag, hkids⟩ := Prod.mk.inj hel
  have hpar (p : NodeId) (hp : p ∈ b.parent?) : p < b.ast.nodes.size :=
    h.nested.lt_size p (mem_of_mem_head? hp)
  have hpush : (b.ast.push b.parent? (.element new)).Spaced o.toSettings b.keepsSpace b.stack := by
    refine h.push hpar (fun el heq => ?_) fun _ _ _ _ _ heq => ?_
    · cases heq
      exact hempty
    · cases heq
  have hpushed : ((b.ast.push b.parent? (.element new)).pushElements b.parent? others).Spaced
      o.toSettings b.keepsSpace b.stack := by
    refine hpush.pushElements (fun p hp => ?_) hoth
    rw [size_push]
    exact Nat.lt_succ_of_lt (hpar p hp)
  have hself : ((b.ast.push b.parent? (.element new)).pushElements b.parent? others).element?
      b.ast.nodes.size = some new := by
    rw [element?_eq_some_iff, kind?_pushElements, size_push, if_pos (Nat.lt_succ_self _),
      kind?_push, if_pos rfl]
  have hhead : ((b.ast.push b.parent? (.element new)).pushElements b.parent? others).parent?
      b.ast.nodes.size = b.stack.head? := by
    rw [(Extends.pushElements ..).parent _ (by simp), parent?_push, if_pos rfl]
    rfl
  refine ⟨?_, hstk⟩
  rw [hast, hflag]
  refine ((hpushed.enter hself hhead).reroot _).modify (fun old hold => ?_)
    (fun old hold y hy => ?_)
    (fun old hold => ?_) fun _ _ => .inl (by simp)
  · cases hself.symm.trans hold
    exact htag
  · rw [hkids] at hy
    cases hy
  · rw [hkids]
    exact .nil

theorem openElement_spaced (ho : o.KeepsContent)
    (h : b.ast.Spaced o.toSettings b.keepsSpace b.stack) :
    (b.openElement o tag attrs unary span).Yields fun b' =>
      b'.ast.Spaced o.toSettings b'.keepsSpace b'.stack := by
  rw [openElement_eq]
  refine .bind (placed_spaced ho h) fun b₁ ⟨hspaced, hstk⟩ => ?_
  rw [← hstk] at hspaced
  split
  · exact close_spaced ho hspaced
  · exact .pure hspaced

/-! ## Texts and comments -/

theorem Adds.space
    (h : b.Adds o p signal (.text " " tokens isStatic)) (hel : b.ast.element? p = some el) :
    el.children.getLast?.any b.ast.isSpace = false := by
  generalize htext : NodeKind.text " " tokens isStatic = kind at h
  cases h with
  | comment => cases htext
  | text content span hpar hkept htokens hspace =>
    cases hel.symm.trans hpar
    obtain ⟨heq, rfl, -⟩ := NodeKind.text.inj htext
    rw [← heq] at htokens hspace
    simpa [htokens] using hspace

theorem Adds.condensed {text : String} (h : b.Adds o p signal (.text text tokens isStatic))
    (hcondense : o.whitespace = .condense) (hkeeps : b.keepsSpace = false) :
    Condensed text.toList := by
  cases h with
  | text content span hpar hkept htokens hspace =>
    unfold keptText
    simp only [hcondense, hkeeps, Bool.not_false, Bool.true_and, decide_true, if_true,
      String.toList_ofList]
    exact (condensed_collapseBlanks false _).1

theorem addChild_spaced {rest : List NodeId}
    (h : b.ast.Spaced o.toSettings b.keepsSpace b.stack) (hstk : b.stack = p :: rest)
    (hkind : b.Adds o p signal kind) :
    (b.addChild p kind).ast.Spaced o.toSettings b.keepsSpace b.stack := by
  obtain ⟨el, hel⟩ := h.nested.elements p (by simp [hstk])
  have hlt : p < b.ast.nodes.size := lt_size_of_element? hel
  have hpush : (b.ast.push (some p) kind).Spaced o.toSettings b.keepsSpace b.stack := by
    refine h.push (fun q hq => ?_) (fun el heq => absurd heq (hkind.ne_element el))
      fun hcondense habove content tokens isStatic heq => ?_
    · cases hq
      exact hlt
    · -- The flag is not set where no open element keeps its white space.
      have hopen := h.parents.anyAt_head o.toSettings.isPre h.nested
      rw [hstk, head?_cons, habove] at hopen
      subst heq
      refine hkind.condensed hcondense ?_
      cases hkeeps : b.keepsSpace with
      | false => rfl
      | true =>
        have := h.flag hkeeps
        rw [hstk, ← hopen] at this
        cases this
  have hel' : (b.ast.push (some p) kind).element? p = some el := by
    rwa [element?_push_of_lt hlt]
  refine hpush.modify (fun _ _ => rfl) (fun q hq y hy => ?_) (fun q hq => ?_)
    (fun _ _ => .inl (by simp [hstk])) <;> cases hel'.symm.trans hq
  · rcases mem_append.mp hy with hy | hy
    · exact hpush.inTree p el hel' y hy
    · rw [mem_singleton.mp hy]
      simp
  · refine (hpush.single p el hel').append (.singleton _) fun y hy z hz hboth => ?_
    rw [head?_cons, mem_some] at hz
    rw [← hz, nextId, isSpace_push (h.inTree p el hel y (mem_of_getLast? hy))] at hboth
    obtain ⟨hlast, hnew⟩ := hboth
    unfold isSpace at hnew
    rw [kind?_push, if_pos rfl] at hnew
    cases kind with
    | element el => exact hkind.ne_element el rfl
    | comment content isStatic => cases hnew
    | text content tokens isStatic =>
      obtain rfl := of_decide_eq_true hnew
      have hnot := hkind.space hel
      rw [mem_def.mp hy, any_some, hlast] at hnot
      cases hnot

/-! ## All signals -/

theorem signal_spaced (ho : o.KeepsContent) (h : b.ast.Spaced o.toSettings b.keepsSpace b.stack)
    (source : String) : (b.signal o source signal).Yields fun b' =>
      b'.ast.Spaced o.toSettings b'.keepsSpace b'.stack := by
  have hacts := b.signal_acts o source signal
  generalize b.signal o source signal = x at hacts ⊢
  cases hacts with
  | warning w span => exact .bindLift (.pure h)
  | opened tag attrs unary span => exact openElement_spaced ho h
  | @closed id rest tag span hstk =>
    rw [hstk] at h
    exact close_spaced ho h
  | outside content span =>
    obtain ⟨_, _, heq⟩ := textOutside_eq source b content
    exact .lift (heq ▸ h)
  | child hstk hkind => exact .pure (addChild_spaced h hstk hkind)
  | unopened | textDropped | commentDropped => exact .pure h

theorem signals_spaced (ho : o.KeepsContent) (h : b.ast.Spaced o.toSettings b.keepsSpace b.stack)
    (source : String) (signals : List Signal) :
    (Builder.signals o source signals b).Yields fun b' =>
      b'.ast.Spaced o.toSettings b'.keepsSpace b'.stack := by
  induction signals generalizing b with
  | nil => exact .pure h
  | cons first later ih =>
    exact .bind (signal_spaced ho h source) fun b' hb' => ih hb'

theorem spaced_empty (s : Settings) : ({} : Ast).Spaced s false [] where
  parents _ _ h := by cases h
  nested := trivial
  inTree _ _ h := by cases h
  single _ _ h := by cases h
  trimmed _ _ h := by cases h
  condensed _ _ _ _ _ h := by cases h
  flag h := by cases h

end Builder

/-- Every tree that a template is read into has its white space in normal form. -/
theorem parse_yields_spaced (o : Options) (ho : o.KeepsContent) (source : String) :
    (parse o source).Yields (Spaced o.toSettings false []) := by
  refine .bind (.and (Builder.signals_spaced ho (Builder.spaced_empty o.toSettings) source _)
    (Builder.signals_read_stack o source)) fun b ⟨hspaced, hstk⟩ => ?_
  rw [hstk] at hspaced
  have hspaced' : b.ast.Spaced o.toSettings false [] := { hspaced with flag := nofun }
  split
  · exact .bindLift (.pure hspaced')
  · exact .pure hspaced'

/-- **White space in a tree.** Whatever the template and the settings are, as long as no extension
touches the tag or the children of an element: no element has two spaces in a row among its
children. An element that neither keeps its white space nor stands inside one that does has no space
at its end. With condensed white space, a text that does not stand inside such an element has no
tabs, line breaks or form feeds, and no two spaces in a row. -/
theorem parse_spaced (o : Options) (ho : o.KeepsContent) (source : String) {tree : Ast}
    (htree : (parse o source).result = .ok tree) :
    (∀ x el, tree.element? x = some el →
      el.children.IsChain fun y z => ¬ (tree.isSpace y = true ∧ tree.isSpace z = true)) ∧
    (∀ x el, tree.element? x = some el →
      (∀ e ∈ el :: tree.ancestorElements x, o.tags.isPre e.tag = false) →
        ∀ last, el.children.getLast? = some last → tree.isSpace last = false) ∧
    (o.whitespace = .condense → ∀ x content tokens isStatic,
      tree.kind? x = some (.text content tokens isStatic) →
      (∀ e ∈ tree.ancestorElements x, o.tags.isPre e.tag = false) →
        (∀ c ∈ content.toList, c ∉ ['\t', '\n', '\r', '\x0c']) ∧
          content.toList.IsChain fun c d => ¬ (c = ' ' ∧ d = ' ')) := by
  have h := parse_yields_spaced o ho source tree htree
  have habove (x : NodeId) (hx : ∀ e ∈ tree.ancestorElements x, o.tags.isPre e.tag = false) :
      tree.anyAbove o.toSettings.isPre x = false := by
    rw [anyAbove, List.any_eq_false]
    intro e he
    rw [Settings.isPre, hx e he]
    exact Bool.false_ne_true
  refine ⟨h.single, fun x el hel hx last hlast => ?_,
    fun hcondense x content tokens isStatic hkind hx => ?_⟩
  · exact h.trimmed x el hel (by simp) (hx el (by simp))
      (habove x fun e he => hx e (by simp [he])) last hlast
  · obtain ⟨hblank, hsingle⟩ := h.condensed hcondense x content tokens isStatic hkind (habove x hx)
    exact ⟨hblank, hsingle⟩

/-- With a scripted module and a scripted directive beside those of the web: the space before the
end tag of the outer element is dropped although a comment stands before it, and what is left in the
inner element of a tab and a space is one space. -/
theorem parse_spaced_scripted :
    ∃ o : Options, o.KeepsContent ∧ o.whitespace = .condense ∧ ∃ tree outer,
      (parse o "<div> <pre> a  b </pre> <s r-mark>x\t y </s> <!-- c --> </div>").result = .ok tree ∧
        tree.element? 0 = some outer ∧ outer.children.length = 3 ∧
        (∀ last, outer.children.getLast? = some last → tree.isSpace last = false) ∧
        ∀ content tokens isStatic, tree.kind? 5 = some (.text content tokens isStatic) →
          content.toList.IsChain fun c d => ¬ (c = ' ' ∧ d = ' ') := by
  let o : Options :=
    { Web.options with
      whitespace := .condense
      modules := Web.modules ++ [ModuleScript.toModule { extra := [("seen", .bool true)] }]
      directives := Web.directives.insert "mark" (DirectiveScript.toHandler { name := "mark" }) }
  have ho : o.KeepsContent := by
    refine Options.keepsContent_of_scripts (fun m hm => ?_) fun name handler hget => ?_
    · exact (mem_append.mp hm).imp_right fun h => ⟨_, mem_singleton.mp h⟩
    · rw [Dict.get?_insert] at hget
      split at hget
      · exact .inr ⟨_, (Option.some.inj hget).symm⟩
      · exact .inl ⟨name, hget⟩
  have hcheck : ((parse o "<div> <pre> a  b </pre> <s r-mark>x\t y </s> <!-- c --> </div>"
      ).result.toOption.any fun tree =>
        ((tree.element? 0).any fun el => el.children.length = 3 &&
          (el :: tree.ancestorElements 0).all fun e => !o.tags.isPre e.tag) &&
        (tree.ancestorElements 5).all fun e => !o.tags.isPre e.tag) = true := by
    decide +kernel
  obtain ⟨tree, htree, hcheck⟩ := exists_ok_of_any hcheck
  simp only [Bool.and_eq_true, Option.any_eq_true, decide_eq_true_iff, List.all_eq_true,
    Bool.not_eq_true'] at hcheck
  obtain ⟨⟨outer, houter, hlength, hpre⟩, hpre'⟩ := hcheck
  obtain ⟨-, htrimmed, hcondensed⟩ := parse_spaced o ho _ htree
  exact ⟨o, ho, rfl, tree, outer, htree, houter, hlength, htrimmed 0 outer houter hpre,
    fun content tokens isStatic htext => (hcondensed rfl 5 content tokens isStatic htext hpre').2⟩

/-- A module that renames the elements that keep their white space: what was kept in one is left in
an element of another name, with a space at its end. -/
theorem parse_renamedPre :
    let renamer : Module :=
      { transform := fun _ el => pure (if el.tag = "pre" then { el with tag := "div" } else el) }
    let o : Options := { Web.options with modules := [renamer] }
    ∃ tree el last, (parse o "<pre>a<b></b> </pre>").result = .ok tree ∧
      tree.element? 0 = some el ∧
      (∀ e ∈ el :: tree.ancestorElements 0, o.tags.isPre e.tag = false) ∧
      el.children.getLast? = some last ∧ tree.isSpace last = true := by
  intro renamer o
  have hcheck : ((parse o "<pre>a<b></b> </pre>").result.toOption.any fun tree =>
      (tree.element? 0).any fun el => (el :: tree.ancestorElements 0).all (!o.tags.isPre ·.tag) &&
        el.children.getLast?.any tree.isSpace) = true := by
    decide +kernel
  obtain ⟨tree, htree, hcheck⟩ := exists_ok_of_any hcheck
  simp only [Option.any_eq_true, Bool.and_eq_true, List.all_eq_true, Bool.not_eq_true'] at hcheck
  obtain ⟨el, hel, hpre, last, hlast, hspace⟩ := hcheck
  exact ⟨tree, el, last, htree, hel, hpre, hlast, hspace⟩

end TemplateCompiler
