import TemplateCompiler.Proofs.Segments
import TemplateCompiler.Proofs.Spacing

/-!
# Texts where white space is kept

The builder has one flag for all tags that keep their white space. It is set at the start tag of any
of them, and taken back at the end tag of any of them. So it is set where such a tag has been opened
and none has been closed since (`spaceKept`), which is less than that one of them is open. Where it
is set, a text that is read is kept as it is, with its references decoded, unless it is a second
space in a row (`signal_keptText`). This is about the step that reads the text. A later step may
still take a space away: an end tag, if a tag inside has taken the flag back, and a branch of a
condition, which drops what stands between it and the branch before.
-/

namespace TemplateCompiler

open Markup List Option Text Builder

variable {o : Options} {source content tag : String} {attrs : List Attr} {span : Span}
  {done : List Signal} {signal : Signal} {tags tags' : List String} {t : TagTable}

/-! ## Tags that keep white space -/

/-- What a signal says about a tag that keeps white space: that it starts, or that it ends. -/
def Markup.Signal.startsPre? (t : TagTable) : Signal → Option Bool
  | .event (.opened tag _ unary _) => if t.isPre tag then some !unary else none
  | .event (.closed tag _) => if t.isPre tag then some false else none
  | _ => none

/-- Whether white space is kept behind the signals: among the tags that keep it, the last one that
starts or ends there is one that starts. -/
def spaceKept (t : TagTable) (signals : List Signal) : Bool :=
  (signals.reverse.findSome? (·.startsPre? t)).getD false

theorem spaceKept_concat :
    spaceKept t (done ++ [signal]) = (signal.startsPre? t).getD (spaceKept t done) := by
  rw [spaceKept, reverse_append, reverse_singleton, singleton_append, findSome?_cons]
  cases signal.startsPre? t <;> rfl

/-! ## The flag -/

theorem Options.UsesWeb.keepsContent (ho : o.UsesWeb) : o.KeepsContent :=
  Options.keepsContent_of_scripts (fun m hm => .inl (ho.modules m hm))
    fun name handler h => .inl (ho.directives name handler h)

namespace Builder

variable {b b' : Builder} {id : NodeId} {el : Element} {seen : List Signal}

theorem close_kept (ho : o.KeepsContent) (hel : b.ast.element? id = some el) :
    (b.close o id).Yields (·.keepsSpace = (b.keepsSpace && !o.tags.isPre el.tag)) := by
  rw [close_eq hel]
  refine .bind (finished_content ho b id (b.trimmed el)) fun el' hel' => .lift ?_
  have htag : el'.tag = el.tag := (congrArg Prod.fst hel').trans (b.trimmed_content el).1
  obtain ⟨_, _, heq, -⟩ := joined_joins o.toSettings b id el'
  rw [heq, htag]

def Tagged (a : Ast) : List NodeId → List String → Prop :=
  List.Forall₂ fun id tag => ∃ el, a.element? id = some el ∧ el.tag = tag

theorem Tagged.relinked {a a' : Ast} {stack : List NodeId} (h : Tagged a stack tags)
    (hlinks : ∀ x ∈ stack, a.Relinked a' x) : Tagged a' stack tags :=
  Ast.forall₂_relinked (fun _ _ _ heq htag => (congrArg (·.tag) heq).trans htag) h hlinks

/-- The open elements are those of the open tags, and the flag says whether white space is kept. -/
structure Follows (o : Options) (done : List Signal) (tags : List String) (b : Builder) : Prop where
  opened : Tagged b.ast b.stack tags
  flag : b.keepsSpace = spaceKept o.tags done

/-- A signal that is no tag leaves the open elements and the flag as they are. -/
theorem Follows.same (h : b.Follows o done tags) (hstk : b'.stack = b.stack)
    (hflag : b'.keepsSpace = b.keepsSpace) (hlinks : ∀ x ∈ b.stack, b.ast.Relinked b'.ast x)
    (hsignal : signal.startsPre? o.tags = none) : b'.Follows o (done ++ [signal]) tags where
  opened := hstk ▸ h.opened.relinked hlinks
  flag := by rw [hflag, h.flag, spaceKept_concat, hsignal, getD_none]

section

variable (ho : o.UsesWeb) (hkeeps : b.Keeps o seen) (h : b.Follows o done tags)

include ho hkeeps h

theorem openElement_follows (unary : Bool) : (b.openElement o tag attrs unary span).Yields
    (Follows o (done ++ [.event (.opened tag attrs unary span)])
      (if unary then tags else tag :: tags)) := by
  have hcontent := ho.keepsContent
  have hlt := hkeeps.tree.nested.lt_size
  rw [openElement_eq]
  refine .bind (placed_content hcontent b) ?_
  rintro b₁ ⟨new, el, others, a, -, hel, -, hnodes, hast, hstk, hflag⟩
  obtain ⟨rfl, -⟩ := Prod.mk.inj hel
  have hself := Ast.AddsElements.element?_place hnodes el
  have hadds : b.ast.AddsElements b.parent? (fun _ => True) (a.setElement _ el) :=
    .place hnodes trivial fun _ _ => trivial
  rw [← hast] at hself hadds
  have hopened := h.opened.relinked fun x hx => .ofSame (hadds.old_element (hlt x hx))
  cases unary with
  | true =>
    refine ((close_kept hcontent hself).and (close_same o b₁ _)).mono
      fun b₂ ⟨hflag', hstk', _, hlinks'⟩ => ⟨?_, ?_⟩
    · rw [hstk', hstk]
      exact hopened.relinked fun x hx => hlinks' x (Nat.ne_of_lt (hlt x hx))
    · rw [hflag', hflag, spaceKept_concat, ← h.flag, Signal.startsPre?]
      cases o.tags.isPre el.tag <;> simp
  | false =>
    refine .pure ⟨?_, ?_⟩
    · rw [hstk]
      exact .cons ⟨el, hself, rfl⟩ hopened
    · show b₁.keepsSpace = _
      rw [hflag, spaceKept_concat, ← h.flag, Signal.startsPre?]
      cases o.tags.isPre el.tag <;> simp

theorem signal_follows (hopen : openAfter [signal] tags = some tags') :
    (b.signal o source signal).Yields (Follows o (done ++ [signal]) tags') := by
  have hacts := b.signal_acts o source signal
  generalize b.signal o source signal = x at hacts ⊢
  cases hacts with
  | warning w span =>
    cases hopen
    exact .bindLift (.pure (h.same rfl rfl (fun _ _ => .ofSame rfl) rfl))
  | opened tag attrs unary span =>
    cases hopen
    exact openElement_follows ho hkeeps h unary
  | @closed id rest tag span hstk =>
    have htree := hkeeps.tree
    have hopened := h.opened
    rw [hstk] at hopened htree
    obtain ⟨name, outer, ⟨el, hel, rfl⟩, hrest, rfl⟩ := forall₂_cons_left_iff.mp hopened
    rw [openAfter] at hopen
    split at hopen
    · next htag =>
      cases hopen
      refine ((close_kept (b := { b with stack := rest }) ho.keepsContent hel).and
        (close_same o _ id)).mono ?_
      rintro b' ⟨hflag, hstk', -, hlinks⟩
      refine ⟨?_, ?_⟩
      · rw [hstk']
        exact Tagged.relinked hrest fun x hx =>
          hlinks x (Nat.ne_of_lt (htree.nested.lt htree.toWellFormed x hx))
      · rw [hflag, spaceKept_concat, ← h.flag, htag, Signal.startsPre?]
        cases o.tags.isPre tag <;> simp
    · cases hopen
  | unopened tag span hstk =>
    have hopened := h.opened
    rw [hstk] at hopened
    cases hopened
    cases hopen
  | outside content span =>
    cases hopen
    obtain ⟨_, _, heq⟩ := textOutside_eq source b content
    exact .lift (heq ▸ h.same rfl rfl (fun _ _ => .ofSame rfl) rfl)
  | @child _ p _ kind _ hkind =>
    have hchild (x : NodeId) (hx : x ∈ b.stack) : b.ast.Relinked (b.addChild p kind).ast x :=
      addChild_relinked p kind (hkeeps.tree.nested.lt_size x hx)
    cases hkind <;> cases hopen <;> exact .pure (h.same rfl rfl hchild rfl)
  | textDropped | commentDropped =>
    cases hopen
    exact .pure (h.same rfl rfl (fun _ _ => .ofSame rfl) rfl)

theorem signals_follows (source : String) {signals : List Signal} (hseen : signals ⊆ seen)
    (hopen : openAfter signals tags = some tags') :
    (Builder.signals o source signals b).Ensures (Follows o (done ++ signals) tags') := by
  induction signals generalizing b tags done with
  | nil =>
    cases hopen
    rw [append_nil]
    exact .pure h
  | cons first later ih =>
    obtain ⟨hfirst, hlater⟩ := cons_subset.mp hseen
    rw [← singleton_append, openAfter_append] at hopen
    obtain ⟨inner, hinner, hopen⟩ := bind_eq_some_iff.mp hopen
    refine .bind ((signal_spec ho hkeeps source hfirst).andYields
      (signal_follows ho hkeeps h hinner)) fun b' ⟨hkeeps', h'⟩ => ?_
    rw [← singleton_append, ← List.append_assoc]
    exact ih hkeeps' h' hlater hopen

end

end Builder

/-! ## Texts -/

theorem Text.decodeReferences_ne_empty (h : content ≠ "") : decodeReferences content ≠ "" := by
  intro hempty
  have hnil : decodeChars content.toList = [] := String.ofList_eq_empty_iff.mp hempty
  cases hcs : content.toList with
  | nil => exact h (String.toList_eq_nil_iff.mp hcs)
  | cons c cs =>
    rw [hcs, decodeChars] at hnil
    split at hnil
    · split at hnil <;> cases hnil
    · cases hnil

theorem Markup.ne_empty_of_mem_read {comments : Bool}
    (h : .event (.text content span) ∈ read t comments source) : content ≠ "" := by
  obtain ⟨segments, hchars, hprop, -, hyields⟩ := Scanner.segments_of_run t comments
    { cursor := { rest := source.toList } } trivial
  have hlies := hyields.liesIn hprop _ (mem_placed h rfl)
  rw [hchars] at hlies
  exact (hlies.place.2.2 content rfl).1

/-- **Where text is read as it is.** Before a text of a template, the flag of the builder is set
exactly if a tag that keeps white space has been opened and none has been closed since. Then an
element with such a tag is open, no space at the end of the innermost open element would be dropped
if it were closed right here, and inside of an element other than a script or style the text is
added as it is, with its references decoded, unless it is a space that follows a space. -/
theorem signal_keptText (ho : o.UsesWeb) {before after : List Signal}
    (hread : read o.tags o.comments source = before ++ .event (.text content span) :: after) :
    ∃ b, (signals o source before {}).result = .ok b ∧ b.keepsSpace = spaceKept o.tags before ∧
      (spaceKept o.tags before →
        (∃ x ∈ b.stack, ∃ el, b.ast.element? x = some el ∧ o.tags.isPre el.tag = true) ∧
        ∃ p parent, b.parent? = some p ∧ b.ast.element? p = some parent ∧
          b.trimmed parent = parent ∧
          (parent.tag ≠ "script" → parent.tag ≠ "style" → ∃ tokens,
            (b.signal o source (.event (.text content span))).result = .ok
              (if decodeReferences content = " " ∧ parent.children.getLast?.any b.ast.isSpace then b
              else b.addChild p (.text (decodeReferences content) tokens false)))) := by
  have hmem : .event (.text content span) ∈ read o.tags o.comments source := by simp [hread]
  have hopen := openAfter_read o.tags o.comments source
  rw [hread, openAfter_append] at hopen
  obtain ⟨tags, htags, -⟩ := bind_eq_some_iff.mp hopen
  have hseen : before ⊆ read o.tags o.comments source := by simp [hread]
  have hempty : ({} : Builder).Follows o [] [] := ⟨.nil, rfl⟩
  obtain ⟨b, hb, hfollows⟩ :=
    signals_follows ho (keeps_empty o) hempty source hseen htags
  refine ⟨b, hb, hfollows.flag, fun hkept => ?_⟩
  have hflag := hfollows.flag.trans hkept
  have hspaced := signals_spaced ho.keepsContent (spaced_empty o.toSettings) source before b hb
  obtain ⟨x, hx, hpre⟩ := List.any_eq_true.mp (hspaced.flag hflag)
  refine ⟨⟨x, hx, (any_eq_true _ _).mp hpre⟩, ?_⟩
  cases hstk : b.stack with
  | nil =>
    rw [hstk] at hx
    cases hx
  | cons p rest =>
    obtain ⟨parent, hpar⟩ := hspaced.nested.elements p (by simp [hstk])
    have hp : b.parent? = some p := by rw [parent?, hstk, head?_cons]
    refine ⟨p, parent, hp, hpar, if_pos hflag, fun hscript hstyle => ?_⟩
    have htext : b.keptText o.toSettings parent content = decodeReferences content := by
      simp [keptText, hflag, hscript, hstyle]
    have hne := decodeReferences_ne_empty (ne_empty_of_mem_read hmem)
    refine ⟨if b.asWritten || decodeReferences content = " " then none
      else Interpolation.parse? o.delimiters (decodeReferences content), ?_⟩
    simp only [signal, hp, hpar, addText, htext, if_neg hne]
    by_cases hspace : decodeReferences content = " " <;> simp [hspace]

/-- A comment is dropped, and then the second of the two spaces around it. -/
theorem signal_keptText_space :
    let source := "<pre> <!--c--> </pre>"
    let before : List Signal := [.event (.opened "pre" [] false ⟨0, 5⟩), .event (.text " " ⟨5, 6⟩)]
    spaceKept Web.options.tags before ∧ ∃ b, (signals Web.options source before {}).result = .ok b ∧
      (b.signal Web.options source (.event (.text " " ⟨14, 15⟩))).result = .ok b := by
  intro source before
  have hread : read Web.options.tags Web.options.comments source =
      before ++ .event (.text " " ⟨14, 15⟩) :: [.event (.closed "pre" ⟨15, 21⟩)] := by
        decide +kernel
  have hkept : spaceKept Web.options.tags before := by decide
  obtain ⟨b, hb, -, h⟩ := signal_keptText Web.usesWeb_options hread
  obtain ⟨-, p, parent, hp, hpar, -, htext⟩ := h hkept
  have hcheck := check_ok hb (fun b => (b.parent?.bind b.ast.element?).any fun parent =>
    parent.tag = "pre" && parent.children.getLast?.any b.ast.isSpace) (by decide +kernel)
  simp only [hp, hpar, bind_some, any_some, Bool.and_eq_true, decide_eq_true_iff] at hcheck
  obtain ⟨tokens, hsignal⟩ := htext (by simp [hcheck.1]) (by simp [hcheck.1])
  refine ⟨hkept, b, hb, ?_⟩
  rw [hsignal, if_pos ⟨by decide +kernel, hcheck.2⟩]

end TemplateCompiler
