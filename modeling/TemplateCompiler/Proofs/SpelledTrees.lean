import TemplateCompiler.Proofs.Relocation
import TemplateCompiler.Proofs.StaticContent
import TemplateCompiler.Proofs.Tending

/-!
# Trees of templates that are spelled differently

Two templates are read side by side, the second of which has names of attributes in their long form.
`Builder.Alike` says what the builders have in common after each signal: the same nodes with the
same links, and elements that are alike. Each step of the builder keeps this, so the trees are the
same but for their markup (`parse_agree`).

Content that is left as written would show how it is spelled, so there must not be any.
-/

namespace TemplateCompiler

open Markup List Ast Option

variable {name source source' content type : String} {attrs attrs' : List Attr}
  {above above' : List Element}
  {branches branches' : List Branch} {kind kind' : NodeKind} {f : Element → Element} {a a' : Ast}
  {ids : List NodeId}

/-! ## Start tags -/

namespace Dict

variable {β : Type}

theorem get?_ofList_rename {σ : Equiv.Perm String} {entries entries' : List (String × β)}
    (h : List.Forall₂ (fun e e' => e'.1 = σ e.1 ∧ e'.2 = e.2) entries entries') :
    (ofList entries').get? (σ name) = (ofList entries).get? name := by
  have hfold (d d' : Dict β) (hd : ∀ name, d'.get? (σ name) = d.get? name) :
      ∀ name, (entries'.foldl (fun d e => d.insert e.1 e.2) d').get? (σ name) =
        (entries.foldl (fun d e => d.insert e.1 e.2) d).get? name := by
    induction h generalizing d d' with
    | nil => exact hd
    | cons he hrest ih =>
      refine ih _ _ fun name => ?_
      simp only [get?_insert, he.1, he.2, hd, EmbeddingLike.apply_eq_iff_eq]
  exact hfold {} {} (fun _ => rfl) name

end Dict

namespace Element

variable {r : Respelling} {el el' : Element} {attrs attrs' : List Attr}

theorem ofTag_alike (h : r.Spells attrs attrs') (hpre : ∀ attr ∈ attrs, attr.name ≠ "r-pre")
    (tag : String) : (ofTag tag attrs).Alike r (ofTag tag attrs') := by
  have hnone {name : String} (hname : ∀ attr ∈ attrs, attr.name ≠ name) :
      (ofTag tag attrs).attr? name = none := by
    have hcontains := Dict.contains_ofList (attrs.map fun a => (a.name, a.value)) name
    rw [List.any_eq_false.mpr (by simpa using hname)] at hcontains
    exact isNone_iff_eq_none.mp (isSome_eq_false_iff.mp hcontains)
  refine ⟨(ofTag tag attrs').writing, rfl, h, fun name => Dict.get?_ofList_rename ?_,
    fun name hname => hnone (h.fresh name hname), hnone hpre, rfl⟩
  rw [forall₂_map_left_iff, forall₂_map_right_iff]
  exact h.pairs.imp fun _ _ hattr => ⟨hattr.name, hattr.value⟩

theorem Alike.withSpan (h : el.Alike r el') (span span' : Span) :
    Element.Alike r { el with span } { el' with span := span' } := by
  obtain ⟨w, rfl, hw⟩ := h
  exact ⟨{ w with span := span' }, rfl, { hw with }⟩

theorem Alike.eraseSource (h : el.Alike r el') (hname : isPlainName name) :
    Element.Alike r { el with source := el.source.erase name }
      { el' with source := el'.source.erase name } := by
  obtain ⟨w, rfl, hw⟩ := h
  have hrename : r.rename name = name := r.rename_of_isPlainName hname
  have hsrc (name : String) : w.source.get? (r.rename name) = el.source.get? name :=
    hw.source name
  have hfresh (name : String) (h : name ∈ r.long?) : el.source.get? name = none := hw.fresh name h
  have hproc : el.source.get? "r-pre" = none := hw.processed
  refine ⟨{ w with source := w.source.erase name }, rfl, ⟨hw.pending, fun other => ?_,
    fun other hother => ?_, ?_, hw.directives⟩⟩
  · have hother : r.rename other = name ↔ other = name := by
      nth_rewrite 1 [← hrename]
      exact EmbeddingLike.apply_eq_iff_eq _
    show (w.source.erase name).get? _ = (el.source.erase name).get? _
    simp only [Dict.get?_erase, hother, hsrc]
  · show (el.source.erase name).get? other = none
    rw [Dict.get?_erase, hfresh other hother, ite_self]
  · show (el.source.erase name).get? "r-pre" = none
    rw [Dict.get?_erase, hproc, ite_self]

theorem Alike.takeEntirely (h : el.Alike r el') (hname : isPlainName name) :
    Taken r (el.takeEntirely name) (el'.takeEntirely name) := by
  obtain ⟨hval, hrest⟩ := h.take_plain hname
  exact ⟨hval, hrest.eraseSource hname⟩

theorem Alike.attr?_pre (h : el.Alike r el') : el.attr? "r-pre" = none := by
  obtain ⟨w, -, hw⟩ := h
  exact hw.processed

def AlikeSome (el el' : Element) : Prop := ∃ r, el.Alike r el'

end Element

/-! ## Expansions -/

/-- Branches for elements that are alike. -/
structure Branch.Alike (branch branch' : Branch) : Prop where
  condition : branch'.condition = branch.condition
  attrs : ∃ r : Respelling, r.Spells branch.attrs branch'.attrs
  processed : ∀ attr ∈ branch.attrs, attr.name ≠ "r-pre"

/-- Expansions into elements that are alike. -/
structure Expansion.Alike (e e' : Expansion) : Prop where
  link : e'.link = e.link
  branches : List.Forall₂ Branch.Alike e.branches e'.branches

namespace Web

open Element

variable {r : Respelling} {el el' : Element}

theorem computedType?_alike (h : el.Alike r el') :
    computedType? "r-" el' = computedType? "r-" el := by
  have htype : isPlainName "type" := by decide
  have hbind : isPlainName ("r-" ++ "bind") := by decide
  have hbound : (el'.attr? ":type").or (el'.attr? ("r-" ++ "bind:type")) =
      (el.attr? ":type").or (el.attr? ("r-" ++ "bind:type")) := h.bound? "type"
  unfold computedType?
  rw [hbound, h.hasAttr_plain htype, h.attr?_plain hbind]

theorem chainLink_alike (h : el.Alike r el') : chainLink "r-" el' = chainLink "r-" el := by
  unfold chainLink
  rw [h.hasAttr_plain (by decide), h.attr?_plain (by decide)]

/-- The names that an expansion takes away, both forms of the type among them. -/
def strippedNames : List String := [":type", "r-bind:type", "r-if", "r-else", "r-else-if"]

theorem rename_mem_strippedNames : r.rename name ∈ strippedNames ↔ name ∈ strippedNames := by
  have hforward (name : String) (h : name ∈ strippedNames) : r.rename name ∈ strippedNames := by
    have hbound := r.rename_bound "type"
    simp only [strippedNames, mem_cons, not_mem_nil, or_false] at h
    rcases h with rfl | rfl | rfl | rfl | rfl
    · rcases hbound with rfl | ⟨hshort, -⟩
      · exact (Equiv.swap_apply_left (":type" : String) "r-bind:type") ▸ (by decide)
      · exact hshort ▸ (by decide)
    · rcases hbound with rfl | ⟨-, hlong⟩
      · exact (Equiv.swap_apply_right (":type" : String) "r-bind:type") ▸ (by decide)
      · exact hlong ▸ (by decide)
    all_goals
      rw [r.rename_of_isPlainName (by decide)]
      decide
  refine ⟨fun h => ?_, hforward name⟩
  have hback := hforward _ h
  rwa [r.rename_rename] at hback

/-- The attributes that are left for the branches of an input. -/
def keptAttrs (attrs : List Attr) : List Attr :=
  attrs.filter fun a => !strippedNames.contains a.name

theorem keptAttrs_spells (h : r.Spells attrs attrs') :
    r.Spells (keptAttrs attrs) (keptAttrs attrs') := by
  refine ⟨rel_filter ?_ h.pairs, fun name hname attr hattr =>
    h.fresh name hname attr (mem_of_mem_filter hattr)⟩
  intro attr attr' hattr
  simp [hattr.name, rename_mem_strippedNames]

theorem spells_concat (h : r.Spells attrs attrs') {attr : Attr}
    (hname : r.rename attr.name = attr.name) (hfresh : ∀ long ∈ r.long?, attr.name ≠ long) :
    r.Spells (attrs ++ [attr]) (attrs' ++ [attr]) := by
  refine ⟨rel_append h.pairs (.cons ⟨hname.symm, rfl⟩ .nil), fun name hlong other hother => ?_⟩
  rcases mem_append.mp hother with hother | hother
  · exact h.fresh name hlong other hother
  · rw [mem_singleton.mp hother]
    exact hfresh name hlong

theorem typeBranches_alike (h : el.Alike r el') (hpre : ∀ attr ∈ el.pending, attr.name ≠ "r-pre") :
    List.Forall₂ Branch.Alike (typeBranches "r-" type el) (typeBranches "r-" type el') := by
  have htype : isPlainName "type" := by decide
  have hpreName : (":type" : String) ≠ "r-pre" := by decide
  have hkept := keptAttrs_spells h.pending
  have hproc (added : Attr) (hadded : added.name ≠ "r-pre") :
      ∀ attr ∈ keptAttrs el.pending ++ [added], attr.name ≠ "r-pre" := by
    intro attr hattr
    rcases mem_append.mp hattr with hattr | hattr
    · exact hpre attr (mem_of_mem_filter hattr)
    · rwa [mem_singleton.mp hattr]
  have hplain (value : String) : r.Spells (keptAttrs el.pending ++ [{ name := "type", value }])
        (keptAttrs el'.pending ++ [{ name := "type", value }]) := by
    refine spells_concat hkept (r.rename_of_isPlainName htype) fun long hlong => ?_
    obtain ⟨p, -, rfl⟩ := map_eq_some_iff.mp hlong
    exact Respelling.long_ne_of_isPlainName htype p.1 p.2
  -- the last branch has the computed type, in its short form in both
  have hbound : ∃ r' : Respelling,
      r'.Spells (keptAttrs el.pending ++ [{ name := ":type", value := type }])
        (keptAttrs el'.pending ++ [{ name := ":type", value := type }]) := by
    rcases r.rename_bound "type" with rfl | ⟨hshort, -⟩
    · -- neither form is left, so the attributes that are left have the same names
      have hgone : ∀ attr ∈ keptAttrs el.pending, attr.name ∉ strippedNames := by
        intro attr hattr
        simpa [keptAttrs] using (mem_filter.mp hattr).2
      refine ⟨none, spells_concat ⟨?_, fun _ h => by cases h⟩ rfl fun _ h => by cases h⟩
      refine ((forall₂_and_left _ _).mpr ⟨hgone, hkept.pairs⟩).imp fun attr attr' hattr => ?_
      refine ⟨?_, hattr.2.value⟩
      rw [hattr.2.name]
      exact Equiv.swap_apply_of_ne_of_ne (fun h => hattr.1 (h ▸ by decide))
        (fun h => hattr.1 (h ▸ by decide))
    · refine ⟨r, spells_concat hkept hshort fun long hlong => ?_⟩
      obtain ⟨p, -, rfl⟩ := map_eq_some_iff.mp hlong
      intro heq
      have hlist := congrArg String.toList heq
      cases hsign : p.1 <;> simp [Sign.long, Sign.word, hsign] at hlist
  have hif : el'.attr? ("r-" ++ "if") = el.attr? ("r-" ++ "if") := h.attr?_plain (by decide)
  unfold typeBranches
  rw [hif]
  refine .cons ⟨rfl, ⟨r, hplain "checkbox"⟩, hproc _ (by decide)⟩ ?_
  refine .cons ⟨rfl, ⟨r, hplain "radio"⟩, hproc _ (by decide)⟩ ?_
  exact .cons ⟨rfl, hbound, hproc _ hpreName⟩ .nil

theorem expandInputType?_alike (h : el.Alike r el')
    (hpre : ∀ attr ∈ el.pending, attr.name ≠ "r-pre") :
    Rel Expansion.Alike (expandInputType? "r-" el) (expandInputType? "r-" el') := by
  refine rel_ite ?_ .none ?_
  · rw [h.field (·.tag) fun _ => rfl, h.hasAttr_plain (by decide)]
  · rw [computedType?_alike h]
    cases computedType? "r-" el with
    | none => exact .none
    | some type => exact .some ⟨chainLink_alike h, typeBranches_alike h hpre⟩

end Web

variable {o : Options} {r : Respelling} {el el' : Element}

theorem expansion?_alike (hs : o.directivePrefix = "r-") (h : el.Alike r el')
    (hpre : ∀ attr ∈ el.pending, attr.name ≠ "r-pre") (modules : List Module)
    (hmods : ∀ m ∈ modules, m ∈ Web.modules) :
    (expansion? o.toSettings el modules).Agree (Rel Expansion.Alike)
      (expansion? o.toSettings el' modules) := by
  induction modules with
  | nil => exact .pure .none
  | cons m rest ih =>
    have hrest := ih fun m' hm' => hmods m' (by simp [hm'])
    have hm : (m.expand o.toSettings el : Outcome _).Agree (Rel Expansion.Alike)
        (m.expand o.toSettings el') := by
      have hmem := hmods m (by simp)
      simp only [Web.modules, mem_cons, not_mem_nil, or_false] at hmem
      rcases hmem with rfl | rfl | rfl
      · exact .pure .none
      · exact .pure .none
      · show Outcome.Agree _ (pure (Web.expandInputType? o.directivePrefix el))
          (pure (Web.expandInputType? o.directivePrefix el'))
        rw [hs]
        exact .pure (Web.expandInputType?_alike h hpre)
    refine .bind hm fun e e' he => ?_
    cases he with
    | none => exact hrest
    | some he => exact .pure (.some he)

theorem Element.Alike.takeLoopIf (hs : o.directivePrefix = "r-") (h : el.Alike r el')
    (keep : Bool) :
    (el.takeLoopIf o.toSettings keep).Agree (Alike r) (el'.takeLoopIf o.toSettings keep) := by
  refine rel_ite Iff.rfl (h.takeLoop hs) (.pure ?_)
  exact (h.takeEntirely (isPlainName_directive hs (by decide))).2

theorem branchElement_alike (ho : o.UsesWeb) (hs : o.directivePrefix = "r-")
    (habove : above'.map (·.loop) = above.map (·.loop))
    (h : el.Alike r el') {branch branch' : Branch} (hbr : branch.Alike branch')
    (first : Bool) :
    (branchElement o above el first branch).Agree Element.AlikeSome
      (branchElement o above' el' first branch') := by
  obtain ⟨q, hattrs⟩ := hbr.attrs
  obtain ⟨w, rfl, -⟩ := h
  have hclone := ((Element.ofTag_alike hattrs hbr.processed el.tag).update
    (fun e => { e with ns := el.ns }) fun _ => rfl).withSpan el.span w.span
  refine .bindLift (hclone.takeLoopIf hs first) fun e e' he => ?_
  exact (Element.process_alike ho hs habove (he.takeOnce hs)).mono fun _ _ h => ⟨q, h⟩

theorem otherBranches_alike (ho : o.UsesWeb) (hs : o.directivePrefix = "r-")
    (habove : above'.map (·.loop) = above.map (·.loop))
    (h : el.Alike r el')
    (hbrs : List.Forall₂ Branch.Alike branches branches') :
    (otherBranches o above el branches).Agree (List.Forall₂ Element.AlikeSome)
      (otherBranches o above' el' branches') := by
  induction hbrs with
  | nil => exact .pure .nil
  | cons hbr hrest ih =>
    refine .bind (branchElement_alike ho hs habove h hbr false) fun clone clone' hclone => ?_
    exact .bind ih fun others others' hoth => .pure (.cons hclone hoth)

/-! ## Trees -/

/-- Nodes of one kind, with elements that are alike. -/
inductive NodeKind.Alike : NodeKind → NodeKind → Prop
  | element {el el' : Element} (h : el.AlikeSome el') : Alike (.element el) (.element el')
  | text (content : String) (tokens : Option (List TextToken)) (isStatic : Bool) :
      Alike (.text content tokens isStatic) (.text content tokens isStatic)
  | comment (content : String) (isStatic : Bool) :
      Alike (.comment content isStatic) (.comment content isStatic)

/-- The same nodes, with elements that are alike. -/
structure Ast.Alike (a a' : Ast) : Prop where
  size : a'.nodes.size = a.nodes.size
  root : a'.root = a.root
  parent? : ∀ id, a'.parent? id = a.parent? id
  kind? : ∀ id, Rel NodeKind.Alike (a.kind? id) (a'.kind? id)

namespace Ast

variable {a a' : Ast}

section

variable (h : a.Alike a')

include h

theorem Alike.element? (id : NodeId) : Rel Element.AlikeSome (a.element? id) (a'.element? id) := by
  unfold Ast.element?
  have hkind := h.kind? id
  generalize a.kind? id = kind, a'.kind? id = kind' at hkind ⊢
  cases hkind with
  | none => exact .none
  | some hkind =>
    cases hkind with
    | element hel => exact .some hel
    | text | comment => exact .none

theorem Alike.field {α : Type} (id : NodeId) (g : Option Element → α)
    (hg : ∀ el w, g (some (Element.rewritten el w)) = g (some el)) :
    g (a'.element? id) = g (a.element? id) := by
  have hel := h.element? id
  generalize a.element? id = el, a'.element? id = el' at hel ⊢
  cases hel with
  | none => rfl
  | some hel =>
    obtain ⟨r, hel⟩ := hel
    exact hel.field (fun el => g (some el)) (hg _)

theorem Alike.loops (id : NodeId) :
    (a'.ancestorElements id).map (·.loop) = (a.ancestorElements id).map (·.loop) := by
  have hchain (limit : Nat) (id : NodeId) :
      a'.ancestorsUpTo limit id = a.ancestorsUpTo limit id := by
    induction limit generalizing id with
    | zero => rfl
    | succ limit ih =>
      unfold ancestorsUpTo
      rw [h.parent? id]
      cases a.parent? id with
      | none => rfl
      | some parent => simp only [ih]
  unfold ancestorElements ancestors
  rw [h.size, hchain, map_filterMap, map_filterMap]
  exact congrArg (List.filterMap · _) (funext fun id => h.field id (·.map (·.loop)) fun _ _ => rfl)

theorem Alike.isSpace : a'.isSpace = a.isSpace := by
  funext id
  unfold Ast.isSpace
  have hkind := h.kind? id
  generalize a.kind? id = kind, a'.kind? id = kind' at hkind ⊢
  cases hkind with
  | none => rfl
  | some hkind => cases hkind <;> rfl

theorem Alike.push (parent : Option NodeId)
    (hkind : kind.Alike kind') : (a.push parent kind).Alike (a'.push parent kind') where
  size := by rw [size_push, size_push, h.size]
  root := h.root
  parent? id := by rw [parent?_push, parent?_push, h.size, h.parent? id]
  kind? id := by
    rw [kind?_push, kind?_push, h.size]
    exact rel_ite Iff.rfl (.some hkind) (h.kind? id)

theorem Alike.pushElements (parent : Option NodeId) {els els' : List Element}
    (hels : List.Forall₂ Element.AlikeSome els els') :
    (a.pushElements parent els).Alike (a'.pushElements parent els') := by
  induction hels generalizing a a' with
  | nil => exact h
  | cons hel hrest ih => exact ih (h.push parent (.element hel))

theorem Alike.modifyElement (id : NodeId) {f' : Element → Element}
    (hf : ∀ el el', el.AlikeSome el' → (f el).AlikeSome (f' el')) :
    (a.modifyElement id f).Alike (a'.modifyElement id f') where
  size := by rw [size_modifyElement, size_modifyElement, h.size]
  root := h.root
  parent? j := by rw [parent?_modifyElement, parent?_modifyElement, h.parent? j]
  kind? j := by
    rw [kind?_modifyElement, kind?_modifyElement]
    refine rel_ite Iff.rfl ?_ (h.kind? j)
    have hkind := h.kind? j
    generalize a.kind? j = kind, a'.kind? j = kind' at hkind ⊢
    cases hkind with
    | none => exact .none
    | some hkind =>
      refine .some ?_
      cases hkind with
      | element hel => exact .element (hf _ _ hel)
      | text => exact .text ..
      | comment => exact .comment ..

theorem Alike.updateElement (id : NodeId)
    (hf : ∀ el w, f (Element.rewritten el w) = (f el).rewritten w) :
    (a.modifyElement id f).Alike (a'.modifyElement id f) :=
  h.modifyElement id fun _ _ ⟨r, hel⟩ => ⟨r, hel.update f (hf _)⟩

theorem Alike.setElement (id : NodeId)
    (hel : el.AlikeSome el') : (a.setElement id el).Alike (a'.setElement id el') :=
  h.modifyElement id fun _ _ _ => hel

end

theorem nodes_ext (hpar : ∀ id, a'.parent? id = a.parent? id)
    (hkind : ∀ id, a'.kind? id = a.kind? id) : a'.nodes = a.nodes := by
  refine Array.ext_getElem? fun id => ?_
  have hpar := hpar id
  have hkind := hkind id
  unfold parent? at hpar
  unfold kind? at hkind
  revert hpar hkind
  cases a'.nodes[id]? with
  | none =>
    cases a.nodes[id]? with
    | none => exact fun _ _ => rfl
    | some n => intro _ hkind; cases hkind
  | some n' =>
    cases a.nodes[id]? with
    | none => intro _ hkind; cases hkind
    | some n =>
      intro hpar hkind
      obtain ⟨parent', kind'⟩ := n'
      cases hpar
      cases hkind
      rfl

theorem Alike.unwritten (h : a.Alike a') : a'.unwritten = a.unwritten := by
  have hnodes : a'.unwritten.nodes = a.unwritten.nodes := by
    refine nodes_ext (fun id => ?_) fun id => ?_
    · rw [parent?_unwritten, parent?_unwritten, h.parent? id]
    · rw [kind?_unwritten, kind?_unwritten]
      have hkind := h.kind? id
      generalize a.kind? id = kind, a'.kind? id = kind' at hkind ⊢
      cases hkind with
      | none => rfl
      | some hkind =>
        cases hkind with
        | text | comment => rfl
        | element hel =>
          obtain ⟨r, w, rfl, hw⟩ := hel
          have hdirs := hw.directives
          exact congrArg
            (fun d => some (NodeKind.element (Element.rewritten _ { directives := d }))) hdirs
  show (⟨a'.unwritten.nodes, a'.root⟩ : Ast) = ⟨a.unwritten.nodes, a.root⟩
  rw [hnodes, h.root]

end Ast

/-! ## The builder -/

theorem reportDuplicates_agree
    (h : List.Forall₂ (Attr.Respelled r) attrs attrs') (seen : List String) :
    (reportDuplicates seen attrs).Agree Eq (reportDuplicates (seen.map r.rename) attrs') := by
  induction h generalizing seen with
  | nil => exact .pure rfl
  | cons hattr hrest ih =>
    unfold reportDuplicates
    rw [hattr.name]
    refine rel_ite ?_ (.bind (.error ..) fun _ _ _ => ih (_ :: seen)) (ih (_ :: seen))
    simp

theorem reportForbidden_agree (h : el.Alike r el') :
    (reportForbidden el).Agree Eq (reportForbidden el') := by
  obtain ⟨w, rfl, -⟩ := h
  exact rel_ite Iff.rfl (.error ..) (.pure rfl)

theorem Element.Alike.linkChain (h : el.Alike r el') (link : ChainLink) :
    (el.linkChain link).Alike r (el'.linkChain link) := by
  cases link with
  | none => exact h
  | elseIf exp => exact h.update (fun e => { e with elseIf := some exp }) fun _ => rfl
  | otherwise => exact h.update (fun e => { e with isElse := true }) fun _ => rfl

namespace Builder

/-- The same state of the builder, but for a tree that is alike. Nothing is left as written. -/
def Alike (b b' : Builder) : Prop :=
  ∃ a', b' = { b with ast := a' } ∧ b.ast.Alike a' ∧ b.asWritten = false

variable {b b' : Builder} {s : Settings} {id : NodeId}

theorem Alike.withAst (h : b.Alike b') (ha : a.Alike a') :
    Alike { b with ast := a } { b' with ast := a' } := by
  obtain ⟨_, rfl, -, hwr⟩ := h
  exact ⟨a', rfl, ha, hwr⟩

theorem Alike.ast (h : b.Alike b') : b.ast.Alike b'.ast := by
  obtain ⟨_, rfl, ha, -⟩ := h
  exact ha

theorem Alike.stack (h : b.Alike b') : b'.stack = b.stack := by
  obtain ⟨_, rfl, -, -⟩ := h
  rfl

theorem Alike.parent? (h : b.Alike b') : b'.parent? = b.parent? := by
  unfold Builder.parent?
  rw [h.stack]

theorem reportRoot_agree (h : b.Alike b') (problem problem' : Problem) (span span' : Option Span) :
    (b.reportRoot problem span).Agree Alike (b'.reportRoot problem' span') := by
  obtain ⟨a', rfl, ha, hwr⟩ := h
  refine rel_ite Iff.rfl (.pure ⟨a', rfl, ha, hwr⟩) ?_
  exact .bind (.error ..) fun _ _ _ => .pure ⟨a', rfl, ha, hwr⟩

theorem checkRoot_agree (hs : s.directivePrefix = "r-") (h : b.Alike b') (hel : el.Alike r el') :
    (b.checkRoot s el).Agree Alike (b'.checkRoot s el') := by
  have hfor : isPlainName (s.directive "for") := Element.isPlainName_directive hs (by decide)
  have hlooped := hel.hasAttr_plain hfor
  obtain ⟨w, rfl, -⟩ := hel
  have hloop (c c' : Builder) (hc : c.Alike c') : Noted.Agree Alike
        (if el.hasAttr (s.directive "for") then
          c.reportRoot (.rootLoops (s.directive "for")) el.span else pure c)
        (if (el.rewritten w).hasAttr (s.directive "for") then
          c'.reportRoot (.rootLoops (s.directive "for")) w.span else pure c') :=
    rel_ite (by rw [hlooped]) (reportRoot_agree hc ..) (.pure hc)
  exact rel_ite Iff.rfl (.bind (reportRoot_agree h ..) hloop) (.bind (.pure h) hloop)

theorem conditions_alike (h : List.Forall₂ Branch.Alike branches branches') :
    ((branches'.zip ids).map fun p => (⟨p.1.condition, p.2⟩ : Condition)) =
      (branches.zip ids).map fun p => ⟨p.1.condition, p.2⟩ := by
  induction h generalizing ids with
  | nil => rfl
  | cons hbr _ ih =>
    cases ids with
    | nil => rfl
    | cons id ids =>
      rw [zip_cons_cons, zip_cons_cons, map_cons, map_cons, hbr.condition, ih]

theorem expand_agree (ho : o.UsesWeb) (hs : o.directivePrefix = "r-") (h : b.Alike b')
    (hel : el.Alike r el') {e e' : Expansion} (he : e.Alike e') :
    (b.expand o id el e).Agree (fun p p' => p.1.Alike p'.1 ∧ p.2.AlikeSome p'.2)
      (b'.expand o id el' e') := by
  have habove := h.ast.loops id
  unfold expand
  rw [he.link]
  have hbrs := he.branches
  generalize e.branches = branches, e'.branches = branches' at hbrs ⊢
  cases hbrs with
  | nil => exact .pure ⟨h, r, hel.linkChain e.link⟩
  | @cons branch branch' rest rest' hbr hrest =>
    refine .bind (branchElement_alike ho hs habove hel hbr true) fun head head' hhead => ?_
    refine .bind (otherBranches_alike ho hs habove hel hrest) fun others others' hoth => .pure ?_
    -- the other branches get the next numbers, and there are as many of them in both
    have hids : List.range' b'.ast.nextId others'.length =
        List.range' b.ast.nextId others.length := by
      rw [nextId_eq, nextId_eq, h.ast.size, hoth.length_eq]
    obtain ⟨q, hhead⟩ := hhead
    rw [hids, conditions_alike hrest, hbr.condition, h.parent?]
    refine ⟨h.withAst (h.ast.pushElements b.parent? hoth), q, ?_⟩
    exact (hhead.update (fun c => { c with
      ifExp := branch.condition
      conditions := c.conditions ++ ⟨branch.condition, id⟩ ::
        (rest.zip (List.range' b.ast.nextId others.length)).map fun p => ⟨p.1.condition, p.2⟩ })
      fun _ => rfl).linkChain e.link

theorem expanded_agree (ho : o.UsesWeb) (hs : o.directivePrefix = "r-") (h : b.Alike b')
    (hel : el.Alike r el') (hpre : ∀ attr ∈ el.pending, attr.name ≠ "r-pre") (id : NodeId) :
    (b.expanded o id el).Agree (fun p p' => p.1.Alike p'.1 ∧ p.2.AlikeSome p'.2)
      (b'.expanded o id el') := by
  refine .bind (expansion?_alike hs hel hpre o.modules ho.modules) fun e e' he => ?_
  cases he with
  | none => exact .pure ⟨h, r, hel⟩
  | some he => exact expand_agree ho hs h hel he

/-! ## Closing an element -/

theorem dropToElement_agree (h : a.Alike a') :
    (dropToElement s a ids).Agree Eq (dropToElement s a' ids) := by
  induction ids with
  | nil => exact .pure rfl
  | cons id rest ih =>
    unfold dropToElement
    have hkind := h.kind? id
    generalize a.kind? id = kind, a'.kind? id = kind' at hkind ⊢
    cases hkind with
    | none => exact ih
    | some hkind =>
      cases hkind with
      | element => exact .pure rfl
      | text =>
        exact rel_ite Iff.rfl (.bind (.error ..) fun _ _ _ => ih) ih
      | comment => exact ih

theorem addBranch_alike (h : a.Alike a') (head : NodeId) (branch : Condition) :
    (addBranch a head branch).Alike (addBranch a' head branch) :=
  h.updateElement head fun _ _ => rfl

theorem linkBranch_agree (h : b.Alike b') (hel : el.Alike r el') (parent : NodeId) :
    (b.linkBranch s id el parent).Agree Alike (b'.linkBranch s id el' parent) := by
  have hsiblings : (b'.ast.element? parent).elim [] (·.children) =
      (b.ast.element? parent).elim [] (·.children) :=
    h.ast.field parent (·.elim [] (·.children)) fun _ _ => rfl
  obtain ⟨w, rfl, -⟩ := hel
  unfold linkBranch
  rw [hsiblings]
  refine .bind (dropToElement_agree h.ast) fun kept kept' hkept => ?_
  subst hkept
  have hast := h.ast.updateElement parent (f := fun p => { p with children := kept.reverse })
    fun _ _ => rfl
  have hcond := fun p => hast.field p (·.any (·.ifExp.isSome)) fun _ _ => rfl
  simp only [hcond]
  split
  · exact .pure (h.withAst (addBranch_alike hast ..))
  · exact .bind (.error ..) fun _ _ _ => .pure (h.withAst hast)

theorem link_agree (h : b.Alike b') (hel : el.Alike r el') (parent : NodeId) :
    (b.link s id el parent).Agree Alike (b'.link s id el' parent) := by
  obtain ⟨w, rfl, hw⟩ := hel
  refine rel_ite Iff.rfl (linkBranch_agree h ⟨w, rfl, hw⟩ parent) (.pure (h.withAst ?_))
  refine h.ast.updateElement parent fun p w => ?_
  split <;> rfl

theorem addToRoot_agree (hs : s.directivePrefix = "r-") (h : b.Alike b') (hel : el.Alike r el') :
    (b.addToRoot s id el).Agree Alike (b'.addToRoot s id el') := by
  have hcond := fun p => h.ast.field p (·.any (·.ifExp.isSome)) fun _ _ => rfl
  obtain ⟨w, rfl, hw⟩ := hel
  have hchained : (el.rewritten w).isChained = el.isChained := rfl
  unfold addToRoot
  simp only [h.ast.root, hchained, hcond]
  split
  · refine .bind (checkRoot_agree hs h ⟨w, rfl, hw⟩) fun c c' hc => .pure ?_
    exact hc.withAst (addBranch_alike hc.ast ..)
  · exact reportRoot_agree h ..

theorem trimmed_alike (h : b.Alike b') (hel : el.Alike r el') :
    (b.trimmed el).Alike r (b'.trimmed el') := by
  obtain ⟨a', rfl, ha, -⟩ := h
  unfold trimmed dropSpaces
  rw [ha.isSpace]
  exact rel_ite Iff.rfl hel
    (hel.update (fun e => { e with children := dropSpaces b.ast e.children }) fun _ => rfl)

theorem finished_agree (ho : o.UsesWeb) (hs : o.directivePrefix = "r-") (h : b.Alike b')
    (hel : el.Alike r el') :
    (b.finished o id el).Agree (Element.Alike r) (b'.finished o id el') := by
  obtain ⟨a', rfl, ha, -⟩ := h
  obtain ⟨w, rfl, hw⟩ := hel
  exact rel_ite Iff.rfl (.pure ⟨w, rfl, hw⟩)
    (Element.process_alike ho hs (ha.loops id) ⟨w, rfl, hw⟩)

theorem settle_agree (hs : s.directivePrefix = "r-") (h : b.Alike b') (hel : el.Alike r el') :
    (b.settle s id el).Agree Alike (b'.settle s id el') := by
  refine rel_ite ?_ (addToRoot_agree hs h hel) (.pure h)
  rw [h.stack, h.ast.root]

theorem attach_agree (h : b.Alike b') (hel : el.Alike r el') :
    (b.attach s id el).Agree Alike (b'.attach s id el') := by
  obtain ⟨w, rfl, hw⟩ := hel
  unfold attach
  rw [h.parent?]
  cases b.parent? with
  | none => exact .pure h
  | some parent => exact rel_ite Iff.rfl (.pure h) (link_agree h ⟨w, rfl, hw⟩ parent)

theorem close_agree (ho : o.UsesWeb) (hs : o.directivePrefix = "r-") (h : b.Alike b') :
    (b.close o id).Agree Alike (b'.close o id) := by
  have hel := h.ast.element? id
  unfold close
  generalize b.ast.element? id = el, b'.ast.element? id = el' at hel ⊢
  cases hel with
  | none => exact .pure h
  | some hel =>
    obtain ⟨r, hel⟩ := hel
    refine .bind (finished_agree ho hs h (trimmed_alike h hel)) fun e e' he => ?_
    refine .bindLift (settle_agree hs h he) fun c c' hc => ?_
    refine .bindLift (attach_agree (hc.withAst (hc.ast.setElement id ⟨r, he⟩)) he)
      fun d d' hd => .pure ?_
    obtain ⟨a', rfl, ha, hwr⟩ := hd
    obtain ⟨w, rfl, -⟩ := he
    exact ⟨a', rfl, ha, by simp [hwr]⟩

theorem closeElement_agree (ho : o.UsesWeb) (hs : o.directivePrefix = "r-") (h : b.Alike b') :
    (b.closeElement o).Agree Alike (b'.closeElement o) := by
  unfold closeElement
  rw [h.stack]
  split
  · exact .pure h
  · next id rest _ =>
    obtain ⟨a', rfl, ha, hwr⟩ := h
    have hrest : Alike { b with stack := rest } { b with ast := a', stack := rest } :=
      ⟨a', rfl, ha, hwr⟩
    exact close_agree ho hs hrest

/-! ## Opening an element -/

theorem isForbidden_alike (h : el.Alike r el') : el'.isForbidden = el.isForbidden := by
  have htype : el'.attr? "type" = el.attr? "type" := h.attr?_plain (by decide)
  obtain ⟨w, rfl, -⟩ := h
  unfold Element.isForbidden
  rw [htype]
  rfl

theorem newElement_alike (h : b.Alike b')
    (hattrs : r.Spells attrs attrs') (hpre : ∀ attr ∈ attrs, attr.name ≠ "r-pre") (tag : String)
    (span span' : Span) :
    (b.newElement s tag attrs span).Alike r (b'.newElement s tag attrs' span') := by
  have hns : (b'.parent?.bind b'.ast.element?).bind (·.ns) =
      (b.parent?.bind b.ast.element?).bind (·.ns) := by
    rw [h.parent?]
    cases b.parent? with
    | none => rfl
    | some parent => exact h.ast.field parent (·.bind (·.ns)) fun _ _ => rfl
  unfold newElement
  dsimp only
  rw [hns]
  have hel := ((Element.ofTag_alike hattrs hpre tag).update (fun e => { e with
    ns := ((b.parent?.bind b.ast.element?).bind (·.ns)).or (s.tags.namespaceOf tag) })
    fun _ => rfl).withSpan span span'
  rw [isForbidden_alike hel]
  exact hel.update (fun e => { e with forbidden := _ }) fun _ => rfl

theorem takePre_eq_self (hs : s.directivePrefix = "r-") (h : el.attr? "r-pre" = none) :
    el.takePre s = el := by
  have hname : s.directive "pre" = "r-pre" := by
    unfold Settings.directive
    rw [hs]
    rfl
  unfold Element.takePre Element.takeFlag Element.take
  rw [hname, h]
  rfl

section

variable (hs : s.directivePrefix = "r-") (h : b.Alike b') (hel : el.Alike r el')

include hs h hel

theorem enter_alike (hpre : el.pre = false) :
    (b.enter s el).1.Alike (b'.enter s el').1 ∧ (b.enter s el).2.Alike r (b'.enter s el').2 := by
  obtain ⟨a', rfl, ha, hwr⟩ := h
  have htake : el.takePre s = el := takePre_eq_self hs hel.attr?_pre
  have htake' : el'.takePre s = el' :=
    takePre_eq_self hs ((hel.attr?_plain (by decide)).trans hel.attr?_pre)
  unfold enter
  simp only [hwr, Bool.false_eq_true, if_false, htake, htake']
  obtain ⟨w, rfl, hw⟩ := hel
  exact ⟨⟨a', rfl, ha, hpre⟩, w, rfl, hw⟩

theorem structured_agree :
    (b.structured s id el).Agree (Element.Alike r) (b'.structured s id el') := by
  obtain ⟨a', rfl, ha, hwr⟩ := h
  unfold structured
  simp only [hwr, Bool.false_eq_true, if_false]
  obtain ⟨w, rfl, hw⟩ := hel
  refine rel_ite Iff.rfl (.pure ⟨w, rfl, hw⟩) ?_
  refine .bind (Element.Alike.takeLoop hs ⟨w, rfl, hw⟩) fun c c' hc => ?_
  exact .bind (hc.takeCondition hs id) fun d d' hd => .pure (hd.takeOnce hs)

theorem withRoot_agree : (b.withRoot s id el).Agree Alike (b'.withRoot s id el') := by
  refine rel_ite ?_ (checkRoot_agree hs (h.withAst ?_) hel) (.pure h)
  · rw [h.ast.root]
  · exact ⟨h.ast.size, rfl, h.ast.parent?, h.ast.kind?⟩

end

section

variable (ho : o.UsesWeb) (hs : o.directivePrefix = "r-") (h : b.Alike b')
  {attrs attrs' : List Attr} (hattrs : r.Spells attrs attrs')
  (hpre : ∀ attr ∈ attrs, attr.name ≠ "r-pre") (tag : String) (span span' : Span)

include ho hs h hattrs hpre

theorem placed_agree : (b.placed o tag attrs span).Agree Alike (b'.placed o tag attrs' span') := by
  have hnew := newElement_alike (s := o.toSettings) h hattrs hpre tag span span'
  unfold placed
  rw [h.parent?, show b'.ast.nextId = b.ast.nextId from h.ast.size]
  refine .bindLift (reportDuplicates_agree hattrs.pairs []) fun _ _ _ => ?_
  refine .bindLift (reportForbidden_agree hnew) fun _ _ _ => ?_
  have hexpanded := expanded_agree ho hs
    (h.withAst (h.ast.push b.parent? (.element ⟨r, hnew⟩))) hnew hpre b.ast.nextId
  refine .bind (hexpanded.ensures (expanded_unmarked ho rfl)) ?_
  rintro p p' ⟨⟨hp, q, hel⟩, hmark, -⟩
  obtain ⟨hb, hel⟩ := enter_alike hs hp hel hmark
  refine .bindLift (structured_agree hs hb hel) fun e e' he => ?_
  refine .bindLift (withRoot_agree hs hb he) fun c c' hc => .pure ?_
  exact hc.withAst (hc.ast.setElement _ ⟨q, he⟩)

theorem openElement_agree (unary : Bool) : (b.openElement o tag attrs unary span).Agree Alike
      (b'.openElement o tag attrs' unary span') := by
  rw [openElement_eq, openElement_eq, h.ast.size]
  refine .bind (placed_agree ho hs h hattrs hpre tag span span') fun c c' hc => ?_
  refine rel_ite Iff.rfl (close_agree ho hs hc) (.pure ?_)
  obtain ⟨a', rfl, ha, hwr⟩ := hc
  exact ⟨a', rfl, ha, hwr⟩

end

/-! ## Texts and comments -/

theorem addChild_alike (h : b.Alike b') (parent : NodeId)
    (hkind : kind.Alike kind') : (b.addChild parent kind).Alike (b'.addChild parent kind') := by
  unfold addChild
  rw [show b'.ast.nextId = b.ast.nextId from h.ast.size]
  exact h.withAst ((h.ast.push (some parent) hkind).updateElement parent fun _ _ => rfl)

theorem addText_alike (h : b.Alike b') (hel : el.Alike r el') :
    (b.addText s id el content).Alike (b'.addText s id el' content) := by
  have hsame := h
  obtain ⟨a', rfl, ha, hwr⟩ := h
  obtain ⟨w, rfl, -⟩ := hel
  unfold addText
  rw [ha.isSpace]
  refine rel_ite Iff.rfl hsame (rel_ite Iff.rfl hsame ?_)
  exact addChild_alike hsame id (.text ..)

theorem textOutside_agree (h : b.Alike b') {content : String}
    (hcont : content = source' ↔ content = source) :
    (textOutside source b content).Agree Alike (textOutside source' b' content) := by
  refine rel_ite hcont (reportRoot_agree h ..) ?_
  obtain ⟨a', rfl, ha, hwr⟩ := h
  refine rel_ite Iff.rfl (.pure ⟨a', rfl, ha, hwr⟩) ?_
  exact .bind (.error ..) fun _ _ _ => .pure ⟨a', rfl, ha, hwr⟩

end Builder

/-! ## Signals -/

namespace Builder

variable {b b' : Builder} {source source' : String}

theorem signal_agree (ho : o.UsesWeb) (hs : o.directivePrefix = "r-") (h : b.Alike b')
    {signal signal' : Signal} (hsig : signal.Alike signal')
    (hpre : ∀ attr ∈ signal.attrs, attr.name ≠ "r-pre")
    (hwhole : ∀ content span, signal = .event (.text content span) →
      (content = source' ↔ content = source)) :
    (b.signal o source signal).Agree Alike (b'.signal o source' signal') := by
  cases hsig with
  | opened tag unary span span' hattrs =>
    obtain ⟨r, hattrs⟩ := hattrs
    exact openElement_agree ho hs h hattrs hpre tag span span' unary
  | closed => exact closeElement_agree ho hs h
  | warning => exact .bindLift (.error ..) fun _ _ _ => .pure h
  | comment =>
    unfold Builder.signal
    rw [h.parent?]
    cases b.parent? with
    | none => exact .pure h
    | some id => exact .pure (addChild_alike h id (.comment ..))
  | text content span span' =>
    unfold Builder.signal
    rw [h.parent?]
    cases b.parent? with
    | none =>
      -- the report depends on whether the text is all there is
      exact .lift (textOutside_agree h (hwhole content span rfl))
    | some id =>
      dsimp only
      have hel := h.ast.element? id
      generalize b.ast.element? id = el, b'.ast.element? id = el' at hel ⊢
      cases hel with
      | none => exact .pure h
      | some hel =>
        obtain ⟨r, hel⟩ := hel
        exact .pure (addText_alike h hel)

theorem signals_agree (ho : o.UsesWeb) (hs : o.directivePrefix = "r-")
    {signals signals' : List Signal}
    (hsigs : List.Forall₂ Signal.Alike signals signals')
    (hpre : ∀ signal ∈ signals, ∀ attr ∈ signal.attrs, attr.name ≠ "r-pre")
    (hwhole : ∀ content span, .event (.text content span) ∈ signals →
      (content = source' ↔ content = source)) (h : b.Alike b') :
    (Builder.signals o source signals b).Agree Alike (Builder.signals o source' signals' b') := by
  induction hsigs generalizing b b' with
  | nil => exact .pure h
  | cons hsig hrest ih =>
    refine .bind (signal_agree ho hs h hsig (hpre _ (by simp)) ?_) fun c c' hc => ?_
    · rintro content span rfl
      exact hwhole content span (by simp)
    · exact ih (fun signal hmem => hpre signal (by simp [hmem]))
        (fun content span hmem => hwhole content span (by simp [hmem])) hc

end Builder

/-- Templates whose signals are alike are read into trees that are the same but for their markup, if
a text is all of the one template only if it is all of the other one. -/
theorem parse_agree (ho : o.UsesWeb) (hs : o.directivePrefix = "r-")
    (h : List.Forall₂ Signal.Alike (read o.tags o.comments source) (read o.tags o.comments source'))
    (hpre : ∀ signal ∈ read o.tags o.comments source, ∀ attr ∈ signal.attrs, attr.name ≠ "r-pre")
    (hwhole : ∀ content span, .event (.text content span) ∈ read o.tags o.comments source →
      (content = source' ↔ content = source)) :
    (parse o source).Agree (fun a a' => a'.unwritten = a.unwritten) (parse o source') := by
  have hstart : Builder.Alike {} {} := ⟨{}, rfl, ⟨rfl, rfl, fun _ => rfl, fun _ => .none⟩, rfl⟩
  refine .bind (Builder.signals_agree ho hs h hpre hwhole hstart) fun b b' hb => ?_
  obtain ⟨a', rfl, ha, hwr⟩ := hb
  rw [ha.root]
  refine rel_ite Iff.rfl ?_ (.pure ha.unwritten)
  exact .bindLift (.error ..) fun _ _ _ => .pure ha.unwritten

end TemplateCompiler
