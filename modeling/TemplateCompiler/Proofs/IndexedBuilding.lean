import TemplateCompiler.Proofs.Building

/-!
# Building a tree by indexing

The nodes of a tree are numbered, and a program that keeps them in an array looks them up by their
number. The builder of this module does so wherever it looks at what kind of node stands at the end
of an element: it fails if there is no node of a number. It does what the builder does
(`signals_agrees`), so every number that it looks up is the number of a node.
-/

namespace TemplateCompiler.Indexed

open Markup List

/-! ## Steps that look up nodes -/

abbrev Step (α : Type) := OptionT Outcome α

section Steps

variable {α β : Type}

def found (x : Option α) : Step α := OptionT.mk (pure x)

def Agrees (x : Step α) (y : Outcome α) : Prop := x.run = some <$> y

namespace Agrees

variable {x : Step α} {y : Outcome α} {f : α → Step β} {g : α → Outcome β}

theorem pure (a : α) : Agrees (Pure.pure a) (Pure.pure a) := rfl

theorem lift (y : Outcome α) : Agrees (liftM y) y := OptionT.run_lift y

theorem bind {P : α → Prop} (hx : Agrees x y)
    (hy : y.Ensures P) (hf : ∀ a, P a → Agrees (f a) (g a)) : Agrees (x >>= f) (y >>= g) := by
  obtain ⟨a, ha, hP⟩ := hy
  have hrun : (x >>= f).run = y >>= fun a => (f a).run := by
    rw [OptionT.run_bind, hx, Option.elimM, bind_map_left]
    rfl
  rw [Agrees, hrun, map_bind]
  exact Outcome.bind_congr ha (hf a hP)

theorem bindLift {n : Noted α}
    (hf : Agrees (f n.value) (g n.value)) : Agrees (liftM n >>= f) (liftM n >>= g) :=
  bind (lift _) (.lift rfl) fun _ ha => ha ▸ hf

theorem bindFound {o : Option α} {a : α} {y : Outcome β} (ho : o = some a)
    (hf : Agrees (f a) y) : Agrees (found o >>= f) y := by
  subst ho
  exact hf

end Agrees

end Steps

/-! ## The builder -/

def isSpace (a : Ast) (id : NodeId) : Option Bool :=
  match a.kind? id with
  | none => none
  | some (.text content _ _) => some (content = " ")
  | some _ => some false

def skipSpaces (a : Ast) : List NodeId → Option (List NodeId)
  | [] => some []
  | id :: rest => do
    if ← isSpace a id then skipSpaces a rest else return id :: rest

def trimmed (b : Builder) (el : Element) : Option Element :=
  if b.keepsSpace then some el
  else (skipSpaces b.ast el.children.reverse).map fun kept => { el with children := kept.reverse }

/-- Takes the trailing texts and comments off a list of children, last first, up to an element. -/
def dropToElement (s : Settings) (a : Ast) : List NodeId → Option (Noted (List NodeId))
  | [] => some (pure [])
  | id :: rest =>
    match a.kind? id with
    | none => none
    | some (.element _) => some (pure (id :: rest))
    | some (.text content _ _) => do
      let kept ← dropToElement s a rest
      return do
        if content ≠ " " then
          Noted.error
            (.textBetweenBranches (Text.trim content) (s.directive "if") (s.directive "else")) none
        kept
    | some (.comment _ _) => dropToElement s a rest

def linkBranch (s : Settings) (b : Builder) (id : NodeId) (el : Element) (parent : NodeId) :
    Option (Noted Builder) := do
  let siblings := (b.ast.element? parent).elim [] (·.children)
  let kept ← dropToElement s b.ast siblings.reverse
  return do
    let kept ← kept
    let ast := b.ast.modifyElement parent fun p => { p with children := kept.reverse }
    match kept.head?.filter fun p => (ast.element? p).any (·.ifExp.isSome) with
    | some head =>
      return { b with ast := Builder.addBranch ast head { exp := el.elseIf, block := id } }
    | none =>
      let branch := match el.elseIf with
        | some exp => s.directive "else-if" ++ "=\"" ++ exp ++ "\""
        | none => s.directive "else"
      Noted.error (.branchWithoutIf branch el.tag (s.directive "if")) el.span
      return { b with ast }

def attach (s : Settings) (b : Builder) (id : NodeId) (el : Element) : Option (Noted Builder) :=
  match b.parent? with
  | some parent =>
    if el.forbidden then some (pure b)
    else if el.isChained then linkBranch s b id el parent
    else some (b.link s id el parent)
  | none => some (pure b)

def close (o : Options) (b : Builder) (id : NodeId) : Step Builder :=
  match b.ast.element? id with
  | none => pure b
  | some el => do
    let s := o.toSettings
    let el ← found (trimmed b el)
    let el ← b.finished o id el
    let b ← b.settle s id el
    let b ← found (attach s { b with ast := b.ast.setElement id el } id el)
    let b ← b
    return { b with
      asWritten := b.asWritten && !el.pre
      keepsSpace := b.keepsSpace && !s.tags.isPre el.tag }

def openElement (o : Options) (b : Builder) (tag : String) (attrs : List Attr) (unary : Bool)
    (span : Span) : Step Builder := do
  let b' ← b.placed o tag attrs span
  if unary then close o b' b.ast.nodes.size
  else return { b' with stack := b.ast.nodes.size :: b'.stack }

def closeElement (o : Options) (b : Builder) : Step Builder :=
  match b.stack with
  | [] => pure b
  | id :: rest => close o { b with stack := rest } id

def endsInSpace (a : Ast) (children : List NodeId) : Option Bool :=
  match children.getLast? with
  | some id => isSpace a id
  | none => some false

def addText (s : Settings) (b : Builder) (id : NodeId) (parent : Element) (content : String) :
    Option Builder := do
  let text := b.keptText s parent content
  if text = "" then return b
  else
    let tokens :=
      if b.asWritten || text = " " then none else Interpolation.parse? s.delimiters text
    let again ←
      (if tokens.isNone && text = " " then endsInSpace b.ast parent.children else some false)
    return if again then b else b.addChild id (.text text tokens false)

def signal (o : Options) (source : String) (b : Builder) : Signal → Step Builder
  | .event (.opened tag attrs unary span) => openElement o b tag attrs unary span
  | .event (.closed _ _) => closeElement o b
  | .event (.text content _) =>
    match b.parent? with
    | none => b.textOutside source content
    | some id =>
      match b.ast.element? id with
      | some parent => found (addText o.toSettings b id parent content)
      | none => pure b
  | other => b.signal o source other

def signals (o : Options) (source : String) : List Signal → Builder → Step Builder
  | [], b => pure b
  | first :: rest, b => do
    let b ← signal o source b first
    signals o source rest b

variable {o : Options} {s : Settings} {seen : List Signal} {a : Ast} {b : Builder} {id : NodeId}
  {el : Element} {ids : List NodeId}

theorem isSpace_eq (h : id < a.nodes.size) : isSpace a id = some (a.isSpace id) := by
  obtain ⟨kind, hkind⟩ := Option.isSome_iff_exists.mp (Ast.kind?_isSome_iff.mpr h)
  unfold isSpace Ast.isSpace
  rw [hkind]
  cases kind <;> rfl

theorem skipSpaces_eq (h : ∀ x ∈ ids, x < a.nodes.size) :
    skipSpaces a ids = some (ids.dropWhile a.isSpace) := by
  induction ids with
  | nil => rfl
  | cons x rest ih =>
    rw [forall_mem_cons] at h
    rw [skipSpaces, isSpace_eq h.1, ih h.2, dropWhile_cons]
    cases a.isSpace x <;> rfl

theorem trimmed_eq (h : ∀ x ∈ el.children, x < b.ast.nodes.size) :
    trimmed b el = some (b.trimmed el) := by
  unfold trimmed Builder.trimmed
  split
  · rfl
  · rw [skipSpaces_eq fun x hx => h x (mem_reverse.mp hx)]
    rfl

theorem dropToElement_eq (h : ∀ x ∈ ids, x < a.nodes.size) :
    dropToElement s a ids = some (Builder.dropToElement s a ids) := by
  induction ids with
  | nil => rfl
  | cons x rest ih =>
    rw [forall_mem_cons] at h
    obtain ⟨kind, hkind⟩ := Option.isSome_iff_exists.mp (Ast.kind?_isSome_iff.mpr h.1)
    rw [dropToElement, Builder.dropToElement, hkind, ih h.2]
    cases kind <;> rfl

theorem attach_eq (h : b.ast.WellFormed) : attach s b id el = some (b.attach s id el) := by
  unfold attach Builder.attach
  cases b.parent? with
  | none => rfl
  | some parent =>
    dsimp only
    split
    · rfl
    · unfold Builder.link
      split
      · have hsiblings : ∀ x ∈ ((b.ast.element? parent).elim [] (·.children)).reverse,
            x < b.ast.nodes.size := by
          intro x hx
          rw [mem_reverse] at hx
          cases hpar : b.ast.element? parent with
          | none => rw [hpar] at hx; cases hx
          | some p =>
            rw [hpar] at hx
            exact (h.fits parent p hpar).inTree x (Element.child_link hx)
        unfold linkBranch
        dsimp only
        rw [dropToElement_eq hsiblings]
        rfl
      · rfl

/-- A closed element is put in its place before it is linked. -/
theorem wellFormed_settle {el' : Element} (h : b.ast.Sound s seen (id :: b.stack))
    (hel : b.ast.element? id = some el) (hclosed : el.Closes s seen el') :
    ((b.settle s id el').value.ast.setElement id el').WellFormed := by
  cases hstk : b.stack with
  | nil =>
    rw [hstk] at h
    obtain ⟨_, _, heq, hjoins, -⟩ := Builder.settle_joins s id el' hstk
    rw [heq]
    exact (Builder.joins_sound (h.replace hel hclosed.toDrops hclosed.written) hjoins).toWellFormed
  | cons p rest =>
    rw [Builder.settle_of_cons hstk]
    exact (h.replace hel hclosed.toDrops hclosed.written).toWellFormed

theorem close_agrees (ho : o.UsesWeb) (h : b.ast.Sound o.toSettings seen (id :: b.stack)) :
    Agrees (close o b id) (b.close o id) := by
  obtain ⟨el, hel⟩ := Option.isSome_iff_exists.mp h.nested.1
  have hkids : ∀ x ∈ el.children, x < b.ast.nodes.size := fun x hx =>
    (h.fits id el hel).inTree x (Element.child_link hx)
  unfold close Builder.close
  rw [hel]
  refine .bindFound (trimmed_eq hkids) ?_
  refine .bind (.lift _) (Builder.finished_spec ho b id (h.origin id el hel)) fun el' hclosed => ?_
  exact .bindLift (.bindFound (attach_eq (wellFormed_settle h hel hclosed)) (.bindLift (.pure _)))

theorem openElement_agrees (ho : o.UsesWeb) (h : b.Keeps o seen) {tag : String}
    {attrs : List Attr} {unary : Bool} {span : Span}
    (hmem : Signal.event (.opened tag attrs unary span) ∈ seen) :
    Agrees (openElement o b tag attrs unary span) (b.openElement o tag attrs unary span) := by
  rw [Builder.openElement_eq]
  refine .bind (.lift _) (Builder.placed_spec ho h.tree h.rootless hmem)
    fun b' ⟨hsound, _, hstk⟩ => ?_
  split
  · exact close_agrees ho (hstk ▸ hsound)
  · exact .pure _

theorem closeElement_agrees (ho : o.UsesWeb) (h : b.Keeps o seen) :
    Agrees (closeElement o b) (b.closeElement o) := by
  have htree := h.tree
  unfold closeElement Builder.closeElement
  cases hstk : b.stack with
  | nil => exact .pure b
  | cons id rest =>
    rw [hstk] at htree
    exact close_agrees ho htree

theorem addText_eq (h : ∀ x ∈ el.children, x < b.ast.nodes.size) (content : String) :
    addText s b id el content = some (b.addText s id el content) := by
  unfold addText Builder.addText
  dsimp only
  split
  · rfl
  · generalize (if b.asWritten || b.keptText s el content = " " then none
      else Interpolation.parse? s.delimiters (b.keptText s el content)) = tokens
    have hlast : endsInSpace b.ast el.children = some (el.children.getLast?.any b.ast.isSpace) := by
      unfold endsInSpace
      split
      · next x hx => rw [isSpace_eq (h x (mem_of_getLast? hx)), hx]; rfl
      · next hx => rw [hx]; rfl
    rw [hlast]
    cases tokens.isNone && decide (b.keptText s el content = " ") <;> rfl

theorem signal_agrees (ho : o.UsesWeb) (h : b.Keeps o seen) (source : String) {first : Signal}
    (hmem : first ∈ seen) : Agrees (signal o source b first) (b.signal o source first) := by
  cases first with
  | warning w span => exact .lift _
  | event event =>
    cases event with
    | opened tag attrs unary span => exact openElement_agrees ho h hmem
    | closed tag span => exact closeElement_agrees ho h
    | comment content span => exact .lift _
    | text content span =>
      unfold signal Builder.signal
      cases b.parent? with
      | none => exact .lift _
      | some id =>
        dsimp only
        cases hel : b.ast.element? id with
        | none => exact .pure b
        | some parent =>
          have hkids : ∀ x ∈ parent.children, x < b.ast.nodes.size := fun x hx =>
            (h.tree.fits id parent hel).inTree x (Element.child_link hx)
          show Agrees (found _) _
          rw [addText_eq hkids]
          exact .pure _

theorem signals_agrees (ho : o.UsesWeb) (h : b.Keeps o seen) (source : String)
    {signals : List Signal} (hseen : signals ⊆ seen) :
    Agrees (Indexed.signals o source signals b) (Builder.signals o source signals b) := by
  induction signals generalizing b with
  | nil => exact .pure b
  | cons first later ih =>
    obtain ⟨hfirst, hlater⟩ := cons_subset.mp hseen
    exact .bind (signal_agrees ho h source hfirst) (Builder.signal_spec ho h source hfirst)
      fun b' hb' => ih hb' hlater

end TemplateCompiler.Indexed
