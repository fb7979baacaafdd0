import TemplateCompiler.Markup.Scanner
import TemplateCompiler.Template.Ast
import TemplateCompiler.Template.Attributes

/-!
# Building a template tree

The builder takes the signals of a template one at a time. A start tag adds an element and takes its
structural directives; when the element is closed its other attributes are given their meaning and
it is linked to its parent as a child, a branch of a conditional chain or a scoped slot.
-/

namespace TemplateCompiler

open Markup

/-- A tree under construction. -/
structure Builder where
  ast : Ast := {}
  /-- The open elements, innermost first. -/
  stack : List NodeId := []
  /-- Inside an element that is left as written. -/
  asWritten : Bool := false
  /-- Inside a tag that keeps white space. -/
  keepsSpace : Bool := false
  /-- A problem with the root has been reported. -/
  rootReported : Bool := false
  /-- Text outside the root has been reported. -/
  textReported : Bool := false
  deriving Inhabited

def collapseBlanks (inRun : Bool) : List Char → List Char
  | [] => []
  | c :: cs =>
    if [' ', '\t', '\n', '\r', '\x0c'].contains c then
      if inRun then collapseBlanks true cs else ' ' :: collapseBlanks true cs
    else c :: collapseBlanks false cs

/-- The errors for attributes whose name has been used before on the same tag. -/
def reportDuplicates (seen : List String) : List Attr → Noted Unit
  | [] => pure ()
  | attr :: rest => do
    if seen.contains attr.name then Noted.error (.duplicateAttribute attr.name) attr.span
    reportDuplicates (attr.name :: seen) rest

def Element.isForbidden (el : Element) : Bool :=
  el.tag = "style" ||
    (el.tag = "script" && (el.attr? "type").all fun t => t = "" || t = "text/javascript")

def reportForbidden (el : Element) : Noted Unit :=
  if el.forbidden then Noted.error (.sideEffectTag el.tag) el.span else pure ()

def expansion? (s : Settings) (el : Element) : List Module → Outcome (Option Expansion)
  | [] => pure none
  | m :: rest => do
    match ← m.expand s el with
    | some expansion => return some expansion
    | none => expansion? s el rest

def Element.takeLoopIf (s : Settings) (keep : Bool) (el : Element) : Noted Element :=
  if keep then el.takeLoop s else pure (el.takeEntirely (s.directive "for")).2

/-- The processed element of a branch that takes the place of `el`. Only the first one loops. -/
def branchElement (o : Options) (above : List Element) (el : Element) (first : Bool)
    (branch : Branch) : Outcome Element := do
  let s := o.toSettings
  let clone := { Element.ofTag el.tag branch.attrs with ns := el.ns, span := el.span }
  let clone ← clone.takeLoopIf s first
  (clone.takeOnce s).process o above

def otherBranches (o : Options) (above : List Element) (el : Element) :
    List Branch → Outcome (List Element)
  | [] => pure []
  | branch :: rest => do
    let clone ← branchElement o above el false branch
    let others ← otherBranches o above el rest
    return clone :: others

/-- Marks how an expanded element continues the chain before it. -/
def Element.linkChain (el : Element) : ChainLink → Element
  | .none => el
  | .elseIf exp => { el with elseIf := some exp }
  | .otherwise => { el with isElse := true }

namespace Builder

/-- The element that is open innermost. -/
def parent? (b : Builder) : Option NodeId := b.stack.head?

def reportRoot (b : Builder) (problem : Problem) (span : Option Span) : Noted Builder :=
  if b.rootReported then pure b
  else do
    Noted.error problem span
    return { b with rootReported := true }

/-- Reports a root that may render several nodes. -/
def checkRoot (s : Settings) (b : Builder) (el : Element) : Noted Builder := do
  let b ←
    if el.tag = "slot" ∨ el.tag = "template" then
      b.reportRoot (.rootOfManyNodes el.tag) el.span
    else pure b
  if el.hasAttr (s.directive "for") then b.reportRoot (.rootLoops (s.directive "for")) el.span
  else pure b

/-- Replaces the element with number `id` by the branches of an expansion. The first branch takes
its number, and the others take the next ones. -/
def expand (o : Options) (b : Builder) (id : NodeId) (el : Element) (e : Expansion) :
    Outcome (Builder × Element) := do
  let above := b.ast.ancestorElements id
  match e.branches with
  | [] => return (b, el.linkChain e.link)
  | branch :: rest =>
    let head ← branchElement o above el true branch
    let others ← otherBranches o above el rest
    let ids := List.range' b.ast.nextId others.length
    let conditions : List Condition :=
      ⟨branch.condition, id⟩ :: (rest.zip ids).map fun p => ⟨p.1.condition, p.2⟩
    let head := { head with ifExp := branch.condition, conditions := head.conditions ++ conditions }
    let ast := b.ast.pushElements b.parent? others
    return ({ b with ast }, head.linkChain e.link)

/-- Takes the trailing texts and comments off a list of children, last first, up to an element. Text
other than a space is reported. -/
def dropToElement (s : Settings) (a : Ast) : List NodeId → Noted (List NodeId)
  | [] => pure []
  | id :: rest =>
    match a.kind? id with
    | some (.element _) => pure (id :: rest)
    | some (.text content _ _) => do
      if content ≠ " " then
        Noted.error
          (.textBetweenBranches (Text.trim content) (s.directive "if") (s.directive "else")) none
      dropToElement s a rest
    | _ => dropToElement s a rest

def addBranch (a : Ast) (head : NodeId) (branch : Condition) : Ast :=
  a.modifyElement head fun el => { el with conditions := el.conditions ++ [branch] }

def linkBranch (s : Settings) (b : Builder) (id : NodeId) (el : Element) (parent : NodeId) :
    Noted Builder := do
  let siblings := (b.ast.element? parent).elim [] (·.children)
  let kept ← dropToElement s b.ast siblings.reverse
  let ast := b.ast.modifyElement parent fun p => { p with children := kept.reverse }
  match kept.head?.filter fun p => (ast.element? p).any (·.ifExp.isSome) with
  | some head => return { b with ast := addBranch ast head { exp := el.elseIf, block := id } }
  | none =>
    let branch := match el.elseIf with
      | some exp => s.directive "else-if" ++ "=\"" ++ exp ++ "\""
      | none => s.directive "else"
    Noted.error (.branchWithoutIf branch el.tag (s.directive "if")) el.span
    return { b with ast }

def link (s : Settings) (b : Builder) (id : NodeId) (el : Element) (parent : NodeId) :
    Noted Builder :=
  if el.isChained then b.linkBranch s id el parent
  else
    let addTo (p : Element) : Element :=
      if el.slotScope.isSome then
        let name := el.slotTarget.getD "\"default\""
        { p with scopedSlots := p.scopedSlots.filter (·.1 ≠ name) ++ [(name, id)] }
      else { p with children := p.children ++ [id] }
    pure { b with ast := b.ast.modifyElement parent addTo }

/-- Takes an element at the top level that is not the root: a branch of the root, or one too
many. -/
def addToRoot (s : Settings) (b : Builder) (id : NodeId) (el : Element) : Noted Builder := do
  match b.ast.root.filter fun r => el.isChained && (b.ast.element? r).any (·.ifExp.isSome) with
  | some root =>
    let b ← b.checkRoot s el
    return { b with ast := addBranch b.ast root { exp := el.elseIf, block := id } }
  | none => b.reportRoot .manyRoots el.span

def dropSpaces (a : Ast) (children : List NodeId) : List NodeId :=
  (children.reverse.dropWhile a.isSpace).reverse

/-- An element without the spaces at its end, unless white space is kept. -/
def trimmed (b : Builder) (el : Element) : Element :=
  if b.keepsSpace then el else { el with children := dropSpaces b.ast el.children }

/-- An element whose content is known, with the meaning of its attributes unless it is left as
written. -/
def finished (o : Options) (b : Builder) (id : NodeId) (el : Element) : Outcome Element :=
  if b.asWritten || el.processed then pure el else el.process o (b.ast.ancestorElements id)

/-- Takes a closed element at the top level. -/
def settle (s : Settings) (b : Builder) (id : NodeId) (el : Element) : Noted Builder :=
  if b.stack.isEmpty && b.ast.root ≠ some id then b.addToRoot s id el else pure b

/-- Links a closed element to the open element around it. A forbidden one is left out. -/
def attach (s : Settings) (b : Builder) (id : NodeId) (el : Element) : Noted Builder :=
  match b.parent? with
  | some parent => if el.forbidden then pure b else b.link s id el parent
  | none => pure b

/-- Closes an element that is no longer on the stack. -/
def close (o : Options) (b : Builder) (id : NodeId) : Outcome Builder :=
  match b.ast.element? id with
  | none => pure b
  | some el => do
    let s := o.toSettings
    let el ← b.finished o id (b.trimmed el)
    let b ← b.settle s id el
    let b ← attach s { b with ast := b.ast.setElement id el } id el
    return { b with
      asWritten := b.asWritten && !el.pre
      keepsSpace := b.keepsSpace && !s.tags.isPre el.tag }

/-- The element of a start tag, with its attributes as written. -/
def newElement (s : Settings) (b : Builder) (tag : String) (attrs : List Attr) (span : Span) :
    Element :=
  let inherited := (b.parent?.bind b.ast.element?).bind (·.ns)
  let el := { Element.ofTag tag attrs with ns := inherited.or (s.tags.namespaceOf tag), span }
  { el with forbidden := el.isForbidden }

/-- Replaces a new element by its expansion, if it has one. -/
def expanded (o : Options) (b : Builder) (id : NodeId) (el : Element) :
    Outcome (Builder × Element) := do
  match ← expansion? o.toSettings el o.modules with
  | some e => b.expand o id el e
  | none => return (b, el)

/-- Enters a new element: from here on its content may be taken as written, or keep its space. -/
def enter (s : Settings) (b : Builder) (el : Element) : Builder × Element :=
  let el := if b.asWritten then el else el.takePre s
  ({ b with
      asWritten := b.asWritten || el.pre
      keepsSpace := b.keepsSpace || s.tags.isPre el.tag }, el)

/-- Takes the structural directives of a new element, or all its attributes as they are. -/
def structured (s : Settings) (b : Builder) (id : NodeId) (el : Element) : Noted Element :=
  if b.asWritten then pure el.keepAttributes
  else if el.processed then pure el
  else do
    let el ← el.takeLoop s
    let el ← el.takeCondition s id
    return el.takeOnce s

def withRoot (s : Settings) (b : Builder) (id : NodeId) (el : Element) : Noted Builder :=
  if b.ast.root.isNone then checkRoot s { b with ast := { b.ast with root := some id } } el
  else pure b

def openElement (o : Options) (b : Builder) (tag : String) (attrs : List Attr) (unary : Bool)
    (span : Span) : Outcome Builder := do
  let s := o.toSettings
  let id := b.ast.nextId
  let el := b.newElement s tag attrs span
  reportDuplicates [] attrs
  reportForbidden el
  let (b, el) ← expanded o { b with ast := b.ast.push b.parent? (.element el) } id el
  let (b, el) := b.enter s el
  let el ← b.structured s id el
  let b ← b.withRoot s id el
  let b := { b with ast := b.ast.setElement id el }
  if unary then b.close o id else return { b with stack := id :: b.stack }

def closeElement (o : Options) (b : Builder) : Outcome Builder :=
  match b.stack with
  | [] => pure b
  | id :: rest => close o { b with stack := rest } id

def addChild (b : Builder) (parent : NodeId) (kind : NodeKind) : Builder :=
  let id := b.ast.nextId
  { b with
    ast := (b.ast.push (some parent) kind).modifyElement parent fun p =>
      { p with children := p.children ++ [id] } }

/-- The text that is kept of a run of characters inside an element: references are decoded except in
scripts and styles, and white space between tags becomes a space or nothing. -/
def keptText (s : Settings) (b : Builder) (parent : Element) (content : String) : String :=
  let text :=
    if b.keepsSpace || !Text.isBlank content then
      if parent.tag = "script" ∨ parent.tag = "style" then content
      else Text.decodeReferences content
    else if parent.children.isEmpty then ""
    else if s.whitespace = .condense ∧ content.toList.any (fun c => c = '\n' || c = '\r') then ""
    else " "
  if !b.keepsSpace && s.whitespace = .condense then
    String.ofList (collapseBlanks false text.toList)
  else text

/-- Adds text. A second space in a row is dropped. -/
def addText (s : Settings) (b : Builder) (id : NodeId) (parent : Element) (content : String) :
    Builder :=
  let text := b.keptText s parent content
  if text = "" then b
  else
    let tokens :=
      if b.asWritten || text = " " then none else Interpolation.parse? s.delimiters text
    if tokens.isNone && text = " " && parent.children.getLast?.any b.ast.isSpace then b
    else b.addChild id (.text text tokens false)

def textOutside (source : String) (b : Builder) (content : String) : Noted Builder :=
  if content = source then b.reportRoot .onlyText none
  else if Text.isBlank content || b.textReported then pure b
  else do
    Noted.error (.textOutsideRoot (Text.trim content)) none
    return { b with textReported := true }

def signal (o : Options) (source : String) (b : Builder) : Signal → Outcome Builder
  | .warning w span => do
    Noted.error (.markup w) (some span)
    return b
  | .event (.opened tag attrs unary span) => b.openElement o tag attrs unary span
  | .event (.closed _ _) => b.closeElement o
  | .event (.text content _) =>
    match b.parent? with
    | none => b.textOutside source content
    | some id =>
      match b.ast.element? id with
      | some parent => pure (b.addText o.toSettings id parent content)
      | none => pure b
  | .event (.comment content _) =>
    match b.parent? with
    | none => pure b
    | some id => pure (b.addChild id (.comment content false))

def signals (o : Options) (source : String) : List Signal → Builder → Outcome Builder
  | [], b => pure b
  | first :: rest, b => do
    let b ← b.signal o source first
    signals o source rest b

end Builder

/-- Reads a template into a tree. Problems of the template are reported, and only an extension can
fail. -/
def parse (o : Options) (source : String) : Outcome Ast := do
  let b ← Builder.signals o source (read o.tags o.comments source) {}
  if b.ast.root.isNone && !b.rootReported then Noted.error .noRoot none
  return b.ast

end TemplateCompiler
