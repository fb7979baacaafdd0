import TemplateCompiler.Render.Generate

/-!
# Entering elements again

The generator as it runs on node numbers. It puts one wrapper around an element and then enters the
element again, until no wrapper is left to put; only then does it move on to the nodes inside. The
first branch of a conditional chain is the element itself, which is entered once more, and an inline
template starts with no wrapper put.

Nothing in such a run says that it ends, so this one is given up where it would enter an element
more than `maxVisits` times in a row, move to a node that is not behind the one it comes from, or
look for a loop above more nodes than there are. It is also given up at a node that is not there,
and at a root, a scoped slot or a branch that is no element: nothing can be generated there.
-/

namespace TemplateCompiler

namespace Reentrant

open Gen

/-- The key of the nearest loop above a node, looked for among at most `depth` parents. -/
def keyAbove (a : Ast) (stuck : Gen Code) (found : Option String → Gen Code) :
    Nat → NodeId → Gen Code
  | 0, _ => stuck
  | depth + 1, id =>
    match a.parent? id with
    | none => found none
    | some parent =>
      match (a.element? parent).filter (·.loop.isSome) with
      | some el => found el.key
      | none => keyAbove a stuck found depth parent

/-- Has an element rendered once, entering it `again` inside. -/
def onceCode (a : Ast) (stuck : Gen Code) (id : NodeId) (el : Element) (chain again : Gen Code) :
    Gen Code := do
  mark id .once
  conditional id el chain do
    if !el.marks.inLoop then hoist id el again
    else
      keyAbove a stuck (fun
        | some key => do
          let body ← again
          let number ← nextOnce
          return .once body number key
        | none => do
          Noted.error .onceWithoutKey el.span
          again) (a.nodes.size + 1) id

/-- Puts the outermost wrapper that an element lacks, entering it `again` inside. -/
def elementCode (tags : TagTable) (a : Ast) (stuck : Gen Code) (id : NodeId) (el : Element)
    (chain again code : Gen Code) : Gen Code := do
  if el.marks.root && (← isPending id .hoist) then hoist id el again
  else if el.once && (← isPending id .once) then onceCode a stuck id el chain again
  else if el.loop.isSome && (← isPending id .loop) then repeated tags id el again
  else conditional id el chain code

/-- The content of a scoped slot. Its loop is put first, and the slot entered again inside. -/
def slotCode (key : String) (id : NodeId) (el : Element) (children : Gen (List Code))
    (again : Entry → Gen Code) : Gen Code := do
  if el.loop.isSome && (← isPending id .loop) then
    looped id el (fun _ => pure ()) (again (.slot key))
  else
    let body ← slotBody id el children (again .child)
    return .scopedSlot id key (el.slotScope.getD "") body

/-- The conditional chain of an element, whose branches are entered by `enter`. -/
def chainCode (id : NodeId) (enter : NodeId → Gen Code) : List Condition → Gen Code
  | [] => pure "_e()"
  | c :: rest => do
    let code ← enter c.block
    match c.exp with
    | some exp =>
      let rest ← chainCode id enter rest
      return .condition id c.block exp code rest
    | none => return code

variable (o : Options) (a : Ast) (stuck : Gen Code)

section

variable (id : NodeId) (el : Element) (move : Entry → NodeId → Gen Code)

def innerCode : Gen Code :=
  bareCode o a id el (el.children.mapM (move .child))
    (el.scopedSlots.mapM fun slot => move (.slot slot.1) slot.2)
    (inlineTemplate a el (el.children.head?.elim (pure "") (move .child)))

/-- The code of an element that may be entered `visits` more times in a row. -/
def entered : Nat → Entry → Gen Code
  | 0, _ => stuck
  | visits + 1, entry =>
    let again := entered visits
    let code := innerCode o a id el move
    let chain :=
      chainCode id (fun x => if x = id then again .branch else move .branch x) el.conditions
    match entry with
    | .child => elementCode o.tags a stuck id el chain (again .child) code
    | .branch =>
      if el.once then onceCode a stuck id el chain (again .child)
      else elementCode o.tags a stuck id el chain (again .child) code
    | .slot key => slotCode key id el (el.children.mapM (move .child)) again

end

/-- How many times in a row an element is entered: each of its four wrappers may be put, its chain
leads back to it, and a scoped slot is entered before its element. -/
def maxVisits : Nat := 7

/-- The code of a node, moving on to later nodes at most `depth` times. -/
def nodeCode : Nat → Entry → NodeId → Gen Code
  | 0, _, _ => stuck
  | depth + 1, entry, id =>
    match a.kind? id with
    | none => stuck
    | some (.text content tokens _) =>
      if entry = .child then
        pure (.text (tokens.elim (Text.literal content) Interpolation.toExpression))
      else stuck
    | some (.comment content _) =>
      if entry = .child then pure (.text ("_e(" ++ Text.literal content ++ ")")) else stuck
    | some (.element el) =>
      entered o a stuck id el
        (fun entry x => if id < x then nodeCode depth entry x else stuck) maxVisits entry

def generate : Outcome Bodies :=
  match a.root with
  | some root => do
    let code := nodeCode o a stuck (a.nodes.size + 1) .child root
    let (main, state) ← (if (a.element? root).isSome then code else stuck).run {}
    return { main, hoisted := state.hoisted }
  | none => pure { main := "_c(\"div\")" }

/-- The code of a tree, or nothing if the run is given up, which is told by a failure that no
extension has. -/
def generate? : Option (Outcome Bodies) :=
  let code := generate o a (throw ⟨"", ""⟩)
  match code.result with
  | .ok _ => some code
  | .error failure => if failure.hook = "" then none else some code

end Reentrant

end TemplateCompiler
