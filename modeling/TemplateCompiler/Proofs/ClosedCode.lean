import TemplateCompiler.Proofs.Writing

/-!
# Generated code is closed

If all pieces of source text that a tree stores are closed, then so are the bodies generated for it:
no literal and no bracket is left open, and none is closed that was not opened (`generate_closed`).
Texts that a scan gets through are a discipline. All that is special to it is how a plain and a
bound style are merged into one literal, which takes their braces off.

The result holds for every tree, whether or not its links form one.
-/

namespace TemplateCompiler

open Lexer String

/-! ## What a tree stores -/

/-- Every piece of source text that an element stores is closed. The tag can stand between single
quotes, and a plain style is an object. -/
structure Element.Lexed (el : Element) : Prop where
  tag : ∀ c ∈ el.tag.toList, c ≠ '\'' ∧ c ≠ '\\'
  ifExp : ∀ text ∈ el.ifExp, Closed text
  conditions : ∀ c ∈ el.conditions, ∀ text ∈ c.exp, Closed text
  loop : ∀ head ∈ el.loop, ∀ text ∈ head.fragments, Closed text
  key : ∀ text ∈ el.key, Closed text
  ref : ∀ text ∈ el.ref, Closed text
  attrs : ∀ b ∈ el.attrs, ∀ text ∈ b.fragments, Closed text
  props : ∀ b ∈ el.props, ∀ text ∈ b.fragments, Closed text
  listeners : ∀ l ∈ el.listeners, ∀ text ∈ l.fragments, Closed text
  directives : ∀ d ∈ el.directives, ∀ text ∈ d.fragments, Closed text
  slotName : ∀ text ∈ el.slotName, Closed text
  slotTarget : ∀ text ∈ el.slotTarget, Closed text
  slotScope : ∀ text ∈ el.slotScope, Closed text
  slotKeys : ∀ slot ∈ el.scopedSlots, Closed slot.1
  component : ∀ text ∈ el.component, Closed text
  boundObject : ∀ object ∈ el.boundObject, Closed object.value
  boundListeners : ∀ text ∈ el.boundListeners, Closed text
  staticClass : ∀ text ∈ el.staticClass, Closed text
  classBinding : ∀ text ∈ el.classBinding, Closed text
  staticStyle : ∀ text ∈ el.staticStyle, Closed text ∧ ∃ inner, text = braced inner
  styleBinding : ∀ text ∈ el.styleBinding, Closed text

/-- The pieces of source text that a tree stores are closed. -/
structure Ast.Lexed (a : Ast) : Prop where
  elements : ∀ id el, a.element? id = some el → el.Lexed
  texts : ∀ id content tokens isStatic, a.kind? id = some (.text content (some tokens) isStatic) →
    ∀ token ∈ tokens, ∀ text ∈ token.fragments, Closed text

/-! ## Styles -/

/-- A text without a comma at its end is closed if the text is. -/
theorem DataObject.closed_dropComma {s : String} (h : Closed s) : Closed (dropComma s) := by
  unfold dropComma
  split
  · next rest hrest =>
    apply Closed.of_concat_plain (c := ',') rfl
    have hs : rest.reverse ++ [','] = s.toList := by
      rw [← List.reverse_cons, ← hrest, List.reverse_reverse]
    rw [hs, ofList_toList]
    exact h
  · exact h

namespace Web

/-- What stands between the braces of a closed text leaves a curly bracket around it open. -/
theorem reads_inside {text : String} (h : Closed text) {mid : List Char}
    (heq : text.toList = '\x7b' :: mid ++ ['\x7d']) :
    Reads [.curly] (ofList mid) [.curly] := by
  unfold Closed Reads at h
  rw [heq] at h
  have hscan : scan (.code [.curly]) (mid ++ ['\x7d']) = some (.code []) := h
  rw [scan_append] at hscan
  obtain ⟨last, hlast, hclose⟩ := Option.bind_eq_some_iff.mp hscan
  obtain ⟨after, hstep, hafter⟩ := Option.bind_eq_some_iff.mp hclose
  rw [Option.some.inj hafter] at hstep
  unfold Reads
  rw [toList_ofList, hlast, eq_of_step_closing rfl hstep]

/-- A text that starts and ends with a brace is an object around what stands between them. -/
theorem eq_cons_inside {cs : List Char} (hhead : cs.head? = some '\x7b')
    (hlast : cs.getLast? = some '\x7d') : cs = '\x7b' :: inside cs ++ ['\x7d'] := by
  cases cs with
  | nil => cases hhead
  | cons first rest =>
    cases hhead
    cases rest with
    | nil => exact absurd hlast (by decide)
    | cons second rest =>
      rw [List.getLast?_cons_cons] at hlast
      have hne : second :: rest ≠ [] := by simp
      have hsplit := List.dropLast_concat_getLast hne
      rw [List.getLast?_eq_some_getLast hne, Option.some.injEq] at hlast
      rw [hlast] at hsplit
      show _ = '\x7b' :: ((second :: rest).dropLast ++ ['\x7d'])
      rw [hsplit]

/-- Two objects that are merged into one literal give a closed text. -/
theorem closed_mergedStyle {plain bound : String} (hplain : Closed plain) (hbound : Closed bound)
    (hobj : ∃ inner, plain = braced inner) : Closed (mergedStyle plain bound) := by
  unfold mergedStyle
  dsimp only
  split
  · next hbraces =>
    obtain ⟨inner, rfl⟩ := hobj
    have hinner : (braced inner).toList = '\x7b' :: inner.toList ++ ['\x7d'] := by
      unfold braced
      simp
    have hfirst : Reads [.curly] (ofList (inside (braced inner).toList)) [.curly] := by
      have hmid : inside (braced inner).toList = inner.toList := by
        rw [hinner]
        simp [inside]
      rw [hmid]
      exact reads_inside hplain hinner
    have hsecond : Reads [.curly] (ofList (inside (Text.trimmed bound.toList))) [.curly] := by
      have htrim := hbound.trim
      refine reads_inside htrim ?_
      unfold Text.trim
      rw [toList_ofList]
      exact eq_cons_inside hbraces.1 hbraces.2
    have hobjects : Closed (braced (ofList (inside (braced inner).toList) ++ "," ++
        ofList (inside (Text.trimmed bound.toList)))) :=
      Reads.append (Reads.append rfl (Reads.append (Reads.append hfirst rfl) hsecond)) rfl
    exact Reads.append (Reads.append rfl (hobjects.reads _)) rfl
  · exact Reads.append (Reads.append (Reads.append (Reads.append rfl (hbound.reads _)) rfl)
      (hplain.reads _)) rfl

end Web

/-! ## The discipline -/

/-- Texts that a scan gets through, from open brackets to open brackets. -/
def Discipline.lexical : Discipline where
  Leads := Reads
  tag name := ∀ c ∈ name.toList, c ≠ '\'' ∧ c ≠ '\\'
  modifier _ := True
  style text := Closed text ∧ ∃ inner, text = braced inner
  fixed h _ := h
  append := Reads.append
  inside := Closed.reads
  literal := Closed.literal
  escaped := Closed.escapeSeparators
  dropComma := DataObject.closed_dropComma
  quotedTag := Closed.singleQuoted
  modifiers _ := by
    unfold DataObject.directiveModifiers
    split
    · exact Closed.empty
    · exact Closed.append rfl (Closed.compact _)
  plainStyle h := h.1
  mergedStyle h hbound := Web.closed_mergedStyle h.1 hbound h.2

theorem Ast.Lexed.obeys {a : Ast} (h : a.Lexed) : a.Obeys .lexical where
  elements id el hel := { h.elements id el hel with
    directives := fun d hd => ⟨(h.elements id el hel).directives d hd, fun _ _ => trivial⟩ }
  texts := h.texts

/-- **Generated code is closed.** If the pieces of source text that a tree stores are closed, then
its main body and all its hoisted bodies are. -/
theorem generate_closed (o : Options) (ho : ∀ m ∈ o.modules, m ∈ Web.modules) (a : Ast)
    (ha : a.Lexed) :
    ∃ bodies, (generate o a).result = .ok bodies ∧ Closed bodies.main.renderBody ∧
      ∀ body ∈ bodies.hoisted, Closed body.renderBody :=
  (ha.obeys.generate ho (p := fun _ => false) rfl rfl).2

/-- A list with a key, a handler, and a plain style merged into a bound one. -/
theorem generate_closed_list :
    ∃ a : Ast, a.Lexed ∧ ∃ bodies, (generate Web.options a).result = .ok bodies ∧
      Closed bodies.main.renderBody ∧ ∀ body ∈ bodies.hoisted, Closed body.renderBody := by
  let item : Element :=
    { tag := "li", children := [1], loop := some ⟨"xs[')']", "x", some "i", none⟩,
      key := some "x['id']", staticStyle := some (braced "\"top\":\"0\""),
      styleBinding := some " \x7bleft: x.left\x7d ",
      listeners := [⟨⟨"click", false, false, false⟩, [⟨"go(x, \"]\")", some ["stop"]⟩]⟩] }
  let a : Ast :=
    { nodes := #[⟨none, .element item⟩, ⟨some 0, .text "" (some [.expression "x.name"]) false⟩],
      root := some 0 }
  have hitem : item.Lexed := by
    constructor
    case tag => simp [item]
    case staticStyle =>
      intro text htext
      cases htext
      exact ⟨by decide, _, rfl⟩
    all_goals decide
  have ha : a.Lexed := by
    constructor
    · intro id el hel
      match id with
      | 0 =>
        cases hel
        exact hitem
      | 1 => cases hel
      | id + 2 => cases hel
    · intro id content tokens isStatic hkind
      match id with
      | 0 => cases hkind
      | 1 =>
        cases hkind
        decide
      | id + 2 => cases hkind
  exact ⟨a, ha, generate_closed Web.options (fun _ hm => hm) a ha⟩

end TemplateCompiler
