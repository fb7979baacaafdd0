import TemplateCompiler.Proofs.Disciplines
import TemplateCompiler.Proofs.Omission
import TemplateCompiler.Proofs.Unwritten

/-!
# What holds of all code that is written

If the pieces of source text that a tree stores keep to a discipline, then so do the bodies that are
generated for it (`Ast.Obeys.generate`), and the bodies of a tree do not depend on its markup
(`generate_agree`). `Writes` is what each step keeps, beside the same step for a tree with other
markup: started with good bodies both have the same result, and leave the same good bodies. On the
way they only find fault with rendering once and with inline templates. The record of wrappers plays
no part in this, and the links of the tree need not form one.
-/

namespace TemplateCompiler

open List

variable {key source : String} {data first second : Code} {o : Options} {a : Ast}
  {p : Problem → Bool} {w : Writing} {id : NodeId}

namespace Code

@[simp] theorem render_append : (first ++ second).render = first.render ++ second.render := by
  show (Code.append first second).render = _
  rw [render]

@[simp] theorem render_text : (Code.text source).render = source := by
  rw [render]

end Code

namespace Gen

variable {α β : Type} {good : Code → Prop} {p : Problem → Bool}

/-- Whatever the state, as long as its bodies are good: both steps have the same result, which the
condition holds for, the bodies are good again, and there are as many reports. No error of the first
step is one that `p` picks out. -/
def Writes (good : Code → Prop) (p : Problem → Bool) (x x' : Gen α) (post : α → Prop) : Prop :=
  ∀ s, (∀ body ∈ s.hoisted, good body) → (x.run s).Omits p ∧
    (x.run s).Agree (fun r r' => r' = r ∧ (∀ body ∈ r.2.hoisted, good body) ∧ post r.1) (x'.run s)

abbrev WritesCode (good : Code → Prop) (p : Problem → Bool) (x x' : Gen Code) : Prop :=
  Writes good p x x' good

abbrev WritesCodes (good : Code → Prop) (p : Problem → Bool) (x x' : Gen (List Code)) : Prop :=
  Writes good p x x' fun codes => ∀ c ∈ codes, good c

namespace Writes

variable {x x' : Gen α} {f f' : α → Gen β} {mid : α → Prop} {post : β → Prop}

theorem pure {a : α} (h : mid a) : Writes good p (Pure.pure a) (Pure.pure a) mid :=
  fun _ hs => ⟨.pure _, .pure ⟨rfl, hs, h⟩⟩

theorem bind (hx : Writes good p x x' mid) (hf : ∀ a, mid a → Writes good p (f a) (f' a) post) :
    Writes good p (x >>= f) (x' >>= f') post := by
  intro s hs
  obtain ⟨homits, hagree⟩ := hx s hs
  rw [StateT.run_bind, StateT.run_bind]
  refine ⟨fun e he => ?_, .bind hagree ?_⟩
  · obtain ⟨_, r, hres, -, ⟨rfl, hs', hr⟩, -⟩ := hagree
    rw [Outcome.notes_bind hres] at he
    exact (mem_append.mp he).elim (homits e) ((hf r.1 hr r.2 hs').1 e)
  · rintro _ r ⟨rfl, hs', hr⟩
    exact (hf r.1 hr r.2 hs').2

theorem ite {c : Prop} [Decidable c] {y y' : Gen α} (hx : Writes good p x x' mid)
    (hy : Writes good p y y' mid) :
    Writes good p (if c then x else y) (if c then x' else y') mid := by
  split
  · exact hx
  · exact hy

/-- A step that changes no body, and whose result does not matter. -/
theorem silent (h : ∀ s, ∃ r : α × GenState, x.run s = Pure.pure r ∧ r.2.hoisted = s.hoisted) :
    Writes good p x x fun _ => True := by
  intro s hs
  obtain ⟨r, hrun, hbodies⟩ := h s
  rw [hrun]
  refine ⟨.pure _, .pure ⟨rfl, ?_, trivial⟩⟩
  rwa [hbodies]

theorem isPending (id : NodeId) (w : Wrapper) :
    Writes good p (isPending id w) (isPending id w) fun _ => True :=
  silent fun s => ⟨(!s.done.contains (id, w), s), rfl, rfl⟩

theorem mark (id : NodeId) (w : Wrapper) : Writes good p (mark id w) (mark id w) fun _ => True :=
  silent fun s => ⟨((), { s with done := (id, w) :: s.done }), rfl, rfl⟩

theorem nextOnce : Writes good p nextOnce nextOnce fun _ => True :=
  silent fun s => ⟨(s.onceCount, { s with onceCount := s.onceCount + 1 }), rfl, rfl⟩

theorem lift {n n' : Noted α} (h : n.Omits p) (hn : n.Agree Eq n') :
    Writes good p (liftM n) (liftM n') fun _ => True := by
  intro s hs
  refine ⟨.bind (.lift h) fun _ => .pure _, .bind (.lift hn) fun a a' ha => .pure ?_⟩
  rw [ha]
  exact ⟨rfl, hs, trivial⟩

theorem pushBody {body : Code} (h : good body) :
    Writes good p (pushBody body) (pushBody body) fun _ => True := by
  intro s hs
  refine ⟨.pure _, .pure (a := (s.hoisted.length, { s with hoisted := s.hoisted ++ [body] }))
    ⟨rfl, fun b hb => ?_, trivial⟩⟩
  rcases mem_append.mp hb with hb | hb
  · exact hs b hb
  · rw [mem_singleton.mp hb]
    exact h

theorem onlyIf {codes codes' : Gen (List Code)} (wanted : Bool)
    (h : WritesCodes good p codes codes') :
    WritesCodes good p (onlyIf wanted codes) (onlyIf wanted codes') :=
  .ite h (.pure (by simp))

theorem isolated {step step' : Gen Code} (h : WritesCode good p step step') :
    Writes good p (isolated step) (isolated step') fun r => good r.1 ∧ ∀ body ∈ r.2, good body := by
  have hrun : Writes good p (liftM (step.run {}) : Gen _) (liftM (step'.run {})) fun r =>
      good r.1 ∧ ∀ body ∈ r.2.hoisted, good body := by
    intro s hs
    obtain ⟨homits, hagree⟩ := h {} (by simp)
    refine ⟨.bind homits fun _ => .pure _, .bind hagree ?_⟩
    rintro _ r ⟨rfl, hbodies, hcode⟩
    exact .pure ⟨rfl, hs, hcode, hbodies⟩
  exact .bind hrun fun r hr => .pure hr

end Writes

/-! ## Wrappers -/

/-- The wrappers of an element can be put around good code. -/
structure Wraps (a : Ast) (id : NodeId) (el : Element) (good : Code → Prop) : Prop where
  hoisted : ∀ index inLoop, good (.hoisted id index inLoop)
  loop : ∀ head ∈ el.loop, ∀ body, good body → good (.loop id head.source head.params body)
  once : ∀ key ∈ loopKey? a id, ∀ body number, good body → good (.once body number key)

variable {a a' : Ast} {id : NodeId} {el : Element} {chain chain' code code' : Gen Code}

theorem looped_writes (w : Writing) {note note' : LoopHead → Gen Unit}
    (hloop : ∀ head ∈ el.loop, ∀ body, good body → good (.loop id head.source head.params body))
    (hnote : ∀ head, Writes good p (note head) (note' head) fun _ => True)
    (h : WritesCode good p code code') :
    WritesCode good p (looped id el note code) (looped id (el.rewritten w) note' code') := by
  unfold looped
  rw [show (el.rewritten w).loop = el.loop from rfl]
  cases hhead : el.loop with
  | none => exact h
  | some head =>
    refine .bind (.isPending id .loop) fun pending _ => .ite ?_ h
    refine .bind (.mark id .loop) fun _ _ => .bind (hnote head) fun _ _ => ?_
    exact .bind h fun body hbody => .pure (hloop head hhead body hbody)

section

variable (tags : TagTable) (w : Writing) (hwraps : Wraps a id el good)
  (hcode : WritesCode good p code code')

include hwraps hcode

theorem repeated_writes :
    WritesCode good p (repeated tags id el code) (repeated tags id (el.rewritten w) code') :=
  looped_writes w hwraps.loop
    (fun _ => .ite (.lift (.tip _ _) (.tip _ _ _ _)) (.pure trivial)) hcode

theorem hoist_writes : WritesCode good p (hoist id el code) (hoist id (el.rewritten w) code') := by
  refine .bind (.mark id .hoist) fun _ _ => .bind (.mark id .once) fun _ _ => ?_
  refine .bind hcode fun body hbody => .bind (.pushBody hbody) fun index _ => .pure ?_
  exact hwraps.hoisted index el.marks.inLoop

theorem hoistRoot_writes :
    WritesCode good p (hoistRoot id el code) (hoistRoot id (el.rewritten w) code') :=
  .bind (.isPending id .hoist) fun _ _ => .ite (hoist_writes w hwraps hcode) hcode

end

theorem conditional_writes (id : NodeId) (el : Element) (w : Writing)
    (hchain : WritesCode good p chain chain') (hcode : WritesCode good p code code') :
    WritesCode good p (conditional id el chain code)
      (conditional id (el.rewritten w) chain' code') :=
  .bind (.isPending id .condition) fun _ _ =>
    .ite (.bind (.mark id .condition) fun _ _ => hchain) hcode

section

variable (hp : p .onceWithoutKey = false) (ha : a'.unwritten = a.unwritten)

include hp ha

theorem renderedOnce_writes (hwraps : Wraps a id el good) (h : WritesCode good p code code') :
    WritesCode good p (renderedOnce a id el code) (renderedOnce a' id (el.rewritten w) code') := by
  unfold renderedOnce
  rw [← loopKey?_unwritten a', ha, loopKey?_unwritten]
  refine .ite (hoist_writes w hwraps h) ?_
  cases hkey : loopKey? a id with
  | none =>
    exact .bind (.lift (.error hp _) (.error _ _ _ _)) fun _ _ => hoistRoot_writes w hwraps h
  | some key =>
    refine .bind (hoistRoot_writes w hwraps h) fun body hbody => ?_
    exact .bind .nextOnce fun number _ => .pure (hwraps.once key hkey body number hbody)

variable (tags : TagTable) (w : Writing) (hwraps : Wraps a id el good)
  (hchain : WritesCode good p chain chain') (hcode : WritesCode good p code code')

include hwraps hchain hcode

theorem onceWrapped_writes : WritesCode good p (onceWrapped tags a id el chain code)
    (onceWrapped tags a' id (el.rewritten w) chain' code') := by
  have hitem := repeated_writes tags w hwraps hcode
  exact .bind (.mark id .once) fun _ _ =>
    conditional_writes id el w hchain (renderedOnce_writes hp ha hwraps hitem)

theorem wrapped_writes : WritesCode good p (wrapped tags a id el chain code)
    (wrapped tags a' id (el.rewritten w) chain' code') := by
  have hinner := repeated_writes tags w hwraps (conditional_writes id el w hchain hcode)
  refine .bind (.isPending id .hoist) fun _ _ => .ite (hoist_writes w hwraps hinner) ?_
  exact .bind (.isPending id .once) fun _ _ =>
    .ite (onceWrapped_writes hp ha tags w hwraps hchain hcode) hinner

theorem branchWrapped_writes : WritesCode good p (branchWrapped tags a id el chain code)
    (branchWrapped tags a' id (el.rewritten w) chain' code') :=
  .ite (onceWrapped_writes hp ha tags w hwraps hchain hcode)
    (wrapped_writes hp ha tags w hwraps hchain hcode)

end

theorem inlineTemplate_writes (hp : p .inlineTemplateContent = false)
    (ha : a'.unwritten = a.unwritten) {w : Writing} (hw : (el.rewritten w).unwritten = el.unwritten)
    {first first' : Gen Code} (h : WritesCode good p first first')
    (hinl : ∀ body bodies, good body → (∀ b ∈ bodies, good b) →
      good (.inlineTemplate body bodies)) :
    WritesCodes good p (inlineTemplate a el first) (inlineTemplate a' (el.rewritten w) first') := by
  have hstarts : startsWithElement a' (el.rewritten w) = startsWithElement a el := by
    rw [← startsWithElement_unwritten a', ha, hw, startsWithElement_unwritten]
  unfold inlineTemplate reportInline
  rw [hstarts]
  refine .bind (.lift ?_ (rel_ite Iff.rfl (.pure rfl) (.error _ _ _ _))) fun _ _ => .onlyIf _ ?_
  · split
    · exact .pure _
    · exact .error hp _
  · refine .bind (.isolated h) fun r hr => .pure fun c hc => ?_
    rw [mem_singleton.mp hc]
    exact hinl r.1 r.2 hr.1 hr.2

end Gen

/-! ## Pieces of code -/

open Discipline Text

variable {d : Discipline}

abbrev Code.Obeys (d : Discipline) (code : Code) : Prop := d.Good code.render

namespace Code

variable {shown otherwise body : Code} {codes : List Code}

theorem obeys_join (h : ∀ c ∈ codes, c.Obeys d) : (join "," codes).Obeys d := by
  induction codes with
  | nil => exact .empty
  | cons first rest ih =>
    have hfirst := h first mem_cons_self
    cases rest with
    | nil => exact hfirst
    | cons second rest =>
      have hrest := ih fun c hc => h c (mem_cons_of_mem _ hc)
      unfold join
      rw [Obeys, render_append, render_append]
      exact .append (.append hfirst (.fixed rfl rfl)) hrest

theorem obeys_enclosed {first last : String} {b : List Bracket} (hfirst : d.Leads [] first b)
    (hlast : d.Leads b last []) (h : ∀ c ∈ codes, c.Obeys d) :
    ((first : Code) ++ join "," codes ++ (last : Code)).Obeys d := by
  rw [Obeys, render_append, render_append]
  exact d.append (d.append hfirst ((obeys_join h).leads b)) hlast

theorem obeys_call {name : String} (hname : Reads [] name [.round]) (hname' : Unbroken name)
    (h : ∀ c ∈ codes, c.Obeys d) : ((name : Code) ++ join "," codes ++ (")" : Code)).Obeys d :=
  obeys_enclosed (b := [.round]) (d.fixed hname hname') (d.fixed rfl rfl) h

theorem obeys_hoisted (id : NodeId) (index : Nat) (inLoop : Bool) :
    (Code.hoisted id index inLoop).Obeys d := by
  have hflag : d.Good (if inLoop then ",true" else "") := by
    split <;> exact .fixed rfl rfl
  exact d.append (d.append (d.append (d.fixed rfl rfl) ((Good.repr index).leads _))
    (hflag.leads _)) (d.fixed rfl rfl)

theorem good_returned (h : body.Obeys d) : d.Good (braced ("return " ++ body.render)) :=
  .braced (.append (.fixed rfl rfl) h)

theorem obeys_loop {params : String} (hsrc : d.Good source)
    (hparams : d.Good params) (h : body.Obeys d) : (Code.loop id source params body).Obeys d := by
  exact d.append (d.append (d.append (d.append (d.append (d.append (d.fixed rfl rfl)
    (hsrc.leads _)) (d.fixed rfl rfl)) (hparams.leads _)) (d.fixed rfl rfl))
    ((good_returned h).leads _)) (d.fixed rfl rfl)

theorem obeys_condition {exp : String} (chain block : NodeId) (hexp : d.Good exp)
    (hshown : shown.Obeys d) (hotherwise : otherwise.Obeys d) :
    (Code.condition chain block exp shown otherwise).Obeys d := by
  exact .append (.append (.append (hexp.between rfl rfl rfl rfl) hshown) (.fixed rfl rfl))
    hotherwise

theorem obeys_once (number : Nat) (hkey : d.Good key) (h : body.Obeys d) :
    (Code.once body number key).Obeys d := by
  exact d.append (d.append (d.append (d.append (d.append (d.append (d.fixed rfl rfl) (h.leads _))
    (d.fixed rfl rfl)) ((Good.repr number).leads _)) (d.fixed rfl rfl)) (hkey.leads _))
    (d.fixed rfl rfl)

theorem obeys_scopedSlot {scope : String} (hkey : d.Good key)
    (hscope : d.Good scope) (h : body.Obeys d) : (Code.scopedSlot id key scope body).Obeys d := by
  apply Good.braced
  exact d.append (d.append (d.append (d.append (d.append (d.fixed rfl rfl) hkey) (d.fixed rfl rfl))
    (hscope.leads _)) (d.fixed rfl rfl)) (good_returned h)

theorem good_renderBody (h : body.Obeys d) : d.Good body.renderBody :=
  .append (.fixed rfl rfl) (good_returned h)

theorem good_renderFunctions (h : ∀ c ∈ codes, c.Obeys d) :
    ∀ text ∈ renderFunctions codes, d.Good text := by
  induction codes with
  | nil =>
    intro text htext
    cases htext
  | cons first rest ih =>
    intro text htext
    rcases mem_cons.mp htext with rfl | htext
    · exact .append (.fixed rfl rfl) (good_renderBody (h first mem_cons_self)).braced
    · exact ih (fun c hc => h c (mem_cons_of_mem _ hc)) text htext

theorem obeys_inlineTemplate (body : Code) (codes : List Code) (h : body.Obeys d)
    (hcodes : ∀ c ∈ codes, c.Obeys d) : (Code.inlineTemplate body codes).Obeys d := by
  have hfns : d.Good (String.intercalate "," (renderFunctions codes)) :=
    .intercalate (.fixed rfl rfl) (good_renderFunctions hcodes)
  refine .append (.fixed rfl rfl) (.braced ?_)
  exact d.append (d.append (d.append (d.append (d.fixed rfl rfl) (good_renderBody h).braced)
    (d.fixed rfl rfl)) (hfns.leads _)) (d.fixed rfl rfl)

end Code

theorem LoopHead.good_params {head : LoopHead} (h : ∀ text ∈ head.fragments, d.Good text) :
    d.Good head.params := by
  have hmore (iterator : Option String) (hi : ∀ text ∈ iterator, d.Good text) :
      d.Good (iterator.elim "" ("," ++ ·)) := by
    cases iterator with
    | none => exact .empty
    | some text => exact .append (.fixed rfl rfl) (hi text rfl)
  refine .append (.append (h _ (by simp [fragments])) (hmore _ ?_)) (hmore _ ?_)
  · intro text htext
    exact h text (by simp [fragments, Option.mem_def.mp htext])
  · intro text htext
    exact h text (by simp [fragments, Option.mem_def.mp htext])

theorem Interpolation.good_toExpression {tokens : List TextToken}
    (h : ∀ token ∈ tokens, ∀ text ∈ token.fragments, d.Good text) :
    d.Good (toExpression tokens) := by
  refine .intercalate (.fixed rfl rfl) fun code hcode => ?_
  obtain ⟨token, htoken, rfl⟩ := List.mem_map.mp hcode
  cases token with
  | literal text => exact .literal text
  | expression exp =>
    have hexp : d.Good exp := h _ htoken exp (by simp [TextToken.fragments])
    exact hexp.between rfl rfl rfl rfl

/-- The pieces of source text that a tree stores keep to a discipline. -/
structure Ast.Obeys (d : Discipline) (a : Ast) : Prop where
  elements : ∀ id el, a.element? id = some el → el.Obeys d
  texts : ∀ id content tokens isStatic, a.kind? id = some (.text content (some tokens) isStatic) →
    ∀ token ∈ tokens, ∀ text ∈ token.fragments, d.Good text

/-! ## The code of an element -/

abbrev Discipline.Writes (d : Discipline) (p : Problem → Bool) (x x' : Gen Code) : Prop :=
  Gen.WritesCode (Code.Obeys d) p x x'

/-- Both steps write pieces of code that keep to the discipline. -/
abbrev Discipline.WritesAll (d : Discipline) (p : Problem → Bool) (x x' : Gen (List Code)) : Prop :=
  Gen.WritesCodes (Code.Obeys d) p x x'

namespace Gen

open Code

section Element

variable {o : Options} {a a' : Ast} {id : NodeId} {el : Element} {p : Problem → Bool}
  {children children' slots slots' inline inline' : Gen (List Code)} {codes : List Code}

theorem obeys_loopOf (hel : el.Obeys d) (id : NodeId) :
    ∀ head ∈ el.loop, ∀ body : Code, body.Obeys d →
      (Code.loop id head.source head.params body).Obeys d := by
  intro head hloop body hbody
  have hfragments := hel.loop head hloop
  exact obeys_loop (hfragments _ (by simp [LoopHead.fragments]))
    (LoopHead.good_params hfragments) hbody

theorem good_of_loopKey? (ha : a.Obeys d) (h : loopKey? a id = some key) : d.Good key := by
  obtain ⟨outer, hfind, hkey⟩ := Option.bind_eq_some_iff.mp h
  obtain ⟨x, -, hx⟩ := mem_filterMap.mp (mem_of_find?_eq_some hfind)
  exact (ha.elements x outer hx).key key hkey

theorem obeys_wraps (ha : a.Obeys d) (hel : el.Obeys d) (id : NodeId) :
    Wraps a id el (Code.Obeys d) where
  hoisted index inLoop := obeys_hoisted id index inLoop
  loop := obeys_loopOf hel id
  once _ hkey _ number hbody := obeys_once number (good_of_loopKey? ha hkey) hbody

theorem obeys_object {own : String} (hown : d.Good own) (h : ∀ c ∈ codes, c.Obeys d) :
    (DataObject.object own codes).Obeys d := by
  unfold DataObject.object
  split
  · rw [Code.Obeys, render_text]
    exact Good.braced (d.dropComma hown)
  · exact obeys_enclosed (b := [.curly]) (d.append (d.fixed rfl rfl) (hown.leads _))
      (d.fixed rfl rfl) h

theorem obeys_boundTo {b : BoundObject} (hel : el.Obeys d) (hb : d.Good b.value)
    (h : data.Obeys d) :
    (("_b(" : Code) ++ data ++
      (",'" ++ el.tag ++ "'," ++ b.value ++ "," ++ (if b.isProp then "true" else "false") ++
        (if b.isSync then ",true" else "") ++ ")" : String)).Obeys d := by
  have htag : d.Good ("'" ++ el.tag ++ "'") := d.quotedTag hel.tag
  have hprop : d.Good (if b.isProp then "true" else "false") := by split <;> exact .fixed rfl rfl
  have hsync : d.Good (if b.isSync then ",true" else "") := by split <;> exact .fixed rfl rfl
  have hrest : d.Good ("," ++ ("'" ++ el.tag ++ "'") ++ "," ++ b.value ++ "," ++
      (if b.isProp then "true" else "false") ++ (if b.isSync then ",true" else "")) :=
    .append (.append (.append (.append (.append (.append (.fixed rfl rfl) htag)
      (.fixed rfl rfl)) hb) (.fixed rfl rfl)) hprop) hsync
  have hsplit : (",'" ++ el.tag ++ "'," ++ b.value ++ "," ++
      (if b.isProp then "true" else "false") ++ (if b.isSync then ",true" else "") ++ ")") =
      ("," ++ ("'" ++ el.tag ++ "'") ++ "," ++ b.value ++ "," ++
        (if b.isProp then "true" else "false") ++ (if b.isSync then ",true" else "")) ++ ")" := by
    have hquote : (",'" : String) = "," ++ "'" := rfl
    have hquote' : ("'," : String) = "'" ++ "," := rfl
    rw [hquote, hquote']
    simp only [String.append_assoc]
  rw [Code.Obeys, render_append, render_append, hsplit]
  exact d.append (d.append (d.fixed rfl rfl) (h.leads _))
    (d.append (hrest.leads [.round]) (d.fixed rfl rfl))

theorem obeys_listenedTo {listeners : String} (hlsn : d.Good listeners) (h : data.Obeys d) :
    (("_g(" : Code) ++ data ++ ("," ++ listeners ++ ")" : String)).Obeys d := by
  rw [Code.Obeys, render_append, render_append]
  exact d.append (d.append (d.fixed rfl rfl) (h.leads _))
    (d.append (d.append (d.fixed rfl rfl) (hlsn.leads _)) (d.fixed rfl rfl))

theorem obeys_merged (hel : el.Obeys d) (h : data.Obeys d) :
    (DataObject.merged el data).Obeys d := by
  unfold DataObject.merged
  -- the object that is bound as a whole comes first, inside the object of listeners
  cases hb : el.boundObject with
  | none =>
    cases hl : el.boundListeners with
    | none => exact h
    | some listeners => exact obeys_listenedTo (hel.boundListeners listeners hl) h
  | some b =>
    have hobj := obeys_boundTo hel (hel.boundObject b hb) h
    cases hl : el.boundListeners with
    | none => exact hobj
    | some listeners => exact obeys_listenedTo (hel.boundListeners listeners hl) hobj

theorem obeys_childrenValue {value : Code} (h : ∀ c ∈ codes, c.Obeys d)
    (hval : childrenValue? codes = some value) : value.Obeys d := by
  unfold childrenValue? at hval
  split at hval
  · cases hval
  · cases hval
    exact h _ mem_cons_self
  · cases hval
    exact obeys_enclosed (b := [.square]) (d.fixed rfl rfl) (d.fixed rfl rfl) h

theorem obeys_getD {value : Option Code} {text : String} (htext : d.Good text)
    (h : ∀ code, value = some code → code.Obeys d) : (value.getD (.text text)).Obeys d := by
  cases value with
  | none => rwa [Option.getD_none, Code.Obeys, render_text]
  | some code => exact h code rfl

theorem obeys_slotCode {fallback : Option Code} (hel : el.Obeys d)
    (h : ∀ code, fallback = some code → code.Obeys d) : (slotCode el fallback).Obeys d := by
  have hattributes : d.Good (slotAttributes el) := by
    refine .braced (.intercalate (.fixed rfl rfl) fun entry hentry => ?_)
    obtain ⟨b, hb, rfl⟩ := List.mem_map.mp hentry
    exact .append (.append (.literal _) (.fixed rfl rfl)) (hel.attrs b hb _ mem_cons_self)
  have hname : (Code.text (el.slotName.getD "\"default\"")).Obeys d := by
    rw [Code.Obeys, render_text]
    exact .getD (.fixed rfl rfl) hel.slotName
  have hfallback : (fallback.getD (.text "null")).Obeys d := obeys_getD (.fixed rfl rfl) h
  have hattrs : ∀ code, (if el.attrs.isEmpty then none
      else some (Code.text (slotAttributes el))) = some code → code.Obeys d := by
    intro code hcode
    split at hcode
    · cases hcode
    · cases hcode
      rwa [Code.Obeys, render_text]
  refine obeys_call rfl rfl fun c hc => ?_
  rcases mem_cons.mp hc with rfl | harg
  · exact hname
  split at harg
  · next hobj =>
    obtain ⟨b, hb, rfl⟩ := Option.map_eq_some_iff.mp hobj
    simp only [mem_cons, not_mem_nil, or_false] at harg
    obtain rfl | rfl | rfl := harg
    · exact hfallback
    · exact obeys_getD (.fixed rfl rfl) hattrs
    · rw [Code.Obeys, render_text]
      exact hel.boundObject b hb
  · next hsome =>
    simp only [mem_cons, not_mem_nil, or_false] at harg
    obtain rfl | rfl := harg
    · exact hfallback
    · exact hattrs _ hsome
  · next value _ _ =>
    rw [mem_singleton.mp harg]
    exact h value rfl
  · cases harg

theorem obeys_childrenArguments (tags : TagTable) (h : ∀ c ∈ codes, c.Obeys d) :
    ∀ c ∈ childrenArguments tags a el codes, c.Obeys d := by
  intro c hc
  unfold childrenArguments at hc
  split at hc
  · cases hc
  split at hc
  · exact h c hc
  · rw [mem_singleton.mp hc, Code.Obeys, render_append]
    refine (obeys_join h).append ?_
    cases a.normalization tags el.children <;> exact .fixed rfl rfl

theorem obeys_madeCode (hel : el.Obeys d) (tags : TagTable) {own : String} {entries : List Code}
    (hown : d.Good own) (hentries : ∀ c ∈ entries, c.Obeys d) (h : ∀ c ∈ codes, c.Obeys d) :
    (madeCode tags a el own entries codes).Obeys d := by
  unfold madeCode
  split
  · refine obeys_call rfl rfl fun c hc => ?_
    rcases mem_append.mp hc with hc | hc
    · rcases mem_cons.mp hc with rfl | hc
      · rw [Code.Obeys, render_text]
        exact .getD (d.quotedTag hel.tag) hel.component
      · split at hc
        · rw [mem_singleton.mp hc]
          exact obeys_merged hel (obeys_object hown hentries)
        · exact hentries c hc
    · exact obeys_childrenArguments tags h c hc
  · have hall : ∀ c ∈ entries ++ codes, c.Obeys d := forall_mem_append.mpr ⟨hentries, h⟩
    split
    · exact obeys_slotCode hel fun value => obeys_childrenValue hall
    · exact obeys_getD (.fixed rfl rfl) fun value => obeys_childrenValue hall

theorem bareCode_writes (ho : o.WebModules) (hel : el.Obeys d) {w : Writing}
    (hw : (el.rewritten w).unwritten = el.unwritten) (ha : a'.unwritten = a.unwritten)
    (hslots : d.WritesAll p slots slots') (hinl : d.WritesAll p inline inline')
    (hkids : d.WritesAll p children children') (id : NodeId) :
    d.Writes p (bareCode o a id el children slots inline)
      (bareCode o a' id (el.rewritten w) children' slots' inline') := by
  obtain ⟨own, hown, hgood⟩ := hel.ownEntries ho
  have hown' : DataObject.ownEntries o.modules (el.rewritten w) = .ok own := by
    rw [← ownEntries_unwritten ho, hw, ownEntries_unwritten ho, hown]
  have hmade (entries codes : List Code) : madeCode o.tags a' (el.rewritten w) own entries codes =
      madeCode o.tags a el own entries codes := by
    unfold madeCode
    rw [← childrenArguments_unwritten o.tags a', ha, hw, childrenArguments_unwritten]
    rfl
  have hentry : d.WritesAll p (do return [slotEntry (← slots)])
      (do return [slotEntry (← slots')]) := by
    refine .bind hslots fun codes hcodes => .pure fun c hc => ?_
    rw [mem_singleton.mp hc]
    exact obeys_enclosed (b := [.square, .round]) (d.fixed rfl rfl) (d.fixed rfl rfl) hcodes
  have hentries : d.WritesAll p (dataEntries el slots inline)
      (dataEntries (el.rewritten w) slots' inline') := by
    refine .bind (.onlyIf _ hentry) fun slotEntries hslotEntries => ?_
    refine .bind (.onlyIf _ hinl) fun inlineEntries hinlineEntries => .pure fun c hc => ?_
    rcases mem_append.mp hc with hc | hc
    · rcases mem_append.mp hc with hc | hc
      · exact hslotEntries c hc
      · unfold tagEntries at hc
        split at hc
        · rw [mem_singleton.mp hc, Code.Obeys, render_text]
          exact .append (.fixed rfl rfl) (.literal _)
        · cases hc
    · exact hinlineEntries c hc
  rw [bareCode_eq ho hown, bareCode_eq ho hown']
  refine .bind (.onlyIf _ hentries) fun entries hentries => ?_
  refine .bind (.onlyIf _ hkids) fun codes hcodes => ?_
  rw [hmade]
  exact .pure (obeys_madeCode hel o.tags hgood hentries hcodes)

theorem scopedSlot_writes {element element' : Gen Code} (hel : el.Obeys d) (hkey : d.Good key)
    (hkids : d.WritesAll p children children')
    (helt : d.Writes p element element') :
    d.Writes p (scopedSlot key id el children element)
      (scopedSlot key id (el.rewritten w) children' element') := by
  have hbody : d.Writes p (slotBody id el children element)
      (slotBody id (el.rewritten w) children' element') := by
    refine .ite (.bind hkids fun codes hcodes => .pure ?_) helt
    have hval : (Code.element id ((childrenValue? codes).getD (.text "undefined"))).Obeys d := by
      rw [Code.Obeys, render]
      exact obeys_getD (.fixed rfl rfl) fun value => obeys_childrenValue hcodes
    cases hexp : el.ifExp with
    | none => exact hval
    | some exp =>
      refine obeys_condition id id (hel.ifExp exp hexp) hval ?_
      exact .fixed rfl rfl
  refine looped_writes w (obeys_loopOf hel id) (fun _ => .pure trivial)
    (.bind hbody fun body hbody => .pure ?_)
  exact obeys_scopedSlot hkey (.getD .empty hel.slotScope) hbody

end Element

/-! ## The whole tree -/

/-- The tree keeps to the discipline, the other one differs in markup only, no modules but those of
the web write code for them, and `p` picks out nothing that generating code may find fault with. -/
structure Walks (d : Discipline) (p : Problem → Bool) (o : Options) (a a' : Ast) : Prop where
  modules : o.WebModules
  tree : a.Obeys d
  markup : a'.unwritten = a.unwritten
  once : p .onceWithoutKey = false
  inline : p .inlineTemplateContent = false

variable {o : Options} {a a' : Ast} {p : Problem → Bool}

mutual

/-- Whatever an element is entered from. A scoped slot is entered with a good key. -/
theorem nodeCode_writes (h : Walks d p o a a') (entry : Entry)
    (hentry : ∀ key, entry = .slot key → d.Good key) :
    ∀ outline, d.Writes p (nodeCode o a entry outline) (nodeCode o a' entry outline)
  | .node id children slots branches => by
    obtain ⟨w, hkind', hw⟩ := Ast.kind?_of_unwritten h.markup id
    unfold nodeCode
    rw [hkind']
    cases hkind : a.kind? id with
    | none => exact .pure (.fixed rfl rfl)
    | some kind =>
      cases kind with
      | text content tokens isStatic =>
        refine .pure ?_
        rw [Code.Obeys, render_text]
        cases tokens with
        | none => exact .literal content
        | some tokens =>
          exact Interpolation.good_toExpression (h.tree.texts id content tokens isStatic hkind)
      | comment content isStatic =>
        refine .pure ?_
        rw [Code.Obeys, render_text]
        exact (Good.literal _).between rfl rfl rfl rfl
      | element el =>
        have hel : el.Obeys d := h.tree.elements id el (by rw [Ast.element?, hkind])
        have hkids := nodeCodes_writes h children
        have hslots := slotCodes_writes h el.scopedSlots hel.slotKeys slots
        have hinl := inlineTemplate_writes h.inline h.markup (hw el hkind)
          (firstCode_writes h children) obeys_inlineTemplate
        have hcode :=
          bareCode_writes h.modules hel (hw el hkind) h.markup hslots hinl hkids id
        have hwraps := obeys_wraps h.tree hel id
        have hself := branchWrapped_writes h.once h.markup o.tags w hwraps hcode hcode
        have hchain := chainCode_writes h id hself el.conditions hel.conditions branches
        have hwrapped := wrapped_writes h.once h.markup o.tags w hwraps hchain hcode
        cases entry with
        | child => exact hwrapped
        | branch => exact branchWrapped_writes h.once h.markup o.tags w hwraps hchain hcode
        | slot key => exact scopedSlot_writes hel (hentry key rfl) hkids hwrapped

theorem nodeCodes_writes (h : Walks d p o a a') :
    ∀ outlines, d.WritesAll p (nodeCodes o a outlines) (nodeCodes o a' outlines)
  | [] => .pure (by simp)
  | first :: rest => by
    refine .bind (nodeCode_writes h .child nofun first) fun code hcode => ?_
    refine .bind (nodeCodes_writes h rest) fun codes hcodes => .pure ?_
    exact forall_mem_cons.mpr ⟨hcode, hcodes⟩

theorem firstCode_writes (h : Walks d p o a a') :
    ∀ outlines, d.Writes p (firstCode o a outlines) (firstCode o a' outlines)
  | [] => .pure (.fixed rfl rfl)
  | first :: _ => nodeCode_writes h .child nofun first

theorem slotCodes_writes (h : Walks d p o a a') :
    ∀ slots : List (String × NodeId), (∀ slot ∈ slots, d.Good slot.1) →
      ∀ outlines, d.WritesAll p (slotCodes o a slots outlines) (slotCodes o a' slots outlines)
  | slot :: slots, hslots, outline :: outlines => by
    have hkey : ∀ key, Entry.slot slot.1 = .slot key → d.Good key := by
      intro key heq
      cases heq
      exact hslots slot mem_cons_self
    refine .bind (nodeCode_writes h (.slot slot.1) hkey outline) fun code hcode => ?_
    refine .bind (slotCodes_writes h slots (fun s hs => hslots s (mem_cons_of_mem _ hs))
      outlines) fun codes hcodes => .pure ?_
    exact forall_mem_cons.mpr ⟨hcode, hcodes⟩
  | [], _, _ => by
    unfold slotCodes
    exact .pure (by simp)
  | _ :: _, _, [] => .pure (by simp)

theorem chainCode_writes (h : Walks d p o a a') (id : NodeId) {self self' : Gen Code}
    (hself : d.Writes p self self') :
    ∀ conditions : List Condition, (∀ c ∈ conditions, ∀ text ∈ c.exp, d.Good text) →
      ∀ branches, d.Writes p (chainCode o a id self conditions branches)
        (chainCode o a' id self' conditions branches)
  | first :: rest, hexps, branch :: branches => by
    refine .bind (.ite hself (nodeCode_writes h .branch nofun branch)) fun code hcode => ?_
    cases hexp : first.exp with
    | none => exact .pure hcode
    | some exp =>
      refine .bind (chainCode_writes h id hself rest (fun c hc =>
        hexps c (mem_cons_of_mem _ hc)) branches) fun others hoth => .pure ?_
      exact obeys_condition id first.block (hexps _ mem_cons_self exp hexp) hcode hoth
  | [], _, _ => by
    unfold chainCode
    exact .pure (.fixed rfl rfl)
  | _ :: _, _, [] => .pure (.fixed rfl rfl)

end

/-- Trees that differ in their markup have the same bodies, which keep to the discipline. -/
theorem generate_writes (h : Walks d p o a a') :
    (generate o a).Omits p ∧ (generate o a).Agree (fun bodies bodies' => bodies' = bodies ∧
      d.Good bodies.main.renderBody ∧ ∀ body ∈ bodies.hoisted, d.Good body.renderBody)
      (generate o a') := by
  have hroot : a'.root = a.root := by
    rw [← Ast.root_unwritten a', h.markup, Ast.root_unwritten]
  unfold generate
  rw [hroot]
  cases a.root with
  | none => exact ⟨.pure _, .pure ⟨rfl, Code.good_renderBody (.fixed rfl rfl), by simp⟩⟩
  | some root =>
    have hout : a'.outline root = a.outline root := by
      rw [← Ast.outline_unwritten a', h.markup, Ast.outline_unwritten]
    obtain ⟨homits, hagree⟩ := nodeCode_writes h .child nofun (a.outline root) {} (by simp)
    dsimp only
    rw [hout]
    refine ⟨.bind homits fun _ => .pure _, .bind hagree ?_⟩
    rintro _ r ⟨rfl, hbodies, hmain⟩
    exact .pure ⟨rfl, Code.good_renderBody hmain, fun body hbody =>
      Code.good_renderBody (hbodies body hbody)⟩

end Gen

/-- The bodies that are generated for a tree keep to the discipline of the tree. -/
theorem Ast.Obeys.generate (ha : a.Obeys d) (ho : o.WebModules)
    (honce : p .onceWithoutKey = false) (hinl : p .inlineTemplateContent = false) :
    (generate o a).Omits p ∧ ∃ bodies, (generate o a).result = .ok bodies ∧
      d.Good bodies.main.renderBody ∧ ∀ body ∈ bodies.hoisted, d.Good body.renderBody := by
  obtain ⟨homits, hagree⟩ := Gen.generate_writes ⟨ho, ha, rfl, honce, hinl⟩
  exact ⟨homits, hagree.first fun _ _ h => h.2⟩

theorem Ast.obeys_lax (a : Ast) : a.Obeys .lax := by
  refine ⟨fun _ _ _ => ?_, fun _ _ _ _ _ _ _ _ _ => trivial⟩
  constructor
  case directives => exact fun directive _ => directive.obeys_lax
  all_goals intros; trivial

/-- Code is generated for every tree. It can only find fault with rendering once and with inline
templates. -/
theorem generate_omits (ho : o.WebModules)
    (honce : p .onceWithoutKey = false) (hinl : p .inlineTemplateContent = false) (a : Ast) :
    (generate o a).Omits p ∧ (generate o a).Ensures fun _ => True := by
  obtain ⟨homits, bodies, hbodies, -⟩ := a.obeys_lax.generate ho honce hinl
  exact ⟨homits, bodies, hbodies, trivial⟩

/-- Trees that differ in their markup have the same code, with as many reports. -/
theorem generate_agree (ho : o.WebModules) {a' : Ast}
    (h : a'.unwritten = a.unwritten) : (generate o a).Agree Eq (generate o a') := by
  obtain ⟨-, hagree⟩ := Gen.generate_writes (p := fun _ => false) ⟨ho, a.obeys_lax, h, rfl, rfl⟩
  exact hagree.mono fun _ _ hr => hr.1.symm

end TemplateCompiler
