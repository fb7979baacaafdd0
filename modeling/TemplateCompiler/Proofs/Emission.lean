import TemplateCompiler.Proofs.ReferenceEntries
import TemplateCompiler.Proofs.RootMarks

/-!
# What the generator emits

`Emits` is the triple for a step of the generator. A step has a result, of which a fact holds; a
fact holds of the bodies that it adds; and it records wrappers only for the nodes of a region. So
steps with regions apart do not see each other's records. A fact is about code, about the bodies
that were added with it, and about what there is in the end: it is stated for all later bodies and
errors, so it does not matter what is hoisted or reported after the step.

Code that is put around children, slots and inline templates adds nothing to what can be read off
them (`Made`). Which of them are in the code of an element itself, is what `Ast.Shows` says.
-/

namespace TemplateCompiler

open List

namespace Ast

/-- The element is made by a call, and not only its content shown in its place. -/
def MakesCall (a : Ast) (p : NodeId) (el : Element) : Prop :=
  ¬ (el.tag = "template" ∧ (a.IsSlot p ∨ el.slotTarget = none)) ∧ el.tag ≠ "slot"

def HasData (a : Ast) (p : NodeId) (el : Element) : Prop :=
  a.MakesCall p el ∧ ¬ (el.plain ∧ el.component = none)

/-- The code of a node is in the code of an element itself, as a child or in the data object. -/
def Shows (a : Ast) (p : NodeId) (el : Element) (c : NodeId) : Prop :=
  (c ∈ el.children ∧ ¬ (a.MakesCall p el ∧ el.inlineTemplate)) ∨
    (a.HasData p el ∧ (c ∈ el.slotNodes ∨ (el.inlineTemplate ∧ c ∈ el.children.head?)))

/-- The nodes are those that an element shows, as far as they are elements. -/
structure FilledBy (a : Ast) (p : NodeId) (el : Element) (nodes : List NodeId) : Prop where
  linked : nodes <+ el.slotNodes ++ el.children
  mem : ∀ c, (a.element? c).isSome → (c ∈ nodes ↔ a.Shows p el c)

def firstElement (a : Ast) (el : Element) : List NodeId :=
  if Gen.startsWithElement a el then el.children.take 1 else []

variable {a : Ast} {p c : NodeId} {el : Element}

theorem mem_firstElement (hc : (a.element? c).isSome) :
    c ∈ a.firstElement el ↔ c ∈ el.children.head? := by
  unfold firstElement Gen.startsWithElement
  cases el.children with
  | nil => simp
  | cons d rest =>
    by_cases hd : (a.element? d).isSome
    · simp [hd, eq_comm]
    · have hne : d ≠ c := by
        rintro rfl
        exact hd hc
      simp [hd, hne]

theorem filledBy_children (h : ¬ a.MakesCall p el) : a.FilledBy p el el.children :=
  ⟨sublist_append_right _ _, fun c _ => by simp [Shows, HasData, h]⟩

section

variable (hslot : ¬ (a.IsSlot p ∧ el.tag = "template"))

include hslot

theorem makesCall_iff : a.MakesCall p el ↔ Gen.isCalled el := by
  rw [not_and] at hslot
  simp only [MakesCall, Gen.isCalled, Bool.and_eq_true, Bool.not_eq_true', Bool.and_eq_false_iff,
    decide_eq_false_iff_not, decide_eq_true_iff, Option.isNone_eq_false_iff,
    Option.isSome_iff_ne_none]
  tauto

theorem hasData_iff : a.HasData p el ↔ Gen.hasData el := by
  rw [HasData, makesCall_iff hslot, Gen.hasData, Bool.and_eq_true, ← Option.isNone_iff_eq_none,
    ← Bool.and_eq_true, Bool.not_eq_true, Bool.not_eq_true']

theorem filledBy :
    a.FilledBy p el ((if Gen.hasData el then
      el.slotNodes ++ if el.inlineTemplate then a.firstElement el else [] else []) ++
        if Gen.isCalled el && el.inlineTemplate then [] else el.children) := by
  have hfirst : a.firstElement el <+ el.children := by
    unfold firstElement
    split
    · exact take_sublist _ _
    · exact nil_sublist _
  have hcall : Gen.hasData el → Gen.isCalled el := fun h => (Bool.and_eq_true_iff.mp h).1
  refine ⟨?_, fun c hc => ?_⟩ <;> revert hcall
  · cases Gen.hasData el <;> cases Gen.isCalled el <;> cases el.inlineTemplate <;> simp [hfirst]
  · rw [Shows, makesCall_iff hslot, hasData_iff hslot]
    cases Gen.hasData el <;> cases Gen.isCalled el <;> cases el.inlineTemplate <;>
      simp [mem_firstElement hc, or_comm]

end

end Ast

namespace Gen

/-- What there is in the end: the hoisted bodies, and the errors that were reported. -/
structure Later where
  bodies : List Code
  errors : List (Located Problem)

/-- What is said of a result and of the bodies that were added with it. -/
abbrev Post (α : Type) := Later → List Code → α → Prop

/-- What is said of code and of the bodies that were added with it. -/
abbrev Fact := Post Code

/-- What is said of code that uses some bodies. -/
abbrev BodyFact := List Code → Code → Prop

/-- Code has what the codes have that it is put together from. -/
def BodyFact.OfParts (P : BodyFact) : Prop :=
  ∀ ⦃bodies : List Code⦄ ⦃code : Code⦄ (codes : List Code), (∀ part ∈ codes, P bodies part) →
    (∀ {γ : Type} {m : Code → List γ}, Code.Additive m → m code = codes.flatMap m) → P bodies code

/-! ## Code that is put together -/

section Made

variable {enters : NodeId → Fact} {later : Later} {nodes nodes' : List NodeId}
  {new new' codes codes' : List Code}

/-- The codes are those of some nodes in their order, and the bodies were added with them. -/
inductive Fills (enters : NodeId → Fact) (later : Later) :
    List NodeId → List Code → List Code → Prop
  | nil : Fills enters later [] [] []
  | cons {c : NodeId} {nodes : List NodeId} {new new' : List Code} {code : Code} {codes : List Code}
      (h : enters c later new code) (hrest : Fills enters later nodes new' codes) :
      Fills enters later (c :: nodes) (new ++ new') (code :: codes)

theorem Fills.append (h : Fills enters later nodes new codes)
    (h' : Fills enters later nodes' new' codes') :
    Fills enters later (nodes ++ nodes') (new ++ new') (codes ++ codes') := by
  induction h with
  | nil => exact h'
  | cons h _ ih =>
    rw [List.append_assoc]
    exact .cons h ih

theorem Fills.forall {P : Code → Prop} (h : Fills enters later nodes new codes)
    (hP : ∀ c ∈ nodes, ∀ new code, enters c later new code → P code) : ∀ code ∈ codes, P code := by
  induction h with
  | nil => exact nofun
  | cons h _ ih =>
    exact forall_mem_cons.mpr ⟨hP _ mem_cons_self _ _ h, ih fun c hc => hP c (mem_cons_of_mem _ hc)⟩

/-- The codes are put together from those of some nodes, and have nothing else in them. -/
def Made (enters : NodeId → Fact) (nodes : List NodeId) : Post (List Code) :=
  fun later new codes => ∃ parts, Fills enters later nodes new parts ∧
    ∀ {γ : Type} {m : Code → List γ}, Code.Additive m → codes.flatMap m = parts.flatMap m

theorem Made.nil : Made enters [] later [] [] := ⟨[], .nil, fun _ => rfl⟩

theorem Made.append (h : Made enters nodes later new codes)
    (h' : Made enters nodes' later new' codes') :
    Made enters (nodes ++ nodes') later (new ++ new') (codes ++ codes') := by
  obtain ⟨parts, hfills, hparts⟩ := h
  obtain ⟨parts', hfills', hparts'⟩ := h'
  refine ⟨parts ++ parts', hfills.append hfills', fun hm => ?_⟩
  rw [flatMap_append, flatMap_append, hparts hm, hparts' hm]

theorem Made.around (h : Made enters nodes later new codes)
    (heq : ∀ {γ : Type} {m : Code → List γ}, Code.Additive m → codes'.flatMap m = codes.flatMap m) :
    Made enters nodes later new codes' :=
  h.imp fun _ hparts => ⟨hparts.1, fun hm => (heq hm).trans (hparts.2 hm)⟩

theorem Made.ofParts {P : BodyFact} {code : Code} (hP : P.OfParts)
    (h : Made enters nodes later new [code])
    (hnodes : ∀ c ∈ nodes, ∀ new part, enters c later new part → P later.bodies part) :
    P later.bodies code := by
  obtain ⟨parts, hfills, hparts⟩ := h
  exact hP parts (hfills.forall hnodes) fun hm => (flatMap_singleton _ _).symm.trans (hparts hm)

end Made

variable {α β γ : Type} {body body' : BodyFact} {region region' : NodeId → Prop}
  {s s' s'' : GenState} {new new' : List Code}

/-! ## Steps -/

/-- What a step does to the state: it adds bodies, of which the fact holds, and all that it records
is about nodes of the region. -/
structure Run (body : BodyFact) (region : NodeId → Prop) (s : GenState) (new : List Code)
    (s' : GenState) : Prop where
  hoisted : s'.hoisted = s.hoisted ++ new
  bodies : ∀ code ∈ new, ∀ later, s'.hoisted <+: later → body later code
  done : ∀ y w, (y, w) ∈ s'.done → (y, w) ∈ s.done ∨ region y

def Fresh (region : NodeId → Prop) (s : GenState) : Prop := ∀ y w, region y → (y, w) ∉ s.done

theorem Fresh.mark {x : NodeId} (h : Fresh region s) (hx : ¬ region x) (w : Wrapper) :
    Fresh region { s with done := (x, w) :: s.done } := by
  intro y w' hy hmem
  rcases mem_cons.mp hmem with heq | hmem
  · exact hx ((Prod.mk.inj heq).1 ▸ hy)
  · exact h y w' hy hmem

namespace Run

theorem refl (s : GenState) : Run body region s [] s :=
  ⟨(append_nil _).symm, nofun, fun _ _ h => .inl h⟩

section

variable (h : Run body region s new s')

include h

theorem grows : s.hoisted <+: s'.hoisted := by
  rw [h.hoisted]
  exact prefix_append _ _

theorem trans (h' : Run body region s' new' s'') : Run body region s (new ++ new') s'' := by
  refine ⟨by rw [h'.hoisted, h.hoisted, List.append_assoc], fun code hcode later hlater => ?_,
    fun y w hmem => ?_⟩
  · rcases mem_append.mp hcode with hcode | hcode
    · exact h.bodies code hcode later (h'.grows.trans hlater)
    · exact h'.bodies code hcode later hlater
  · rcases h'.done y w hmem with hmem | hy
    · exact h.done y w hmem
    · exact .inr hy

theorem mono (hbody : ∀ bodies code, body bodies code → body' bodies code)
    (hregion : ∀ y, region y → region' y) : Run body' region' s new s' :=
  ⟨h.hoisted, fun code hcode later hlater => hbody _ _ (h.bodies code hcode later hlater),
    fun y w hmem => (h.done y w hmem).imp_right (hregion y)⟩

/-- What is fresh stays so while records are made elsewhere. -/
theorem fresh (hfresh : Fresh region' s)
    (hapart : ∀ y, region y → ¬ region' y) : Fresh region' s' := by
  intro y w hy hmem
  rcases h.done y w hmem with hmem | hy'
  · exact hfresh y w hy hmem
  · exact hapart y hy' hy

end

theorem mark {x : NodeId} (hx : region x) (s : GenState) (w : Wrapper) :
    Run body region s [] { s with done := (x, w) :: s.done } := by
  refine ⟨(append_nil _).symm, nofun, fun y w' hmem => ?_⟩
  rcases mem_cons.mp hmem with heq | hmem
  · exact .inr ((Prod.mk.inj heq).1 ▸ hx)
  · exact .inl hmem

end Run

/-- From any state with `pre`, the step has a result with `post`, whatever bodies are added and
errors reported later, and leaves the state as `Run` says. -/
def Emits (body : BodyFact) (region : NodeId → Prop) (pre : GenState → Prop) (x : Gen α)
    (post : Post α) : Prop :=
  ∀ s, pre s → ∃ r s' new, (x.run s).result = .ok (r, s') ∧ Run body region s new s' ∧
    ∀ later : Later, s'.hoisted <+: later.bodies → (x.run s).notes.errors ⊆ later.errors →
      post later new r

theorem errors_bind {x : Gen α} {f : α → Gen β} {a : α} (h : (x.run s).result = .ok (a, s')) :
    ((x >>= f).run s).notes.errors = (x.run s).notes.errors ++ ((f a).run s').notes.errors := by
  rw [StateT.run_bind, Outcome.notes_bind h]
  rfl

/-- What is reported inside an inline template is reported. -/
theorem errors_isolated {step : Gen Code} {r : Code × GenState}
    (h : (step.run {}).result = .ok r) :
    ((isolated step).run s).notes.errors = (step.run {}).notes.errors := by
  have hrun : (isolated step).run s = step.run {} >>= fun r => pure ((r.1, r.2.hoisted), s) := by
    unfold isolated
    rw [StateT.run_bind, StateT.run_monadLift, bind_assoc]
    rfl
  rw [hrun, Outcome.notes_bind h]
  exact append_nil _

namespace Emits

variable {pre pre' : GenState → Prop} {x : Gen α} {post post' : Post α} {postβ : Post β} {y : Gen β}

theorem mono (h : Emits body region pre x post) (hpre : ∀ s, pre' s → pre s)
    (hbody : ∀ bodies code, body bodies code → body' bodies code)
    (hregion : ∀ y, region y → region' y)
    (hpost : ∀ later new r, post later new r → post' later new r) :
    Emits body' region' pre' x post' := by
  intro s hs
  obtain ⟨r, s', new, hx, hrun, hr⟩ := h s (hpre s hs)
  exact ⟨r, s', new, hx, hrun.mono hbody hregion,
    fun later hlater herrs => hpost _ _ r (hr later hlater herrs)⟩

theorem strengthen (h : Emits body region pre x post) (hpre : ∀ s, pre' s → pre s) :
    Emits body region pre' x post :=
  fun s hs => h s (hpre s hs)

theorem weaken (h : Emits body region pre x post)
    (hpost : ∀ later new r, post later new r → post' later new r) : Emits body region pre x post' :=
  h.mono (fun _ hs => hs) (fun _ _ hcode => hcode) (fun _ hy => hy) hpost

theorem widen (h : Emits body region (Fresh region) x post) (hregion : ∀ y, region y → region' y) :
    Emits body region' (Fresh region') x post :=
  h.mono (fun _ hs y w hy => hs y w (hregion y hy)) (fun _ _ hcode => hcode) hregion
    fun _ _ _ hr => hr

theorem pure {r : α} (h : ∀ later, post later [] r) : Emits body region pre (Pure.pure r) post :=
  fun s _ => ⟨r, s, [], rfl, .refl s, fun _ _ _ => h _⟩

/-- A step before that leaves the state alone does not matter. -/
theorem after {f : β → Gen α} {b : β} (hy : ∀ s, y.result s = .ok (b, s))
    (h : Emits body region pre (f b) post) : Emits body region pre (y >>= f) post := by
  intro s hs
  obtain ⟨r, s', new, hx, hrun, hr⟩ := h s hs
  refine ⟨r, s', new, (result_bind_ok (hy s)).trans hx, hrun, fun later hlater herrs => ?_⟩
  rw [errors_bind (hy s), append_subset] at herrs
  exact hr later hlater herrs.2

/-- The last step only puts the result of the one before it into code. -/
theorem map (h : Emits body region pre x post) (k : α → β)
    (hk : ∀ later new r, post later new r → postβ later new (k r)) :
    Emits body region pre (do return k (← x)) postβ := by
  intro s hs
  obtain ⟨r, s', new, hx, hrun, hr⟩ := h s hs
  refine ⟨k r, s', new, result_bind_ok hx, hrun, fun later hlater herrs => ?_⟩
  rw [errors_bind hx, append_subset] at herrs
  exact hk _ _ r (hr later hlater herrs.1)

/-- One step after the other, with regions apart: the first makes no record that the second would
see. -/
theorem both {post'' : Post γ} {region₁ region₂ : NodeId → Prop}
    (hx : Emits body region₁ pre x post) (hy : Emits body region₂ (Fresh region₂) y postβ)
    (hpre : ∀ s, pre s → Fresh region₂ s) (h₁ : ∀ z, region₁ z → region z)
    (h₂ : ∀ z, region₂ z → region z) (hapart : ∀ z, region₁ z → ¬ region₂ z) (k : α → β → γ)
    (hk : ∀ later new new' r r', post later new r → postβ later new' r' →
      post'' later (new ++ new') (k r r')) :
    Emits body region pre (do let r ← x; let r' ← y; return k r r') post'' := by
  intro s hs
  obtain ⟨r, s₁, new, hx, hrun₁, hr⟩ := hx s hs
  obtain ⟨r', s₂, new', hy, hrun₂, hr'⟩ := hy s₁ (hrun₁.fresh (hpre s hs) hapart)
  refine ⟨k r r', s₂, new ++ new', (result_bind_ok hx).trans (result_bind_ok hy),
    (hrun₁.mono (fun _ _ h => h) h₁).trans (hrun₂.mono (fun _ _ h => h) h₂),
    fun later hlater herrs => ?_⟩
  rw [errors_bind hx, errors_bind hy, append_subset, append_subset] at herrs
  exact hk _ _ _ r r' (hr later (hrun₂.grows.trans hlater) herrs.1) (hr' later hlater herrs.2.1)

theorem onlyIf {codes : Gen (List Code)} {post : Post (List Code)} (wanted : Bool)
    (h : wanted → Emits body region pre codes post)
    (hnone : wanted = false → ∀ later, post later [] []) :
    Emits body region pre (onlyIf wanted codes) post := by
  cases wanted with
  | false => exact .pure (hnone rfl)
  | true => exact h rfl

end Emits

/-! ## The code of an element -/

section Parts

variable {o : Options} {a : Ast} {x : NodeId} {el : Element} {enters : NodeId → Fact} {Q : Fact}
  {children slots inline : Gen (List Code)} {region₁ region₂ : NodeId → Prop}

/-- The inline template of an element is one element, unless something was reported. -/
abbrev Unreported (a : Ast) (el : Element) (later : Later) : Prop :=
  later.errors = [] → el.children.length = 1 ∧ startsWithElement a el

section

variable (hslots : Emits body region₂ (Fresh region₂) slots (Made enters el.slotNodes))
  (hinl : Emits body (fun _ => False) (fun _ => True) inline fun later new codes =>
    Made enters (a.firstElement el) later new codes ∧ Unreported a el later)

include hslots hinl

theorem Emits.dataEntries :
    Emits body region₂ (Fresh region₂) (dataEntries el slots inline) fun later new entries =>
      Made enters (el.slotNodes ++ if el.inlineTemplate then a.firstElement el else [])
          later new entries ∧
        (el.inlineTemplate → Unreported a el later) := by
  have hents : Emits body region₂ (Fresh region₂)
      (Gen.onlyIf (!el.scopedSlots.isEmpty) (do return [slotEntry (← slots)]))
      (Made enters el.slotNodes) := by
    refine .onlyIf _ (fun _ => hslots.map _ fun _ _ codes hcodes => hcodes.around fun hm => ?_)
      fun hempty _ => ?_
    · rw [flatMap_singleton, hm.slotEntry]
    · rw [Bool.not_eq_false', List.isEmpty_iff] at hempty
      rw [Element.slotNodes, hempty]
      exact .nil
  have htmpl : Emits body (fun _ => False) (Fresh fun _ => False)
      (Gen.onlyIf el.inlineTemplate inline) fun later new codes =>
        Made enters (if el.inlineTemplate then a.firstElement el else []) later new codes ∧
          (el.inlineTemplate → Unreported a el later) := by
    refine .onlyIf _ (fun hwanted => ?_) fun hwanted _ => ?_
    · rw [if_pos hwanted]
      exact (hinl.strengthen fun _ _ => trivial).weaken fun _ _ _ h => ⟨h.1, fun _ => h.2⟩
    · simp only [hwanted, Bool.false_eq_true, if_false]
      exact ⟨.nil, fun h => by cases h⟩
  refine .both hents htmpl (fun _ _ _ _ hy => hy.elim) (fun _ hy => hy)
    (fun _ hy => hy.elim) (fun _ _ hy => hy) _ fun _ _ _ slotEntries inlineEntries hslots hinl =>
    ⟨(hslots.append hinl.1).around fun hm => ?_, hinl.2⟩
  rw [hm.dataEntries, flatMap_append]

theorem Emits.bareCode (ho : o.WebModules)
    (hkids : Emits body region₁ (Fresh region₁) children (Made enters el.children))
    (h₁ : ∀ y, region₁ y → region y) (h₂ : ∀ y, region₂ y → region y)
    (hapart : ∀ y, region₂ y → ¬ region₁ y) (hslot : ¬ (a.IsSlot x ∧ el.tag = "template"))
    (helt : ∀ later new code nodes, a.FilledBy x el nodes → Made enters nodes later new [code] →
      (a.HasData x el → (el.inlineTemplate → Unreported a el later) ∧
        ∀ ref, el.ref = some ref → el.CallsWith ref el.refInLoop code.render) →
      Q later new (.element x code)) :
    Emits body region (Fresh region) (bareCode o a x el children slots inline) Q := by
  obtain ⟨own, hown, -⟩ := result_ownEntries ho el
  have hentries : Emits body region₂ (Fresh region₂)
      (Gen.onlyIf (hasData el) (Gen.dataEntries el slots inline)) fun later new entries =>
        Made enters (if hasData el then
          el.slotNodes ++ if el.inlineTemplate then a.firstElement el else [] else [])
            later new entries ∧
          (hasData el → el.inlineTemplate → Unreported a el later) := by
    cases hasData el with
    | true => exact (Emits.dataEntries hslots hinl).weaken fun _ _ _ h => ⟨h.1, fun _ => h.2⟩
    | false => exact .pure fun _ => ⟨.nil, fun h => by cases h⟩
  have hcodes : Emits body region₁ (Fresh region₁)
      (Gen.onlyIf (!(isCalled el && el.inlineTemplate)) children)
      (Made enters (if isCalled el && el.inlineTemplate then [] else el.children)) := by
    cases isCalled el && el.inlineTemplate with
    | true => exact .pure fun _ => .nil
    | false => exact hkids
  rw [bareCode_eq ho hown]
  refine .both (hentries.strengthen fun s hs y w hy => hs y w (h₂ y hy)) hcodes
    (fun s (hs : Fresh region s) y w hy => hs y w (h₁ y hy)) h₂ h₁ hapart _
    fun _ _ _ entries codes hents hcodes => helt _ _ _ _ (Ast.filledBy hslot)
      ((hents.1.append hcodes).around fun hm => ?_) fun hdata => ?_
  · rw [flatMap_singleton, hm.madeCode, flatMap_append]
  · rw [Ast.hasData_iff hslot] at hdata
    exact ⟨hents.2 hdata, fun ref href => callsWith_madeCode ho hown hdata href a _ _⟩

end

/-- An inline template records nothing outside of itself, and its bodies are its own. What is
reported inside it is reported. -/
theorem Emits.inlineTemplate {first : Gen Code} {P : NodeId → Fact} {body₀ : NodeId → BodyFact}
    (hfirst : ∀ c ∈ el.children.head?, Emits (body₀ c) (a.Below c) (Fresh (a.Below c)) first (P c))
    (hinl : ∀ c ∈ el.children.head?, ∀ (later : Later) inner code,
      P c ⟨inner, later.errors⟩ inner code → (∀ d ∈ inner, body₀ c inner d) →
      enters c later [] (.inlineTemplate code inner)) :
    Emits body (fun _ => False) (fun _ => True) (inlineTemplate a el first) fun later new codes =>
      Made enters (a.firstElement el) later new codes ∧ Unreported a el later := by
  intro s _
  have hreport : ((liftM (reportInline a el) : Gen Unit).run s).result = .ok ((), s) := rfl
  have hsound (later : Later)
      (herrs : ((liftM (reportInline a el) : Gen Unit).run s).notes.errors ⊆ later.errors) :
      Unreported a el later := by
    intro hnone
    by_contra hnot
    have hnoted : reportInline a el = Noted.error .inlineTemplateContent el.span :=
      if_neg (by simpa using hnot)
    rw [hnoted, hnone] at herrs
    exact absurd (herrs mem_cons_self) not_mem_nil
  unfold Gen.inlineTemplate Ast.firstElement Gen.onlyIf
  by_cases hstarts : startsWithElement a el
  · obtain ⟨c, rest, hlist⟩ : ∃ c rest, el.children = c :: rest := by
      cases hlist : el.children with
      | nil =>
        rw [startsWithElement, hlist] at hstarts
        cases hstarts
      | cons c rest => exact ⟨c, rest, rfl⟩
    have hhead : c ∈ el.children.head? := by
      rw [hlist]
      rfl
    obtain ⟨code, s', new, hx, hrun, hcode⟩ := hfirst c hhead {} fun _ _ _ hmem => by cases hmem
    have hisolated := result_isolated first s
    rw [show first.result {} = _ from hx] at hisolated
    have hnew : s'.hoisted = new := hrun.hoisted
    rw [if_pos hstarts, if_pos hstarts, hlist]
    refine ⟨[.inlineTemplate code s'.hoisted], s, [],
      (result_bind_ok hreport).trans (result_bind_ok hisolated), .refl s,
      fun later _ herrs => ?_⟩
    rw [errors_bind hreport, append_subset, errors_bind hisolated, append_subset,
      errors_isolated hx] at herrs
    -- the template starts with no body, so all bodies at its end are new
    have hentered : enters c later [] (.inlineTemplate code s'.hoisted) := by
      refine hinl c hhead later _ _ ?_ fun d hd => hrun.bodies d (hnew ▸ hd) _ prefix_rfl
      rw [hnew]
      exact hcode ⟨new, later.errors⟩ (hnew ▸ prefix_rfl) herrs.2.1
    exact ⟨⟨[_], .cons hentered .nil, fun _ => rfl⟩, hsound later herrs.1⟩
  · rw [if_neg hstarts, if_neg hstarts]
    refine ⟨[], s, [], result_bind_ok hreport, .refl s, fun later _ herrs => ⟨.nil, ?_⟩⟩
    rw [errors_bind hreport, append_subset] at herrs
    exact hsound later herrs.1

end Parts

end Gen

end TemplateCompiler
