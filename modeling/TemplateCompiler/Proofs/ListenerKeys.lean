import TemplateCompiler.Proofs.Listeners
import TemplateCompiler.Proofs.Literals
import TemplateCompiler.Proofs.Tending

/-!
# Keys of listeners in the data object

An element groups its handlers by the name of the event as it was written, and by when the listener
runs. In the data object the name is put in camel case with a capital, and words for the phase
follow. So listeners of their own can have one key there, and then only the last one is left of
them: `foo-bar` and `fooBar` are two names of one key, and so are `x` with `capture` and
`x-capture`.

`listeners_overwritten_iff` says for every template which listeners of an element these are. Names
of small letters without hyphens, as the events of the platform have, are not among them.
-/

namespace TemplateCompiler

open Markup Text List Element ListenerCode

namespace ListenerCode

variable {k k' : ListenerKey}

/-! ## The words of a key -/

def eventWords (k : ListenerKey) : String := capitalize (camelize k.name)

/-- The name of one listener reads like that of the other with words of its phase, which the first
does not have. -/
def Extends (k k' : ListenerKey) : Prop :=
  ∃ words, eventWords k = eventWords k' ++ words ∧ keyPhase k' = words ++ keyPhase k

theorem keyCode_eq_literal (hk : k.dynamic = false) :
    keyCode k = literal ("on" ++ eventWords k ++ keyPhase k) := by
  simp [keyCode, hk, eventWords]

theorem keyCode_eq_iff_append (hk : k.dynamic = false) (hk' : k'.dynamic = false) :
    keyCode k = keyCode k' ↔ (eventWords k).toList ++ (keyPhase k).toList =
      (eventWords k').toList ++ (keyPhase k').toList := by
  have hinj {s t : String} : literal s = literal t ↔ s = t := ⟨literal_inj, congrArg _⟩
  rw [keyCode_eq_literal hk, keyCode_eq_literal hk', hinj, ← String.toList_inj]
  simp only [String.toList_append, append_assoc, append_cancel_left_eq]

theorem keyCode_eq_iff (hk : k.dynamic = false) (hk' : k'.dynamic = false) :
    keyCode k = keyCode k' ↔ Extends k k' ∨ Extends k' k := by
  have hextends (k k' : ListenerKey) : Extends k k' ↔ ∃ words,
      (eventWords k).toList = (eventWords k').toList ++ words ∧
        (keyPhase k').toList = words ++ (keyPhase k).toList := by
    constructor
    · rintro ⟨words, hevent, hphase⟩
      exact ⟨words.toList, by simp [hevent], by simp [hphase]⟩
    · rintro ⟨words, hevent, hphase⟩
      exact ⟨String.ofList words, String.toList_inj.mp (by simpa using hevent),
        String.toList_inj.mp (by simpa using hphase)⟩
  rw [keyCode_eq_iff_append hk hk', append_eq_append_iff, hextends, hextends, or_comm]

/-! ## Simple names -/

/-- Whether a name has only ASCII characters other than hyphens and capitals. -/
def isSimple (name : String) : Bool :=
  name ≠ "" && name.toList.all fun c => c.toNat < 128 && c ≠ '-' && !c.isUpper

theorem camelizeChars_of_not_mem {cs : List Char} (h : '-' ∉ cs) : camelizeChars cs = cs := by
  fun_induction camelizeChars cs <;> simp_all

theorem upper_of_ascii {c : Char} (h : c.toNat < 128) (hsmall : c.isUpper = false) :
    ∃ u, upper c = [u] ∧ u.toLower = c := by
  have hall : ∀ n < 128, (Char.ofNat n).isUpper = false →
      (upper (Char.ofNat n)).map Char.toLower = [Char.ofNat n] := by decide +kernel
  have hc := hall c.toNat h (by rwa [Char.ofNat_toNat])
  rw [Char.ofNat_toNat] at hc
  obtain ⟨u, hu, hlower⟩ := map_eq_singleton_iff.mp hc
  exact ⟨u, hu, hlower⟩

/-- A simple name keeps all its characters, of which only the first may become a capital. -/
theorem eventWords_of_isSimple (h : isSimple k.name) :
    ∃ u tail, (eventWords k).toList = u :: tail ∧ k.name.toList = u.toLower :: tail ∧
      ∀ d ∈ tail, d.isUpper = false := by
  simp only [isSimple, Bool.and_eq_true, decide_eq_true_eq, all_eq_true, Bool.not_eq_true'] at h
  obtain ⟨hne, hall⟩ := h
  cases hname : k.name.toList with
  | nil => exact absurd (String.toList_eq_nil_iff.mp hname) hne
  | cons c tail =>
    rw [hname] at hall
    obtain ⟨⟨⟨hascii, -⟩, hsmall⟩, htail⟩ := forall_mem_cons.mp hall
    obtain ⟨u, hu, rfl⟩ := upper_of_ascii hascii hsmall
    refine ⟨u, tail, ?_, rfl, fun d hd => (htail d hd).2⟩
    have hcamel : camelizeChars k.name.toList = u.toLower :: tail := by
      rw [hname]
      exact camelizeChars_of_not_mem fun h => (hall '-' h).1.2 rfl
    rw [eventWords, camelize, hcamel, capitalize]
    simp [hu]

theorem takeWhile_keyPhase : (keyPhase k).toList.takeWhile (!·.isUpper) = [] := by
  unfold keyPhase
  cases k.capture <;> cases k.once <;> decide

theorem keyPhase_inj (h : (keyPhase k).toList = (keyPhase k').toList) :
    k.capture = k'.capture ∧ k.once = k'.once := by
  revert h
  unfold keyPhase
  cases k.capture <;> cases k.once <;> cases k'.capture <;> cases k'.once <;> decide

theorem eq_of_keyCode_eq (hk : k.dynamic = false) (hk' : k'.dynamic = false)
    (hsimple : isSimple k.name) (hsimple' : isSimple k'.name)
    (h : keyCode k = keyCode k') : k = k' := by
  obtain ⟨u, tail, hwords, hname, hsmall⟩ := eventWords_of_isSimple hsimple
  obtain ⟨u', tail', hwords', hname', hsmall'⟩ := eventWords_of_isSimple hsimple'
  rw [keyCode_eq_iff_append hk hk', hwords, hwords', cons_append, cons_append] at h
  obtain ⟨rfl, happend⟩ := List.cons.inj h
  -- The phase begins with the first capital behind the first character.
  have hcut (k : ListenerKey) {tail : List Char} (hsmall : ∀ d ∈ tail, d.isUpper = false) :
      (tail ++ (keyPhase k).toList).takeWhile (!·.isUpper) = tail := by
    rw [takeWhile_append_of_pos fun d hd => by simp [hsmall d hd], takeWhile_keyPhase, append_nil]
  have htail : tail = tail' := by rw [← hcut k hsmall, happend, hcut k' hsmall']
  subst htail
  obtain ⟨hcapture, honce⟩ := keyPhase_inj (append_cancel_left happend)
  have hnames : k.name = k'.name := String.toList_inj.mp (hname.trans hname'.symm)
  cases k
  cases k'
  simp_all

end ListenerCode

/-! ## The listeners of a template -/

namespace Element

/-- No two listeners of an element have the same name, kind and phase. -/
def Distinct (el : Element) : Prop := (el.listeners.map (·.key)).Nodup

theorem distinct_invariant (s : Settings) (above : List Element) :
    Invariant s above (fun _ => True) Distinct := by
  refine .ofKept (fun h hedit => ?_) fun h _ _ => h
  cases hedit with
  | handler => exact nodup_addHandler h
  | _ => exact h

theorem process_distinct {o : Options} (ho : o.UsesWeb) (above : List Element) {el : Element}
    (h : el.Distinct) : (el.process o above).Ensures Distinct :=
  (distinct_invariant o.toSettings above).process ho h fun _ h => h

end Element

def NodeKind.Distinct : NodeKind → Prop
  | .element el => el.Distinct
  | _ => True

theorem distinct_tends {o : Options} (ho : o.UsesWeb) :
    Tends o (fun _ => True) (fun _ => NodeKind.Distinct) (fun _ => Distinct) fun _ => True where
  opened _ b' id _ _ := (Builder.expanded_each ho b' id nodup_nil (fun _ _ _ _ _ h => h)
    fun _ _ _ _ _ _ => process_distinct ho _ nodup_nil).mono fun _ ⟨hel, others, heq, hoth⟩ =>
      ⟨hel, others, congrArg Builder.ast heq, hoth⟩
  pre {_ el} _ h := by
    rw [takePre_eq]
    exact h
  asWritten {_ el} _ h := by
    rw [keepAttributes_eq]
    exact ⟨h, trivial⟩
  structured {_ el _} id _ h _ heq := by
    obtain ⟨_, _, _, _, _, _, _, hcases, -⟩ := el.structural_cases o.toSettings id
    rw [← heq, hcases]
    exact ⟨h, trivial⟩
  expanded _ h _ := ⟨h, trivial⟩
  process above _ _ h _ := process_distinct ho above h
  children _ h := h
  branch _ h _ _ := h
  slot _ h _ _ := h
  unlinked _ _ := trivial
  text _ _ _ _ _ := trivial
  comment _ := trivial

def Element.fixedListeners (el : Element) : List Listener := el.listeners.filter (!·.key.dynamic)

/-- For every template of the web: the listeners of an element differ in their names, kinds and
phases. Those of fixed names all keep their entries in the data object exactly if no key extends
another one, and so in particular if all their names are simple. -/
theorem listeners_overwritten_iff (o : Options) (ho : o.UsesWeb) (source : String) :
    ∃ tree, (parse o source).result = .ok tree ∧ ∀ x el, tree.element? x = some el →
      (el.listeners.map (·.key)).Nodup ∧
      ((el.fixedListeners.map fun l => ListenerCode.keyCode l.key).Nodup ↔
        el.fixedListeners.Pairwise fun l l' =>
          ¬ ListenerCode.Extends l.key l'.key ∧ ¬ ListenerCode.Extends l'.key l.key) ∧
      ((∀ l ∈ el.fixedListeners, ListenerCode.isSimple l.key.name = true) →
        (el.fixedListeners.map fun l => ListenerCode.keyCode l.key).Nodup) := by
  obtain ⟨tree, htree, hdistinct⟩ := parse_each (distinct_tends ho) ho source fun _ _ => trivial
  refine ⟨tree, htree, fun x el hel => ?_⟩
  have hkeys : el.Distinct := hdistinct.element hel
  have hfixed : ∀ l ∈ el.fixedListeners, l.key.dynamic = false := by
    intro l hl
    simpa using (mem_filter.mp hl).2
  have hpairwise : el.fixedListeners.Pairwise fun l l' => l.key ≠ l'.key :=
    (pairwise_map.mp hkeys).sublist filter_sublist
  refine ⟨hkeys, ?_, fun hsimple => ?_⟩
  · rw [Nodup, pairwise_map]
    constructor
    · refine fun h => h.imp_of_mem fun {l l'} hl hl' hne => ?_
      rwa [← not_or, ← keyCode_eq_iff (hfixed l hl) (hfixed l' hl')]
    · refine fun h => h.imp_of_mem fun {l l'} hl hl' hne => ?_
      rwa [← not_or, ← keyCode_eq_iff (hfixed l hl) (hfixed l' hl')] at hne
  · rw [Nodup, pairwise_map]
    refine hpairwise.imp_of_mem fun {l l'} hl hl' hne heq => hne ?_
    exact eq_of_keyCode_eq (hfixed l hl) (hfixed l' hl') (hsimple l hl) (hsimple l' hl') heq

/-- Two spellings of a name share a key, and two phases of one name do not. -/
theorem listeners_overwritten_iff_hyphen : Web.options.UsesWeb ∧
    (∃ tree el, (parse Web.options "<div @foo-bar=a @fooBar=b></div>").result = .ok tree ∧
      tree.element? 0 = some el ∧ el.fixedListeners.length = 2 ∧
      ¬ el.fixedListeners.Pairwise fun l l' =>
        ¬ ListenerCode.Extends l.key l'.key ∧ ¬ ListenerCode.Extends l'.key l.key) ∧
    ∃ tree el, (parse Web.options "<div @x=a @x.capture=b></div>").result = .ok tree ∧
      tree.element? 0 = some el ∧
      (∀ l ∈ el.fixedListeners, ListenerCode.isSimple l.key.name = true) ∧
      (el.fixedListeners.map fun l => ListenerCode.keyCode l.key).Nodup := by
  obtain ⟨tree, htree, hall⟩ := listeners_overwritten_iff Web.options Web.usesWeb_options
    "<div @foo-bar=a @fooBar=b></div>"
  obtain ⟨tree', htree', hall'⟩ := listeners_overwritten_iff Web.options Web.usesWeb_options
    "<div @x=a @x.capture=b></div>"
  have hspelled := check_ok htree (fun tree => (tree.element? 0).any fun el =>
    el.fixedListeners.length = 2 && !decide (el.fixedListeners.map fun l => keyCode l.key).Nodup)
    (by decide +kernel)
  have hphases := check_ok htree' (fun tree => (tree.element? 0).any fun el =>
    el.fixedListeners.all (isSimple ·.key.name)) (by decide +kernel)
  simp only [Option.any_eq_true, Bool.and_eq_true, decide_eq_true_eq, Bool.not_eq_true',
    decide_eq_false_iff_not, all_eq_true] at hspelled hphases
  obtain ⟨el, hel, hlength, hshared⟩ := hspelled
  obtain ⟨el', hel', hsimple⟩ := hphases
  exact ⟨Web.usesWeb_options,
    ⟨tree, el, htree, hel, hlength, fun h => hshared ((hall 0 el hel).2.1.mpr h)⟩,
    tree', el', htree', hel', hsimple, (hall' 0 el' hel').2.2 hsimple⟩

end TemplateCompiler
