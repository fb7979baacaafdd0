import TemplateCompiler.Template.Element

/-!
# The listeners of an element

Handlers are declared one after the other, in any order, and the element groups them by what they
listen to. Nothing is lost on the way: `listeners_declare` gives the groups of any run of
declarations from a new element.

The view of a store of listeners is its keys (`keys_addHandler`) and the handlers of each key
(`handlersOf_addHandler`). What one declaration does to the two carries over to a run by induction.
-/

namespace TemplateCompiler

open List

/-! ## Declarations -/

/-- A handler as it is declared. -/
structure Declaration where
  name : String
  value : String
  modifiers : Option (List String) := none
  important : Bool := false
  dynamic : Bool := false
  deriving DecidableEq

namespace Declaration

def has (d : Declaration) (modifier : String) : Bool := modifier ∈ d.modifiers.getD []

/-- The event to listen to. Clicks of the right and the middle button have events of their own, also
when the name is only known at run time. -/
def event (d : Declaration) : String :=
  let button? := if d.has "right" then some "contextmenu" else if d.has "middle" then some "mouseup"
    else none
  match button? with
  | none => d.name
  | some instead =>
    if d.dynamic then "(" ++ d.name ++ ")==='click'?'" ++ instead ++ "':(" ++ d.name ++ ")"
    else if d.name = "click" then instead
    else d.name

def key (d : Declaration) : ListenerKey where
  name := d.event
  dynamic := d.dynamic
  capture := d.has "capture"
  once := d.has "once"

def takes (d : Declaration) (modifier : String) : Bool :=
  modifier = "capture" || modifier = "once" ||
    (modifier = "right" && !d.dynamic && d.name = "click")

/-- The handler that is stored: the modifiers that its key does not say remain. -/
def handler (d : Declaration) : Handler where
  value := Text.trim d.value
  modifiers := d.modifiers.map (·.filter (!d.takes ·))

end Declaration

def Element.declare (el : Element) (d : Declaration) : Element :=
  el.addHandler d.name d.value d.modifiers d.important d.dynamic

theorem renameClick_event (d : Declaration) :
    (if d.has "right" then ListenerKey.renameClick d.name "contextmenu" d.dynamic
      else if d.has "middle" then ListenerKey.renameClick d.name "mouseup" d.dynamic
      else d.name) = d.event := by
  unfold Declaration.event ListenerKey.renameClick
  cases d.has "right" <;> cases d.has "middle" <;> rfl

theorem ofDeclared_eq (d : Declaration) :
    ListenerKey.ofDeclared d.name d.modifiers d.dynamic = (d.key, d.handler.modifiers) := by
  cases hmods : d.modifiers with
  | none =>
    have hhas (m : String) : d.has m = false := by simp [Declaration.has, hmods]
    simp [ListenerKey.ofDeclared, Declaration.key, Declaration.handler, Declaration.event, hhas,
      hmods]
  | some mods =>
    have hhas (m : String) : mods.contains m = d.has m := by simp [Declaration.has, hmods]
    have hkept : (if d.has "right" && !d.dynamic && d.name = "click" then
        mods.filter (· ≠ "right") else mods) =
        mods.filter fun m => !(m = "right" && !d.dynamic && d.name = "click") := by
      split
      · next hclick =>
        rw [Bool.and_eq_true, Bool.and_eq_true] at hclick
        simp [hclick]
      · next hclick =>
        refine (filter_eq_self.mpr fun m hm => ?_).symm
        have hright : m = "right" → d.has "right" := fun heq => by simp [← hhas, ← heq, hm]
        grind
    have hevent := renameClick_event d
    unfold ListenerKey.ofDeclared
    dsimp only
    rw [hhas, hhas, hkept, hevent]
    have hflag (m : String) (hm : m ≠ "right") :
        (mods.filter fun m => !(m = "right" && !d.dynamic && d.name = "click")).contains m =
          d.has m := by
      rw [← hhas]
      simp [hm]
    rw [hflag _ (by decide), hflag _ (by decide), filter_filter]
    refine Prod.ext rfl ?_
    simp only [Declaration.handler, hmods, Option.map_some]
    congr 1
    refine filter_congr fun m _ => ?_
    simp [Declaration.takes, Bool.not_or]

/-! ## Adding a handler -/

variable {key k : ListenerKey} {handler : Handler} {important : Bool} {ls : List Listener}
  {d : Declaration} {el : Element}

def handlersOf (ls : List Listener) (key : ListenerKey) : List Handler :=
  ((ls.find? (·.key = key)).map (·.handlers)).getD []

theorem keys_addHandler : (addHandler key handler important ls).map (·.key) =
      if key ∈ ls.map (·.key) then ls.map (·.key) else ls.map (·.key) ++ [key] := by
  induction ls with
  | nil => rfl
  | cons l ls ih =>
    unfold addHandler
    by_cases hkey : l.key = key
    · simp [hkey]
    · rw [if_neg hkey, map_cons, ih]
      simp only [map_cons, mem_cons, Ne.symm hkey, false_or]
      split <;> rfl

theorem handlersOf_addHandler : handlersOf (addHandler key handler important ls) k =
      if key = k then
        if important then handler :: handlersOf ls k else handlersOf ls k ++ [handler]
      else handlersOf ls k := by
  unfold handlersOf
  induction ls with
  | nil => by_cases hk : key = k <;> cases important <;> simp [addHandler, hk]
  | cons l ls ih =>
    unfold addHandler
    by_cases hkey : l.key = key
    · subst hkey
      by_cases hk : l.key = k <;> cases important <;> simp [hk]
    · rw [if_neg hkey, find?_cons, find?_cons]
      by_cases hk : l.key = k
      · have hne : key ≠ k := fun heq => hkey (hk.trans heq.symm)
        simp [hk, hne]
      · simpa [hk] using ih

theorem length_addHandler : ((addHandler key handler important ls).flatMap (·.handlers)).length =
      (ls.flatMap (·.handlers)).length + 1 := by
  induction ls with
  | nil => rfl
  | cons l ls ih =>
    unfold addHandler
    split
    · rw [flatMap_cons, flatMap_cons, length_append, length_append]
      cases important <;> simp <;> omega
    · rw [flatMap_cons, flatMap_cons, length_append, length_append, ih]
      omega

theorem nodup_addHandler (h : (ls.map (·.key)).Nodup) :
    ((addHandler key handler important ls).map (·.key)).Nodup := by
  rw [keys_addHandler]
  split
  · exact h
  · next hnew =>
    refine nodup_append.mpr ⟨h, by simp, fun k hk k' hk' heq => hnew ?_⟩
    rwa [← mem_singleton.mp hk', ← heq]

theorem handlersOf_of_mem (h : (ls.map (·.key)).Nodup) {l : Listener} (hl : l ∈ ls) :
    handlersOf ls l.key = l.handlers := by
  unfold handlersOf
  induction ls with
  | nil => cases hl
  | cons first ls ih =>
    rw [map_cons, nodup_cons] at h
    rcases mem_cons.mp hl with rfl | hl
    · simp
    · have hne : first.key ≠ l.key := fun heq => h.1 (heq ▸ mem_map_of_mem hl)
      rw [find?_cons_of_neg (by simpa using hne)]
      exact ih h.2 hl

/-! ## Runs of declarations -/

/-- The handlers that declarations give to a key: the important ones, last first, then the
others. -/
def declaredHandlers (ds : List Declaration) (key : ListenerKey) : List Handler :=
  let own := ds.filter (·.key = key)
  ((own.filter (·.important)).reverse ++ own.filter (!·.important)).map (·.handler)

/-- The listeners are what the declarations ask for. -/
structure Records (ds : List Declaration) (ls : List Listener) : Prop where
  keys : ls.map (·.key) = (ds.map (·.key)).eraseDups
  distinct : (ls.map (·.key)).Nodup
  handlers : ∀ key, handlersOf ls key = declaredHandlers ds key
  total : (ls.flatMap (·.handlers)).length = ds.length

theorem listeners_declare_one :
    (el.declare d).listeners = addHandler d.key d.handler d.important el.listeners := by
  unfold Element.declare Element.addHandler
  rw [ofDeclared_eq]
  rfl

theorem declaredHandlers_concat (ds : List Declaration) :
    declaredHandlers (ds ++ [d]) key =
      if d.key = key then
        if d.important then d.handler :: declaredHandlers ds key
        else declaredHandlers ds key ++ [d.handler]
      else declaredHandlers ds key := by
  by_cases hkey : d.key = key <;> cases himportant : d.important <;>
    simp [declaredHandlers, filter_append, hkey, himportant]

theorem eraseDups_concat (keys : List ListenerKey) : (keys ++ [key]).eraseDups =
      if key ∈ keys then keys.eraseDups else keys.eraseDups ++ [key] := by
  rw [eraseDups_append]
  by_cases h : key ∈ keys <;> simp [removeAll, eraseDups_cons, h]

theorem Records.declare {ds : List Declaration} (h : Records ds el.listeners)
    (d : Declaration) : Records (ds ++ [d]) (el.declare d).listeners := by
  rw [listeners_declare_one]
  refine ⟨?_, nodup_addHandler h.distinct, fun key => ?_, ?_⟩
  · rw [keys_addHandler, h.keys, map_append, map_singleton, eraseDups_concat]
    simp only [mem_eraseDups]
  · rw [handlersOf_addHandler, h.handlers, declaredHandlers_concat]
  · rw [length_addHandler, h.total, length_append, length_singleton]

theorem records_declare {before : List Declaration}
    (h : Records before el.listeners) (ds : List Declaration) :
    Records (before ++ ds) (ds.foldl Element.declare el).listeners := by
  induction ds generalizing before el with
  | nil => rwa [append_nil]
  | cons d ds ih =>
    have hrest := ih (h.declare d)
    rwa [append_assoc] at hrest

/-- For all declarations on a new element: the listeners have the keys of the declarations, each
once and in the order of their first use. A listener has the important handlers of its key, the last
one first, and then the others in order. No handler keeps `capture` or `once` among its modifiers,
and there are as many handlers as declarations. -/
theorem listeners_declare (tag : String) (attrs : List Attr) (ds : List Declaration) :
    let listeners := (ds.foldl Element.declare (Element.ofTag tag attrs)).listeners
    (listeners.map (·.key)).Nodup ∧
    listeners.map (·.key) = (ds.map (·.key)).eraseDups ∧
    (∀ l ∈ listeners, l.handlers = declaredHandlers ds l.key ∧
      ∀ h ∈ l.handlers, ∀ mods ∈ h.modifiers, "capture" ∉ mods ∧ "once" ∉ mods) ∧
    (listeners.flatMap (·.handlers)).length = ds.length := by
  have hempty : Records [] (Element.ofTag tag attrs).listeners := ⟨rfl, .nil, fun _ => rfl, rfl⟩
  have h := records_declare hempty ds
  rw [nil_append] at h
  refine ⟨h.distinct, h.keys, fun l hl => ?_, h.total⟩
  have hhandlers : l.handlers = declaredHandlers ds l.key := by
    rw [← handlersOf_of_mem h.distinct hl]
    exact h.handlers l.key
  refine ⟨hhandlers, fun handler hmem mods hmods => ?_⟩
  rw [hhandlers] at hmem
  obtain ⟨d, -, rfl⟩ := mem_map.mp hmem
  obtain ⟨written, -, rfl⟩ := Option.map_eq_some_iff.mp hmods
  constructor <;> simp [Declaration.takes]

end TemplateCompiler
