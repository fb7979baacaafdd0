import TemplateCompiler.Render.ListenerCode

/-!
# Guards of modifiers

The modifiers of a handler fall into three groups, of which two share the names of the arrow keys
that are also buttons. What stands before the code of a handler is a list of statements, group by
group: one test of all keys, then a guard for each modifier of the system group, then a statement
for each modifier that stops the event. So it depends on the order inside each group only, and the
event is not stopped before the keys and buttons have been tested (`guards_grouped`).
-/

namespace TemplateCompiler.ListenerCode

open String List

variable {m : String} {α : Type} {ms : List String}

/-! ## Groups -/

/-- A group of modifiers. -/
inductive ModifierGroup where
  | keys
  | system
  | propagation
  deriving DecidableEq

def systemNames : List String := systemKeys ++ ["left", "middle", "right", "exact"]

def propagationNames : List String := ["stop", "prevent", "self"]

/-- Whether a modifier is in a group. All other names are keys, and so are two of the buttons. -/
def ModifierGroup.has : ModifierGroup → String → Bool
  | keys, m => (m ∉ systemNames && m ∉ propagationNames) || m = "left" || m = "right"
  | system, m => m ∈ systemNames
  | propagation, m => m ∈ propagationNames

def ModifierGroup.place : ModifierGroup → Nat
  | keys => 0
  | system => 1
  | propagation => 2

/-! ## Statements -/

/-- A statement before the code of a handler. -/
inductive Guard where
  /-- The event comes from a button or from one of the keys. -/
  | keys (names : List String)
  | systemKey (name : String)
  | button (number : String)
  /-- None of these system keys is pressed. -/
  | unlisted (others : List String)
  | stop
  | prevent
  | self
  deriving DecidableEq

namespace Guard

def code : Guard → String
  | keys names => guardOn ("!('button' in $event)&&" ++ intercalate "&&" (names.map keyTest))
  | systemKey name => guardOn ("!$event." ++ name ++ "Key")
  | button number => guardOn ("'button' in $event && $event.button !== " ++ number)
  | unlisted others => guardOn (intercalate "||" (others.map fun k => "$event." ++ k ++ "Key"))
  | stop => "$event.stopPropagation();"
  | prevent => "$event.preventDefault();"
  | self => guardOn "$event.target !== $event.currentTarget"

def group : Guard → ModifierGroup
  | keys _ => .keys
  | systemKey _ | button _ | unlisted _ => .system
  | stop | prevent | self => .propagation

end Guard

def systemGuards (names : List String) (m : String) : List Guard :=
  if m = "exact" then
    let others := systemKeys.filter (· ∉ names)
    if others = [] then [] else [.unlisted others]
  else if m = "left" then [.button "0"]
  else if m = "middle" then [.button "1"]
  else if m = "right" then [.button "2"]
  else [.systemKey m]

def propagationGuard (m : String) : Guard :=
  if m = "stop" then .stop else if m = "prevent" then .prevent else .self

def statements (inGroup : ModifierGroup → List String) : List Guard :=
  (if inGroup .keys = [] then [] else [.keys (inGroup .keys)]) ++
    (inGroup .system).flatMap (systemGuards (inGroup .system)) ++
      (inGroup .propagation).map propagationGuard

/-! ## Each modifier -/

/-- What holds of the names in the two listed groups and of all others holds of every modifier. -/
theorem modifier_cases {P : String → Prop} (hlisted : ∀ m ∈ systemNames ++ propagationNames, P m)
    (hother : ∀ m, m ∉ systemNames → m ∉ propagationNames → P m) (m : String) : P m := by
  by_cases h : m ∈ systemNames ++ propagationNames
  · exact hlisted m h
  · rw [mem_append, not_or] at h
    exact hother m h.1 h.2

theorem propagationGuard?_of_not_mem (h : m ∉ propagationNames) : propagationGuard? m = none := by
  simp only [propagationNames, mem_cons, not_mem_nil, or_false, not_or] at h
  simp [propagationGuard?, h]

theorem systemGuard?_of_not_mem (h : m ∉ systemNames) : systemGuard? m = none ∧ m ≠ "exact" := by
  simp only [systemNames, mem_append, mem_cons, not_mem_nil, or_false, not_or] at h
  simp [systemGuard?, h]

open ModifierGroup

theorem isKey_eq (m : String) : isKey m = keys.has m := by
  refine modifier_cases (P := fun m => isKey m = keys.has m) (by decide)
    (fun m hsystem hpropa => ?_) m
  obtain ⟨hguard, hexact⟩ := systemGuard?_of_not_mem hsystem
  simp [isKey, has, propagationGuard?_of_not_mem hpropa, hguard, hexact,
    hsystem, hpropa]

theorem propagationPart_eq (m : String) : propagationPart m =
    if propagation.has m then (propagationGuard m).code else "" := by
  refine modifier_cases (P := fun m => propagationPart m =
    if propagation.has m then (propagationGuard m).code else "") (by decide)
    (fun m _ h => ?_) m
  simp [propagationPart, has, propagationGuard?_of_not_mem h, h]

theorem exactGuard_eq : exactGuard ms =
    join ((systemGuards (ms.filter system.has) "exact").map Guard.code) := by
  have hoth : systemKeys.filter (!ms.contains ·) =
      systemKeys.filter (· ∉ ms.filter system.has) := by
    refine filter_congr fun k hk => ?_
    have hsystem : k ∈ systemNames := mem_append_left _ hk
    simp [has, hsystem]
  unfold exactGuard systemGuards
  rw [hoth]
  generalize systemKeys.filter (· ∉ ms.filter system.has) = others
  cases others <;> simp [Guard.code]

theorem systemPart_eq (m : String) : systemPart ms m =
    if system.has m then
      join ((systemGuards (ms.filter system.has) m).map Guard.code)
    else "" := by
  by_cases h : m ∈ systemNames
  · have hgroup : system.has m := decide_eq_true h
    by_cases hexact : m = "exact"
    · subst hexact
      exact exactGuard_eq
    · unfold systemPart systemGuards
      rw [if_neg hexact, if_neg hexact]
      revert m
      decide
  · have hgroup : system.has m = false := decide_eq_false h
    obtain ⟨hguard, hexact⟩ := systemGuard?_of_not_mem h
    rw [if_neg (by simp [hgroup])]
    simp [systemPart, hguard, hexact]

/-! ## Lists of modifiers -/

theorem join_map_ite (p : α → Bool) (f : α → String) (l : List α) :
    join (l.map fun a => if p a then f a else "") = join ((l.filter p).map f) := by
  induction l with
  | nil => rfl
  | cons a l ih => cases h : p a <;> simp [h, ih]

theorem join_map_join (f : α → List String) (l : List α) :
    join (l.map fun a => join (f a)) = join (l.flatMap f) := by
  induction l with
  | nil => rfl
  | cons a l ih => rw [map_cons, join_cons, ih, flatMap_cons, join_append]

theorem guards_eq : guards ms =
    join ((statements fun group => ms.filter group.has).map Guard.code) := by
  have hkeys : keyGuard (ms.filter isKey) = join ((if ms.filter keys.has = [] then []
        else [Guard.keys (ms.filter keys.has)]).map Guard.code) := by
    rw [show isKey = keys.has from funext isKey_eq]
    cases ms.filter keys.has <;> simp [keyGuard, Guard.code]
  have hsystem : join (ms.map (systemPart ms)) = join (((ms.filter system.has).flatMap
        (systemGuards (ms.filter system.has))).map Guard.code) := by
    rw [funext systemPart_eq, join_map_ite, join_map_join, map_flatMap]
  have hpropa : join (ms.map propagationPart) = join
      (((ms.filter propagation.has).map propagationGuard).map Guard.code) := by
    rw [funext propagationPart_eq, join_map_ite, List.map_map]
    rfl
  rw [guards, hkeys, hsystem, hpropa, statements, map_append, map_append, join_append, join_append]

theorem group_systemGuards {names : List String} {g : Guard}
    (h : g ∈ systemGuards names m) : g.group = .system := by
  unfold systemGuards at h
  grind [Guard.group]

theorem group_propagationGuard : (propagationGuard m).group = .propagation := by
  unfold propagationGuard
  split
  · rfl
  · split <;> rfl

theorem pairwise_statements (inGroup : ModifierGroup → List String) :
    (statements inGroup).Pairwise fun g g' => g.group.place ≤ g'.group.place := by
  have hkeys : ∀ g ∈ (if inGroup .keys = [] then [] else [Guard.keys (inGroup .keys)]),
      g.group = .keys := by
    intro g hg
    split at hg
    · cases hg
    · rw [mem_singleton.mp hg]
      rfl
  have hsystem : ∀ g ∈ (inGroup .system).flatMap (systemGuards (inGroup .system)),
      g.group = .system := by
    intro g hg
    obtain ⟨m, -, hm⟩ := mem_flatMap.mp hg
    exact group_systemGuards hm
  have hpropa : ∀ g ∈ (inGroup .propagation).map propagationGuard, g.group = .propagation := by
    intro g hg
    obtain ⟨m, -, rfl⟩ := mem_map.mp hg
    exact group_propagationGuard
  have halike {l : List Guard} {group : ModifierGroup} (h : ∀ g ∈ l, g.group = group) :
      l.Pairwise fun g g' => g.group.place ≤ g'.group.place := by
    refine pairwise_iff_forall_sublist.mpr fun {g g'} hsub => Nat.le_of_eq ?_
    rw [h g (hsub.subset (by simp)), h g' (hsub.subset (by simp))]
  unfold statements
  rw [pairwise_append, pairwise_append]
  refine ⟨⟨halike hkeys, halike hsystem, fun g hg g' hg' => ?_⟩, halike hpropa,
    fun g hg g' hg' => ?_⟩
  · rw [hkeys g hg, hsystem g' hg']
    decide
  · rw [hpropa g' hg']
    cases g.group <;> decide

/-- For all lists of modifiers: the guards are the statements of the three groups one after the
other, each group in the order its modifiers were written, so the event is never stopped before the
keys, system keys and buttons have been tested. Lists that agree group by group have the same
guards. -/
theorem guards_grouped (ms : List String) :
    guards ms = String.join ((statements fun group => ms.filter group.has).map Guard.code) ∧
    (statements fun group => ms.filter group.has).Pairwise
      (fun g g' => g.group.place ≤ g'.group.place) ∧
    ∀ ms' : List String, (∀ group : ModifierGroup, ms'.filter group.has = ms.filter group.has) →
      guards ms' = guards ms := by
  refine ⟨guards_eq, pairwise_statements _, fun ms' hgroups => ?_⟩
  rw [guards_eq, guards_eq, funext hgroups]

/-- The modifiers of one group among those of the others. -/
theorem guards_grouped_mixed :
    (∀ group : ModifierGroup, ["stop", "left", "exact", "ctrl", "enter"].filter group.has =
      ["left", "enter", "exact", "stop", "ctrl"].filter group.has) ∧
    guards ["stop", "left", "exact", "ctrl", "enter"] =
      guards ["left", "enter", "exact", "stop", "ctrl"] := by
  have hgroups : ∀ group : ModifierGroup,
      ["stop", "left", "exact", "ctrl", "enter"].filter group.has =
        ["left", "enter", "exact", "stop", "ctrl"].filter group.has := by
    intro group
    cases group <;> decide
  exact ⟨hgroups, (guards_grouped _).2.2 _ hgroups⟩

end TemplateCompiler.ListenerCode
