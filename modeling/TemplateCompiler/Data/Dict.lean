/-!
# Dictionaries

Entries under text keys. A `Dict` lists them in the order of their keys; `upsert` keeps a list of
entries in the order in which their keys were first used.
-/

namespace TemplateCompiler

/-- Replaces the value of a key where it stands, or adds the entry at the end. -/
def upsert {β : Type} (entries : List (String × β)) (key : String) (value : β) :
    List (String × β) :=
  match entries with
  | [] => [(key, value)]
  | (k, v) :: rest => if k = key then (k, value) :: rest else (k, v) :: upsert rest key value

/-- Entries in ascending order of their keys. -/
structure Dict (β : Type) where
  entries : List (String × β) := []
  deriving Inhabited

namespace Dict

variable {β : Type}

def insertEntry (key : String) (value : β) : List (String × β) → List (String × β)
  | [] => [(key, value)]
  | (k, v) :: rest =>
    if key < k then (key, value) :: (k, v) :: rest
    else if k = key then (k, value) :: rest
    else (k, v) :: insertEntry key value rest

def insert (d : Dict β) (key : String) (value : β) : Dict β :=
  ⟨insertEntry key value d.entries⟩

def erase (d : Dict β) (key : String) : Dict β := ⟨d.entries.filter (·.1 ≠ key)⟩

def get? (d : Dict β) (key : String) : Option β := d.entries.lookup key

def contains (d : Dict β) (key : String) : Bool := (d.get? key).isSome

def keys (d : Dict β) : List String := d.entries.map (·.1)

/-- The dictionary of a list of entries; the last entry of a key counts. -/
def ofList (entries : List (String × β)) : Dict β :=
  entries.foldl (fun d e => d.insert e.1 e.2) {}

def isEmpty (d : Dict β) : Bool := d.entries.isEmpty

theorem lookup_insertEntry (key k : String) (value : β) (entries : List (String × β)) :
    (insertEntry key value entries).lookup k =
      if k = key then some value else entries.lookup k := by
  induction entries with
  | nil =>
    by_cases h : k = key
    · simp [insertEntry, h]
    · simp [insertEntry, List.lookup_cons, h, beq_eq_false_iff_ne.mpr h]
  | cons e rest ih =>
    obtain ⟨k', v'⟩ := e
    unfold insertEntry
    split
    · by_cases h : k = key
      · simp [h]
      · simp [List.lookup_cons, h, beq_eq_false_iff_ne.mpr h]
    · split
      · next heq =>
        subst heq
        by_cases h : k = k'
        · simp [h]
        · simp [List.lookup_cons, h, beq_eq_false_iff_ne.mpr h]
      · next hne =>
        by_cases h : k = k'
        · subst h
          simp [hne]
        · simp [List.lookup_cons, beq_eq_false_iff_ne.mpr h, ih]

/-- Setting a key changes what is found under it and nothing else. -/
@[simp] theorem get?_insert (d : Dict β) (key k : String) (value : β) :
    (d.insert key value).get? k = if k = key then some value else d.get? k :=
  lookup_insertEntry key k value d.entries

end Dict

end TemplateCompiler
