/-!
# Maps in insertion order

A map from texts as the list of its entries. `insert` keeps the place of a key that is already
there, so the order of the entries is the order in which their keys first came.
-/

namespace LayeredConfig

/-- A map from texts whose entries are listed in the order of insertion. -/
abbrev OrderedMap (α : Type) := List (String × α)

namespace OrderedMap

variable {α : Type}

/-- The value stored for a key. -/
def get? (map : OrderedMap α) (key : String) : Option α := List.lookup key map

/-- The map with a value stored for a key: in the place of the key if it has one, else last. -/
def insert (map : OrderedMap α) (key : String) (value : α) : OrderedMap α :=
  match map with
  | [] => [(key, value)]
  | (k, v) :: rest => if k = key then (k, value) :: rest else (k, v) :: insert rest key value

/-- The map with all entries of a list stored one after the other. -/
def insertAll (map : OrderedMap α) (entries : List (String × α)) : OrderedMap α :=
  entries.foldl (fun map entry => insert map entry.1 entry.2) map

/-- The map that stores the entries of a list one after the other. -/
def ofList (entries : List (String × α)) : OrderedMap α := insertAll [] entries

/-- The keys in order. -/
def keys (map : OrderedMap α) : List String := map.map Prod.fst

/-- The list with `key` at its end, unless it holds `key` already. -/
def insertKey (keys : List String) (key : String) : List String :=
  if key ∈ keys then keys else keys ++ [key]

/-- The members of a list without repetition, each at its first place. -/
def distinct (keys : List String) : List String := keys.foldl insertKey []

@[simp]
theorem get?_nil (key : String) : get? ([] : OrderedMap α) key = none := rfl

theorem get?_cons (k : String) (v : α) (rest : OrderedMap α) (key : String) :
    get? ((k, v) :: rest) key = if key = k then some v else get? rest key := by
  unfold get?
  rw [List.lookup_cons]
  by_cases h : key = k
  · rw [if_pos h, beq_iff_eq.2 h]
  · rw [if_neg h, beq_false_of_ne h]

theorem get?_insert (map : OrderedMap α) (key other : String) (value : α) :
    get? (insert map key value) other = if other = key then some value else get? map other := by
  induction map with
  | nil => simp [insert, get?_cons]
  | cons entry rest ih =>
    unfold insert
    split <;> grind [get?_cons]

/-- Storing a value keeps the order of the keys and adds at most the new one. -/
theorem keys_insert (map : OrderedMap α) (key : String) (value : α) :
    keys (insert map key value) = insertKey (keys map) key := by
  induction map with
  | nil => rfl
  | cons entry rest ih =>
    unfold insert
    split <;> grind [keys, insertKey]

end OrderedMap

end LayeredConfig
