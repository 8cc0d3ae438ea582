import LayeredConfig.OrderedMap
import Mathlib.Data.List.Basic
import Mathlib.Data.List.Induction

/-!
# Lists without repetition and maps in insertion order

* `distinct_eq_eraseDups`: `distinct` is the removal of repetitions of the standard library.
* `mem_distinct`, `nodup_distinct`: `distinct` keeps every member once, and `distinct_eq_self` says
  that it changes no list that has every member once already.
* `distinct_flatMap_congr`: it can be applied to the parts of a list first.
* `insertAll_append`: storing entries with new keys appends them.
-/

namespace LayeredConfig.OrderedMap

variable {α : Type} {keys more : List String} {key : String}

/-! ### Lists without repetition -/

theorem nodup_insertKey (h : keys.Nodup) : (insertKey keys key).Nodup := by
  rw [insertKey]
  split
  next => exact h
  next hmem =>
    refine List.nodup_append.2 ⟨h, by simp, fun a ha b hb => ?_⟩
    rw [List.mem_singleton.1 hb]
    exact fun heq => hmem (heq ▸ ha)

/-- Inserting keys adds the new ones, each at the place where it first comes. -/
theorem foldl_insertKey_eq (keys more : List String) :
    more.foldl insertKey keys = keys ++ (more.filter (· ∉ keys)).eraseDups := by
  induction more generalizing keys with
  | nil => simp
  | cons first rest ih =>
    rw [List.foldl_cons, ih, insertKey]
    by_cases hmem : first ∈ keys
    · rw [if_pos hmem, List.filter_cons_of_neg (by simpa using hmem)]
    -- a new key joins the list, and is passed over behind its first place
    · rw [if_neg hmem, List.filter_cons_of_pos (by simpa using hmem), List.eraseDups_cons,
        List.filter_filter, List.append_assoc, List.singleton_append]
      congr 4
      funext other
      simp [Bool.and_comm, beq_eq_decide]

theorem nodup_foldl_insertKey (h : keys.Nodup) : (more.foldl insertKey keys).Nodup := by
  induction more generalizing keys with
  | nil => exact h
  | cons first rest ih => exact ih (nodup_insertKey h)

/-- The members without repetition are those of the standard library. -/
theorem distinct_eq_eraseDups (keys : List String) : distinct keys = keys.eraseDups := by
  rw [distinct, foldl_insertKey_eq]
  simp

/-- Nothing is lost or added. -/
@[simp]
theorem mem_distinct : key ∈ distinct keys ↔ key ∈ keys := by
  rw [distinct_eq_eraseDups, List.mem_eraseDups]

theorem nodup_distinct (keys : List String) : (distinct keys).Nodup :=
  nodup_foldl_insertKey List.nodup_nil

theorem foldl_insertKey_of_nodup (h : (keys ++ more).Nodup) :
    more.foldl insertKey keys = keys ++ more := by
  induction more generalizing keys with
  | nil => simp
  | cons first rest ih =>
    have hfirst : first ∉ keys := by
      intro hmem
      exact (List.nodup_append.1 h).2.2 first hmem first (by simp) rfl
    rw [List.foldl_cons, insertKey, if_neg hfirst, ih (by simpa using h)]
    simp

/-- A list without repetition stays as it is. -/
theorem distinct_eq_self (h : keys.Nodup) : distinct keys = keys := by
  rw [distinct, foldl_insertKey_of_nodup (by simpa using h), List.nil_append]

theorem foldl_insertKey_of_subset (h : ∀ key ∈ more, key ∈ keys) :
    more.foldl insertKey keys = keys := by
  have hnone : more.filter (· ∉ keys) = [] := by simpa using h
  rw [foldl_insertKey_eq, hnone]
  simp

/-- Inserting the members of a list once adds the same as inserting the list. -/
theorem foldl_insertKey_distinct (keys more : List String) :
    (distinct more).foldl insertKey keys = more.foldl insertKey keys := by
  induction more using List.reverseRecOn with
  | nil => rfl
  | append_singleton more last ih =>
    have hlast : distinct (more ++ [last]) = insertKey (distinct more) last := List.foldl_concat ..
    rw [hlast, insertKey, List.foldl_concat, ← ih]
    split
    next hmem =>
      -- a member that came before has been inserted by then
      have hinserted : last ∈ (distinct more).foldl insertKey keys := by
        rw [foldl_insertKey_eq, List.mem_append, List.mem_eraseDups, List.mem_filter]
        by_cases hkeys : last ∈ keys
        · exact .inl hkeys
        · exact .inr ⟨hmem, by simpa using hkeys⟩
      rw [insertKey, if_pos hinserted]
    next => exact List.foldl_concat ..

theorem distinct_append (front rest : List String) :
    distinct (front ++ rest) = (distinct rest).foldl insertKey (distinct front) := by
  rw [foldl_insertKey_distinct, distinct, List.foldl_append]
  rfl

/-- Removing repetitions from a list of parts needs of every part only its distinct members. -/
theorem distinct_flatMap_congr {β : Type} {parts : List β} {f g : β → List String}
    (h : ∀ part ∈ parts, distinct (f part) = distinct (g part)) :
    distinct (parts.flatMap f) = distinct (parts.flatMap g) := by
  induction parts with
  | nil => rfl
  | cons part parts ih =>
    rw [List.forall_mem_cons] at h
    rw [List.flatMap_cons, List.flatMap_cons, distinct_append, distinct_append, h.1, ih h.2]

/-- Of keys that are repeated each in its place, one of each remains. -/
theorem distinct_flatMap_replicate {map : OrderedMap α} (h : (OrderedMap.keys map).Nodup)
    {count : String × α → Nat} (hcount : ∀ entry ∈ map, count entry ≠ 0) :
    distinct (map.flatMap fun entry => List.replicate (count entry) entry.1) =
      OrderedMap.keys map := by
  have hfold : ∀ before : List String, (before ++ OrderedMap.keys map).Nodup →
      (map.flatMap fun entry => List.replicate (count entry) entry.1).foldl insertKey before =
        before ++ OrderedMap.keys map := by
    clear h
    intro before h
    induction map generalizing before with
    | nil => simp [OrderedMap.keys]
    | cons entry rest ih =>
      obtain ⟨n, hn⟩ := Nat.exists_eq_succ_of_ne_zero (hcount entry (by simp))
      have hkey : entry.1 ∉ before := by
        intro hmem
        exact (List.nodup_append.1 h).2.2 entry.1 hmem entry.1 (by simp [OrderedMap.keys]) rfl
      have hmore : ∀ other ∈ List.replicate n entry.1, other ∈ before ++ [entry.1] := by
        intro other hother
        rw [List.eq_of_mem_replicate hother]
        simp
      -- the first occurrence adds the key, and the others find it
      rw [List.flatMap_cons, List.foldl_append, hn, List.replicate_succ, List.foldl_cons, insertKey,
        if_neg hkey, foldl_insertKey_of_subset hmore]
      refine (ih (fun entry hmem => hcount entry (List.mem_cons_of_mem _ hmem)) _
        (by simpa [OrderedMap.keys] using h)).trans ?_
      simp [OrderedMap.keys]
  rw [distinct, hfold [] h, List.nil_append]

/-- Where no two members of a list have the same image, a member is alone with its own. -/
theorem filter_eq_singleton {β : Type} {f : β → String} {l : List β} (h : (l.map f).Nodup) {a : β}
    (ha : a ∈ l) : l.filter (f · = f a) = [a] := by
  obtain ⟨left, right, rfl⟩ := List.append_of_mem ha
  simp only [List.map_append, List.map_cons, List.nodup_append, List.nodup_cons] at h
  -- the members on both sides have other images
  have hleft : left.filter (f · = f a) = [] := by
    rw [List.filter_eq_nil_iff]
    intro b hb heq
    exact h.2.2 (f b) (List.mem_map_of_mem hb) _ (by simp) (of_decide_eq_true heq)
  have hright : right.filter (f · = f a) = [] := by
    rw [List.filter_eq_nil_iff]
    intro b hb heq
    exact h.2.1.1 (of_decide_eq_true heq ▸ List.mem_map_of_mem hb)
  simp [List.filter_append, hleft, hright]

/-! ### Maps -/

theorem insert_of_notMem {map : OrderedMap α} {value : α} (h : key ∉ OrderedMap.keys map) :
    insert map key value = map ++ [(key, value)] := by
  induction map with
  | nil => rfl
  | cons entry rest ih =>
    obtain ⟨k, v⟩ := entry
    rw [OrderedMap.keys, List.map_cons, List.mem_cons, not_or] at h
    rw [insert, if_neg (Ne.symm h.1), ih h.2, List.cons_append]

/-- Entries with new keys are appended in their order. -/
theorem insertAll_append {map entries : OrderedMap α}
    (h : (OrderedMap.keys (map ++ entries)).Nodup) : insertAll map entries = map ++ entries := by
  induction entries generalizing map with
  | nil => simp [insertAll]
  | cons entry rest ih =>
    -- the first entry has a new key, so it goes to the end
    have hentry : entry.1 ∉ OrderedMap.keys map := by
      intro hmem
      rw [OrderedMap.keys, List.map_append] at h
      exact (List.nodup_append.1 h).2.2 entry.1 hmem entry.1 (by simp) rfl
    rw [insertAll, List.foldl_cons, insert_of_notMem hentry]
    refine (ih (by simpa using h)).trans ?_
    simp

/-- Storing the entries of a map one after the other gives the map. -/
theorem insertAll_nil {entries : OrderedMap α} (h : (OrderedMap.keys entries).Nodup) :
    insertAll [] entries = entries :=
  insertAll_append h

/-- Storing entries adds their keys, each at the place where it first comes. -/
theorem keys_insertAll (map : OrderedMap α) (entries : List (String × α)) :
    OrderedMap.keys (insertAll map entries) =
      (OrderedMap.keys entries).foldl insertKey (OrderedMap.keys map) := by
  induction entries generalizing map with
  | nil => rfl
  | cons entry rest ih =>
    rw [insertAll, List.foldl_cons]
    exact (ih _).trans (by rw [keys_insert]; rfl)

theorem mem_keys_ofList {entries : List (String × α)} :
    key ∈ OrderedMap.keys (ofList entries) ↔ key ∈ OrderedMap.keys entries := by
  rw [ofList, keys_insertAll]
  exact mem_distinct

/-- A map has a value for every key, and it is one of its entries. -/
theorem get?_eq_some_iff {map : OrderedMap α} (h : (OrderedMap.keys map).Nodup) {value : α} :
    get? map key = some value ↔ (key, value) ∈ map := by
  induction map with
  | nil => simp
  | cons entry rest ih =>
    obtain ⟨k, v⟩ := entry
    rw [OrderedMap.keys, List.map_cons, List.nodup_cons] at h
    rw [get?_cons, List.mem_cons, Prod.mk.injEq]
    split
    next heq =>
      have hrest : (key, value) ∉ rest := by
        intro hmem
        rw [heq] at hmem
        exact h.1 (List.mem_map.2 ⟨_, hmem, rfl⟩)
      rw [Option.some.injEq]
      exact ⟨fun hvalue => .inl ⟨heq, hvalue.symm⟩, fun hmem =>
        hmem.elim (fun hentry => hentry.2.symm) fun hmem => absurd hmem hrest⟩
    next hne => simp [hne, ih h.2]

/-- The value of a key is the last one that has been stored for it. -/
theorem get?_ofList (entries : List (String × α)) (key : String) :
    get? (ofList entries) key = ((entries.filter (·.1 = key)).getLast?).map (·.2) := by
  induction entries using List.reverseRecOn with
  | nil => rfl
  | append_singleton entries entry ih =>
    have hlast : ofList (entries ++ [entry]) = insert (ofList entries) entry.1 entry.2 := by
      rw [ofList, insertAll, List.foldl_append]
      rfl
    rw [hlast, get?_insert, ih, List.filter_append]
    by_cases heq : entry.1 = key
    · rw [if_pos heq.symm, List.filter_singleton]
      simp [heq]
    · rw [if_neg (Ne.symm heq), List.filter_singleton]
      simp [heq]

/-- Looking up the keys of a map one after the other gives its entries. -/
theorem map_get?_keys {map : OrderedMap α} (h : (OrderedMap.keys map).Nodup) (default : α) :
    ((OrderedMap.keys map).map fun key => (key, (get? map key).getD default)) = map := by
  rw [OrderedMap.keys, List.map_map]
  refine (List.map_congr_left fun entry hentry => ?_).trans (List.map_id map)
  rw [Function.comp_apply, (get?_eq_some_iff h).2 hentry, Option.getD_some]
  rfl

/-- A list of parts with different keys to which only one entry contributes. -/
theorem flatMap_eq_of_mem {β : Type} {map : OrderedMap α} (h : (OrderedMap.keys map).Nodup)
    {value : α} (hmem : (key, value) ∈ map) {part : String × α → List β}
    (hpart : ∀ entry ∈ map, entry.1 ≠ key → part entry = []) :
    map.flatMap part = part (key, value) := by
  obtain ⟨left, right, rfl⟩ := List.append_of_mem hmem
  simp only [OrderedMap.keys, List.map_append, List.map_cons, List.nodup_append,
    List.nodup_cons] at h
  -- the entries on both sides have other keys
  have hleft : left.flatMap part = [] := by
    rw [List.flatMap_eq_nil_iff]
    intro entry hentry
    exact hpart entry (by simp [hentry]) (h.2.2 entry.1 (List.mem_map_of_mem hentry) key (by simp))
  have hright : right.flatMap part = [] := by
    rw [List.flatMap_eq_nil_iff]
    intro entry hentry
    exact hpart entry (by simp [hentry]) fun heq => h.2.1.1 (heq ▸ List.mem_map_of_mem hentry)
  simp [List.flatMap_append, hleft, hright]

theorem isSome_get?_iff {map : OrderedMap α} :
    (get? map key).isSome ↔ key ∈ OrderedMap.keys map := by
  induction map with
  | nil => simp [OrderedMap.keys]
  | cons entry rest ih =>
    obtain ⟨k, v⟩ := entry
    rw [get?_cons, OrderedMap.keys, List.map_cons, List.mem_cons]
    split
    next heq => simp [heq]
    next hne => rw [ih, OrderedMap.keys, or_iff_right hne]

end LayeredConfig.OrderedMap
