import LayeredConfig.Proofs.Document.Scan
import LayeredConfig.Proofs.Reading.Spelling

/-!
# The events of a tree

`Value.events path value` are the events by which a document gives the tree `value` at a path: those
of an object have no entry that tells its path. `Writable depth value` says that the tree can be
written and read again `depth` levels below a root: its scalars are those of JSON, its names are
different from each other and from `pathKey`, and nothing lies too deep.

* `Writable.spells`: the events of such a tree spell it.
-/

namespace LayeredConfig.Value

mutual

/-- The events of a tree at a path. -/
def events (path : String) : Value → List Located
  | .null => [⟨.null, path⟩]
  | .scalar leaf => [⟨.value leaf, path⟩]
  | .sequence items => ⟨.listStart, path⟩ :: itemEvents path 0 items ++ [⟨.listEnd, path⟩]
  | .mapping entries => ⟨.objectStart, path⟩ :: entryEvents path entries ++ [⟨.objectEnd, path⟩]

/-- The events of the items of a list from the one with the given number on. -/
def itemEvents (path : String) (index : Nat) : List Value → List Located
  | [] => []
  | item :: rest =>
    events (Path.join path (toString index)) item ++ itemEvents path (index + 1) rest

/-- The events of the entries of an object. -/
def entryEvents (path : String) : List (String × Value) → List Located
  | [] => []
  | (key, value) :: rest =>
    ⟨.key key, Path.join path key⟩ :: events (Path.join path key) value ++ entryEvents path rest

end

/-- The tree is a list or an object, so that it can be a document. -/
def IsContainer (value : Value) : Prop :=
  (∃ items, value = .sequence items) ∨ ∃ entries, value = .mapping entries

/-- The tree can be written `depth` levels below the root of a document and read again. -/
inductive Writable : Nat → Value → Prop
  | null {depth : Nat} (hdepth : depth ≤ maxDepth) : Writable depth .null
  | scalar {depth : Nat} (hdepth : depth ≤ maxDepth) {leaf : Scalar}
      (hleaf : Document.IsPlain leaf) : Writable depth (.scalar leaf)
  | sequence {depth : Nat} (hdepth : depth ≤ maxDepth) {items : List Value}
      (hitems : ∀ item ∈ items, Writable (depth + 1) item) : Writable depth (.sequence items)
  | mapping {depth : Nat} (hdepth : depth ≤ maxDepth) {entries : OrderedMap Value}
      (hnodup : (OrderedMap.keys entries).Nodup) (hnames : pathKey ∉ OrderedMap.keys entries)
      (hentries : ∀ entry ∈ entries, Writable (depth + 1) entry.2) :
      Writable depth (.mapping entries)

/-! ### Parts -/

/-- The events of items are those of each item at the path with its number. -/
theorem itemEvents_eq_flatMap (path : String) (index : Nat) (items : List Value) :
    itemEvents path index items =
      (items.mapIdx fun number item => (toString (index + number), item)).flatMap
        fun child => events (Path.join path child.1) child.2 := by
  induction items generalizing index with
  | nil =>
    rw [itemEvents]
    rfl
  | cons item rest ih =>
    rw [itemEvents, ih, List.mapIdx_cons, List.flatMap_cons]
    simp only [Nat.add_zero, Nat.add_assoc, Nat.add_comm 1]

/-- The events of entries are those of each entry at the path with its name, behind the name. -/
theorem entryEvents_eq_flatMap (path : String) (entries : List (String × Value)) :
    entryEvents path entries = entries.flatMap fun child =>
      ⟨.key child.1, Path.join path child.1⟩ :: events (Path.join path child.1) child.2 := by
  induction entries with
  | nil =>
    rw [entryEvents]
    rfl
  | cons entry rest ih =>
    obtain ⟨key, value⟩ := entry
    rw [entryEvents, ih, List.flatMap_cons]

/-! ### Spelling -/

/-- The events of items spell them one after the other. -/
theorem exists_parts_itemEvents {depth : Nat} {items : List Value}
    (h : ∀ item ∈ items, ∀ path, Spells depth ((events path item).map (·.event)) item)
    (path : String) (index : Nat) : ∃ parts : List (List Event × Value),
      (itemEvents path index items).map (·.event) = parts.flatMap (·.1) ∧
        items = parts.map (·.2) ∧ ∀ part ∈ parts, Spells depth part.1 part.2 := by
  refine ⟨(items.mapIdx fun number item => (toString (index + number), item)).map fun child =>
    ((events (Path.join path child.1) child.2).map (·.event), child.2), ?_, ?_, ?_⟩
  · rw [itemEvents_eq_flatMap, List.map_flatMap, List.flatMap_map]
  · exact List.ext_getElem (by simp) fun number _ _ => by simp
  · rintro part hpart
    obtain ⟨child, hchild, rfl⟩ := List.mem_map.1 hpart
    obtain ⟨number, hnumber, rfl⟩ := List.mem_mapIdx.1 hchild
    exact h _ (List.getElem_mem hnumber) _

/-- The events of entries spell them one after the other. -/
theorem exists_parts_entryEvents {depth : Nat} {entries : List (String × Value)}
    (h : ∀ entry ∈ entries, ∀ path, Spells depth ((events path entry.2).map (·.event)) entry.2)
    (path : String) : ∃ parts : List (String × List Event × Value),
      (entryEvents path entries).map (·.event) =
          (parts.flatMap fun part => .key part.1 :: part.2.1) ∧
        entries = parts.map (fun part => (part.1, part.2.2)) ∧
          ∀ part ∈ parts, Spells depth part.2.1 part.2.2 := by
  refine ⟨entries.map fun child =>
    (child.1, (events (Path.join path child.1) child.2).map (·.event), child.2), ?_, ?_, ?_⟩
  · rw [entryEvents_eq_flatMap, List.map_flatMap, List.flatMap_map]
    rfl
  · rw [List.map_map]
    exact (List.map_id' entries).symm
  · rintro part hpart
    obtain ⟨child, hchild, rfl⟩ := List.mem_map.1 hpart
    exact h child hchild _

/-- The events of a writable tree spell it. -/
theorem Writable.spells {depth : Nat} {value : Value} (h : Writable depth value) (path : String) :
    Spells depth ((events path value).map (·.event)) value := by
  induction h generalizing path with
  | null hdepth => exact .null hdepth
  | scalar hdepth => exact .scalar hdepth _
  | sequence hdepth hitems ih =>
    obtain ⟨parts, hevents, rfl, hparts⟩ := exists_parts_itemEvents ih path 0
    have hsequence := Spells.sequence hdepth parts hparts
    rw [events, List.cons_append, List.map_cons, List.map_append, hevents]
    simpa using hsequence
  | mapping hdepth hnodup hnames hentries ih =>
    -- reading keeps all entries, as their names are different and none tells a path
    obtain ⟨parts, hevents, rfl, hparts⟩ := exists_parts_entryEvents ih path
    have hmapping := Spells.mapping hdepth parts hparts
    rw [collect_eq_self hnodup hnames] at hmapping
    rw [events, List.cons_append, List.map_cons, List.map_append, hevents]
    simpa using hmapping

end LayeredConfig.Value
