import LayeredConfig.Proofs.Resolution.IndexOrder
import LayeredConfig.Proofs.Reading.Spelling

/-!
# The expansion of a path

What a path of a source stands for, without reference to cursors: `Expansion source path items`
lists the events of the tree below the path, and `Holds source path value` is the tree itself.
`Chain source path n last` says that `last` lies `n` children below `path`.

* `Expansion.unique`, `Holds.unique`: a path has at most one expansion and holds at most one tree.
* `Expansion.exists_spells`: an expansion in which no chain is too long spells the tree of the path.
-/

namespace LayeredConfig.Resolution

/-- The path `last` is reached from `path` through `n` successive children. -/
inductive Chain (source : Source) : String → Nat → String → Prop
  | start (path : String) : Chain source path 0 path
  | child {path key last : String} {n : Nat} (hkey : key ∈ source.keys path)
      (tail : Chain source (Path.join path key) n last) : Chain source path (n + 1) last

/-- The events of the entry of a map that tells its path. -/
def ownEntry (path : String) : List Located :=
  [⟨.key pathKey, Path.join path pathKey⟩, ⟨.value (.string path), Path.join path pathKey⟩]

/-- The events of the entries of a map, where `parts` gives those of the children. -/
def entryEvents (path : String) (parts : String → List Located) (keys : List String) :
    List Located :=
  keys.flatMap fun key => ⟨.key key, Path.join path key⟩ :: parts key

/-- The events of the tree below a path. -/
inductive Expansion (source : Source) : String → List Located → Prop
  /-- A path without children stands for its scalar. -/
  | value {path : String} {scalar : Scalar} (hkeys : source.keys path = [])
      (hvalue : source.value? path = some scalar) : Expansion source path [⟨.value scalar, path⟩]
  /-- A path without children and scalar stands for a null. -/
  | null {path : String} (hkeys : source.keys path = []) (hvalue : source.value? path = none) :
      Expansion source path [⟨.null, path⟩]
  /-- A path whose children all write an index stands for the list of them in index order. -/
  | list {path : String} {ordered : List String} {parts : String → List Located}
      (hkeys : source.keys path ≠ []) (hall : AllIndexes (source.keys path))
      (horder : IndexOrder (source.keys path) ordered)
      (hparts : ∀ key ∈ source.keys path, Expansion source (Path.join path key) (parts key)) :
      Expansion source path (⟨.listStart, path⟩ :: ordered.flatMap parts ++ [⟨.listEnd, path⟩])
  /-- Any other path with children stands for the map of them in the order of the source, behind
  the entry that tells the path. -/
  | map {path : String} {parts : String → List Located}
      (hkeys : source.keys path ≠ []) (hall : ¬ AllIndexes (source.keys path))
      (hparts : ∀ key ∈ source.keys path, Expansion source (Path.join path key) (parts key)) :
      Expansion source path
        (⟨.objectStart, path⟩ :: ownEntry path ++ entryEvents path parts (source.keys path) ++
          [⟨.objectEnd, path⟩])

/-- The tree below a path. -/
inductive Holds (source : Source) : String → Value → Prop
  | scalar {path : String} {leaf : Scalar} (hkeys : source.keys path = [])
      (hvalue : source.value? path = some leaf) : Holds source path (.scalar leaf)
  | null {path : String} (hkeys : source.keys path = []) (hvalue : source.value? path = none) :
      Holds source path .null
  | sequence {path : String} {ordered : List String} {trees : String → Value}
      (hkeys : source.keys path ≠ []) (hall : AllIndexes (source.keys path))
      (horder : IndexOrder (source.keys path) ordered)
      (htrees : ∀ key ∈ source.keys path, Holds source (Path.join path key) (trees key)) :
      Holds source path (.sequence (ordered.map trees))
  | mapping {path : String} {trees : String → Value}
      (hkeys : source.keys path ≠ []) (hall : ¬ AllIndexes (source.keys path))
      (htrees : ∀ key ∈ source.keys path, Holds source (Path.join path key) (trees key)) :
      Holds source path
        (.mapping (Value.collect ((source.keys path).map fun key => (key, trees key))))

variable {source : Source} {path : String}

/-! ### Chains -/

namespace Chain

variable {n : Nat} {last : String}

theorem zero (h : Chain source path 0 last) : last = path := by
  cases h
  rfl

/-- A chain starts with one of the children of its path. -/
theorem exists_child (h : Chain source path (n + 1) last) :
    ∃ key ∈ source.keys path, Chain source (Path.join path key) n last := by
  cases h with
  | child hkey tail => exact ⟨_, hkey, tail⟩

/-- A chain goes on with the children of its end. -/
theorem concat (h : Chain source path n last) {key : String} (hkey : key ∈ source.keys last) :
    Chain source path (n + 1) (Path.join last key) := by
  induction h with
  | start path => exact .child hkey (.start _)
  | child hfirst _ ih => exact .child hfirst (ih hkey)

/-- Where the chains from a path end above the limit, those from its children do. -/
theorem add_le_of_child {depth : Nat}
    (h : ∀ n last, Chain source path n last → depth + n ≤ maxDepth) {key : String}
    (hkey : key ∈ source.keys path) :
    ∀ n last, Chain source (Path.join path key) n last → depth + 1 + n ≤ maxDepth := by
  intro n last tail
  have hle := h (n + 1) last (.child hkey tail)
  omega

/-- The chains from a path are those from its children, and the one without a child. -/
theorem forall_le_succ_iff {levels : Nat} :
    (∀ n last, Chain source path n last → n ≤ levels + 1) ↔
      ∀ key ∈ source.keys path, ∀ n last,
        Chain source (Path.join path key) n last → n ≤ levels := by
  constructor
  · intro h key hkey n last tail
    exact Nat.le_of_succ_le_succ (h (n + 1) last (.child hkey tail))
  · intro h n last hchain
    cases hchain with
    | start => exact Nat.zero_le _
    | child hkey tail => exact Nat.succ_le_succ (h _ hkey _ _ tail)

/-- A path without children starts no chain. -/
theorem forall_le_of_keys_eq_nil (hkeys : source.keys path = []) (levels : Nat) :
    ∀ n last, Chain source path n last → n ≤ levels := by
  intro n last hchain
  cases hchain with
  | start => exact Nat.zero_le _
  | child hkey => exact absurd hkey (by simp [hkeys])

end Chain

/-! ### Uniqueness -/

/-- The expansion of a path whose children form a list is made of expansions of them. -/
theorem Expansion.of_list {items : List Located} (h : Expansion source path items)
    (hkeys : source.keys path ≠ []) (hall : AllIndexes (source.keys path)) {ordered : List String}
    (horder : IndexOrder (source.keys path) ordered) : ∃ parts : String → List Located,
      (∀ key ∈ source.keys path, Expansion source (Path.join path key) (parts key)) ∧
        items = ⟨.listStart, path⟩ :: ordered.flatMap parts ++ [⟨.listEnd, path⟩] := by
  cases h with
  | value hnil => exact absurd hnil hkeys
  | null hnil => exact absurd hnil hkeys
  | list _ _ horder' hparts =>
    obtain rfl := horder.unique hall horder'
    exact ⟨_, hparts, rfl⟩
  | map _ hnot => exact absurd hall hnot

/-- The expansion of a path whose children form a map is made of expansions of them. -/
theorem Expansion.of_map {items : List Located} (h : Expansion source path items)
    (hkeys : source.keys path ≠ []) (hall : ¬ AllIndexes (source.keys path)) :
    ∃ parts : String → List Located,
      (∀ key ∈ source.keys path, Expansion source (Path.join path key) (parts key)) ∧
        items = ⟨.objectStart, path⟩ :: ownEntry path ++
          entryEvents path parts (source.keys path) ++ [⟨.objectEnd, path⟩] := by
  cases h with
  | value hnil => exact absurd hnil hkeys
  | null hnil => exact absurd hnil hkeys
  | list _ hall' => exact absurd hall' hall
  | map _ _ hparts => exact ⟨_, hparts, rfl⟩

/-- A path has only one expansion. -/
theorem Expansion.unique {items items' : List Located} (h : Expansion source path items)
    (h' : Expansion source path items') : items = items' := by
  induction h generalizing items' with
  | value hkeys hvalue =>
    cases h' with
    | value _ hvalue' =>
      rw [hvalue, Option.some.injEq] at hvalue'
      rw [hvalue']
    | null _ hvalue' => exact absurd (hvalue.symm.trans hvalue') (by simp)
    | list hne => exact absurd hkeys hne
    | map hne => exact absurd hkeys hne
  | null hkeys hvalue =>
    cases h' with
    | value _ hvalue' => exact absurd (hvalue.symm.trans hvalue') (by simp)
    | null => rfl
    | list hne => exact absurd hkeys hne
    | map hne => exact absurd hkeys hne
  | list hkeys hall horder hparts ih =>
    -- the parts of the children are unique, and so is the order in which they come
    obtain ⟨parts', hparts', rfl⟩ := h'.of_list hkeys hall horder
    rw [List.flatMap_congr fun key hkey =>
      ih key (horder.mem_iff.1 hkey) (hparts' key (horder.mem_iff.1 hkey))]
  | map hkeys hall hparts ih =>
    obtain ⟨parts', hparts', rfl⟩ := h'.of_map hkeys hall
    rw [entryEvents, entryEvents, List.flatMap_congr fun key hkey => by
      rw [ih key hkey (hparts' key hkey)]]

/-- A path holds only one tree. -/
theorem Holds.unique {value value' : Value} (h : Holds source path value)
    (h' : Holds source path value') : value = value' := by
  induction h generalizing value' with
  | scalar hkeys hvalue =>
    cases h' with
    | scalar _ hvalue' =>
      rw [hvalue, Option.some.injEq] at hvalue'
      rw [hvalue']
    | null _ hvalue' => exact absurd (hvalue.symm.trans hvalue') (by simp)
    | sequence hne => exact absurd hkeys hne
    | mapping hne => exact absurd hkeys hne
  | null hkeys hvalue =>
    cases h' with
    | scalar _ hvalue' => exact absurd (hvalue.symm.trans hvalue') (by simp)
    | null => rfl
    | sequence hne => exact absurd hkeys hne
    | mapping hne => exact absurd hkeys hne
  | sequence hkeys hall horder htrees ih =>
    cases h' with
    | scalar hnil => exact absurd hnil hkeys
    | null hnil => exact absurd hnil hkeys
    | sequence _ _ horder' htrees' =>
      -- the items come in the same order, and each of them is unique
      obtain rfl := horder.unique hall horder'
      rw [List.map_congr_left fun key hkey =>
        ih key (horder.mem_iff.1 hkey) (htrees' key (horder.mem_iff.1 hkey))]
    | mapping _ hnot => exact absurd hall hnot
  | mapping hkeys hall htrees ih =>
    cases h' with
    | scalar hnil => exact absurd hnil hkeys
    | null hnil => exact absurd hnil hkeys
    | sequence _ hall' => exact absurd hall' hall
    | mapping _ _ htrees' =>
      rw [List.map_congr_left fun key hkey => by rw [ih key hkey (htrees' key hkey)]]

/-! ### The tree of an expansion -/

instance : Nonempty Value := ⟨.null⟩

section Parts

variable {parts : String → List Located} {keys : List String}
  {event : Event} (hevent : event = .null ∨ event = .endOfStream)
  (h : ∀ key ∈ keys, ∀ item ∈ parts key, item.event ≠ event)

include hevent h

/-- A null or the end of the stream does not come at the beginning of a list unless it comes in one
of its items. -/
theorem event_ne_of_list (path : String) :
    ∀ item ∈ ⟨.listStart, path⟩ :: keys.flatMap parts, item.event ≠ event := by
  intro item hitem
  rw [List.mem_cons, List.mem_flatMap] at hitem
  rcases hitem with rfl | ⟨key, hkey, hitem⟩
  · rcases hevent with rfl | rfl <;> simp
  · exact h key hkey item hitem

/-- A null or the end of the stream does not come at the beginning of a map unless it comes in one
of its children. -/
theorem event_ne_of_map (path : String) :
    ∀ item ∈ ⟨.objectStart, path⟩ :: ownEntry path ++ entryEvents path parts keys,
      item.event ≠ event := by
  intro item hitem
  simp only [ownEntry, entryEvents, List.cons_append, List.nil_append, List.mem_cons,
    List.mem_flatMap] at hitem
  rcases hitem with rfl | rfl | rfl | ⟨key, hkey, rfl | hitem⟩
  -- the events of the map itself are of other kinds
  iterate 4
    · rcases hevent with rfl | rfl <;> simp
  · exact h key hkey item hitem

end Parts

namespace Expansion

variable {items : List Located}

/-- An expansion does not go beyond its end. -/
theorem event_ne (h : Expansion source path items) :
    ∀ item ∈ items, item.event ≠ .endOfStream := by
  induction h with
  | value | null => simp
  | list hkeys hall horder hparts ih =>
    intro item hitem
    rcases List.mem_append.1 hitem with hitem | hitem
    · exact event_ne_of_list (.inr rfl) (fun key hkey => ih key (horder.mem_iff.1 hkey)) _ item
        hitem
    · rw [List.mem_singleton.1 hitem]
      simp
  | map hkeys hall hparts ih =>
    intro item hitem
    rcases List.mem_append.1 hitem with hitem | hitem
    · exact event_ne_of_map (.inr rfl) ih _ item hitem
    · rw [List.mem_singleton.1 hitem]
      simp

/-- The entries of a map with the events and the trees of their values, its own entry first. -/
def entryParts (path : String) (parts : String → List Located) (trees : String → Value)
    (keys : List String) : List (String × List Event × Value) :=
  (pathKey, [.value (.string path)], .scalar (.string path)) ::
    keys.map fun key => (key, (parts key).map (·.event), trees key)

/-- The events of the entries of a map are those of their names and values. -/
theorem map_event_entries (path : String) (parts : String → List Located)
    (trees : String → Value) (keys : List String) :
    (ownEntry path ++ entryEvents path parts keys).map (·.event) =
      (entryParts path parts trees keys).flatMap fun part => .key part.1 :: part.2.1 := by
  simp [ownEntry, entryEvents, entryParts, List.map_flatMap, List.flatMap_map]

/-- The own entry of a map above the last level is spelled like those of its children. -/
theorem spells_entryParts {depth : Nat} (hdepth : depth < maxDepth) (path : String)
    {parts : String → List Located} {trees : String → Value} {keys : List String}
    (h : ∀ key ∈ keys, Value.Spells (depth + 1) ((parts key).map (·.event)) (trees key)) :
    ∀ part ∈ entryParts path parts trees keys, Value.Spells (depth + 1) part.2.1 part.2.2 :=
  List.forall_mem_cons.2 ⟨.scalar hdepth _, List.forall_mem_map.2 h⟩

/-- An expansion in which every chain has its place above the limit spells the tree of the path. -/
theorem exists_spells (h : Expansion source path items) {depth levels : Nat}
    (hlevels : depth + levels = maxDepth)
    (hchain : ∀ n last, Chain source path n last → n ≤ levels) :
    ∃ value, Holds source path value ∧ Value.Spells depth (items.map (·.event)) value := by
  induction h generalizing depth levels with
  | value hkeys hvalue => exact ⟨_, .scalar hkeys hvalue, .scalar (by omega) _⟩
  | null hkeys hvalue => exact ⟨_, .null hkeys hvalue, .null (by omega)⟩
  | @list path ordered parts hkeys hall horder hparts ih =>
    -- a child is a chain of its own, so there is a level left for it
    obtain ⟨key, hkey⟩ := List.exists_mem_of_ne_nil _ hkeys
    obtain ⟨levels, rfl⟩ : ∃ levels', levels = levels' + 1 :=
      Nat.exists_eq_succ_of_ne_zero (Nat.ne_of_gt (hchain 1 _ (.child hkey (.start _))))
    have hchildren := Chain.forall_le_succ_iff.1 hchain
    choose! trees hholds hspells using fun key hkey =>
      ih key hkey (show depth + 1 + levels = maxDepth by omega) (hchildren key hkey)
    refine ⟨_, .sequence hkeys hall horder hholds, ?_⟩
    have hsequence := Value.Spells.sequence (show depth ≤ maxDepth by omega)
      (ordered.map fun key => ((parts key).map (·.event), trees key))
      (List.forall_mem_map.2 fun key hkey => hspells key (horder.mem_iff.1 hkey))
    simpa [List.map_flatMap, List.flatMap_map, Function.comp_def] using hsequence
  | @map path parts hkeys hall hparts ih =>
    obtain ⟨key, hkey⟩ := List.exists_mem_of_ne_nil _ hkeys
    obtain ⟨levels, rfl⟩ : ∃ levels', levels = levels' + 1 :=
      Nat.exists_eq_succ_of_ne_zero (Nat.ne_of_gt (hchain 1 _ (.child hkey (.start _))))
    have hchildren := Chain.forall_le_succ_iff.1 hchain
    choose! trees hholds hspells using fun key hkey =>
      ih key hkey (show depth + 1 + levels = maxDepth by omega) (hchildren key hkey)
    refine ⟨_, .mapping hkeys hall hholds, ?_⟩
    -- the own entry is spelled like the others, and reading leaves it out
    have hmapping := Value.Spells.mapping (show depth ≤ maxDepth by omega) _
      (spells_entryParts (show depth < maxDepth by omega) path hspells)
    rw [← map_event_entries] at hmapping
    simpa [entryParts, Value.collect, Value.addEntry, Function.comp_def] using hmapping

end Expansion

end LayeredConfig.Resolution
