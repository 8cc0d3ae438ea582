import LayeredConfig.Proofs.Resolution.Failure

/-!
# Reading below the last level

A tree with a chain of more than `maxDepth` children cannot be read. Two limits stop the reading:
that of the cursor, which does not resolve a child below the last level, and that of the reader,
which takes no token from there. They meet at the first path on the last level that has children
(`FirstDeep`), and the kind of node there decides which of them comes first.

* A list resolves its first item together with its start, so the cursor fails, at the path of the
  item.
* A map gives its start and the entry that tells its path before it resolves a child, so the reader
  fails, at the path of this entry. Nothing is stored there.

`FirstDeep.failsAt` says so for a node inside of others, and `FirstDeep.read_eq` for the whole tree
at a path.
-/

namespace LayeredConfig.Resolution

open Cursor TokenStream

variable {source : Source} {path parent : String} {depth levels : Nat}

/-! ### The order of reading -/

/-- The segments below a path in the order in which they are read. -/
def readingOrder (keys : List String) : List String := (listIndexes? keys).getD keys

theorem readingOrder_of_indexOrder {keys ordered : List String} (hall : AllIndexes keys)
    (horder : IndexOrder keys ordered) : readingOrder keys = ordered := by
  rw [readingOrder, listIndexes?_eq_some_iff.2 ⟨hall, horder⟩, Option.getD_some]

theorem readingOrder_of_not_allIndexes {keys : List String} (hall : ¬ AllIndexes keys) :
    readingOrder keys = keys := by
  rw [readingOrder, listIndexes?_eq_none_iff.2 hall, Option.getD_none]

theorem perm_readingOrder (keys : List String) : (readingOrder keys).Perm keys := by
  by_cases hall : AllIndexes keys
  · obtain ⟨ordered, horder⟩ := hall.exists_indexOrder
    rw [readingOrder_of_indexOrder hall horder]
    exact horder.perm
  · rw [readingOrder_of_not_allIndexes hall]

theorem readingOrder_singleton (key : String) : readingOrder [key] = [key] :=
  List.perm_singleton.1 (perm_readingOrder [key])

/-- A list of segments that all write an index is read in the index order. -/
theorem indexOrder_readingOrder {keys : List String} (hall : AllIndexes keys) :
    IndexOrder keys (readingOrder keys) := by
  obtain ⟨ordered, horder⟩ := hall.exists_indexOrder
  rwa [readingOrder_of_indexOrder hall horder]

/-- The first path in the order of reading that lies `levels` children below the given one and has
children of its own. -/
inductive FirstDeep (source : Source) : String → Nat → String → Prop
  | here {path : String} (hkeys : source.keys path ≠ []) : FirstDeep source path 0 path
  | child {path key parent : String} {levels : Nat} {before after : List String}
      (hkeys : readingOrder (source.keys path) = before ++ key :: after)
      (hbefore : ∀ key ∈ before, ∀ n last, Chain source (Path.join path key) n last → n ≤ levels)
      (hchild : FirstDeep source (Path.join path key) levels parent) :
      FirstDeep source path (levels + 1) parent

/-- A path from which some chain leaves the levels has such a path below it. -/
theorem exists_firstDeep (h : ¬ ∀ n last, Chain source path n last → n ≤ levels) :
    ∃ parent, FirstDeep source path levels parent := by
  induction levels generalizing path with
  | zero => exact ⟨path, .here fun hkeys => h (Chain.forall_le_of_keys_eq_nil hkeys 0)⟩
  | succ levels ih =>
    rw [Chain.forall_le_succ_iff] at h
    obtain ⟨before, key, after, hkeys, hbefore, hkey⟩ := exists_first_not
      fun hordered : ∀ key ∈ readingOrder (source.keys path), ∀ n last,
          Chain source (Path.join path key) n last → n ≤ levels =>
        h fun key hkey => hordered key ((perm_readingOrder _).mem_iff.2 hkey)
    obtain ⟨parent, hparent⟩ := ih hkey
    exact ⟨parent, .child hkeys hbefore hparent⟩

namespace FirstDeep

theorem keys_ne_nil (h : FirstDeep source path levels parent) : source.keys parent ≠ [] := by
  induction h with
  | here hkeys => exact hkeys
  | child _ _ _ ih => exact ih

theorem chain (h : FirstDeep source path levels parent) : Chain source path levels parent := by
  induction h with
  | here => exact .start _
  | child hkeys _ _ ih =>
    exact .child ((perm_readingOrder _).mem_iff.1 (by rw [hkeys]; simp)) ih

/-- Some chain goes on behind it. -/
theorem not_forall_le (h : FirstDeep source path levels parent) :
    ¬ ∀ n last, Chain source path n last → n ≤ levels := by
  obtain ⟨key, hkey⟩ := List.exists_mem_of_ne_nil _ h.keys_ne_nil
  exact fun hle => Nat.not_succ_le_self levels (hle _ _ (h.chain.concat hkey))

/-- There is only one first path. -/
theorem unique {other : String} (h : FirstDeep source path levels parent)
    (h' : FirstDeep source path levels other) : parent = other := by
  induction h with
  | here =>
    cases h'
    rfl
  | child hkeys hbefore hchild ih =>
    cases h' with
    | child hkeys' hbefore' hchild' =>
      obtain rfl := first_not_unique (hkeys.symm.trans hkeys') hbefore hbefore'
        hchild.not_forall_le hchild'.not_forall_le
      exact ih hchild'

end FirstDeep

/-! ### Where reading fails -/

/-- The path at which reading the children of a path on the last level fails: that of the first item
of a list, or that of the entry of a map that tells its path. -/
def tooDeepPlace (source : Source) (parent : String) : String :=
  Path.join parent <| if AllIndexes (source.keys parent) then
    (readingOrder (source.keys parent)).headD pathKey
  else
    pathKey

theorem exists_tooDeepPlace_eq (hkeys : source.keys parent ≠ [])
    (hall : AllIndexes (source.keys parent)) : ∃ key rest,
      readingOrder (source.keys parent) = key :: rest ∧ key ∈ source.keys parent ∧
        tooDeepPlace source parent = Path.join parent key := by
  have hperm := perm_readingOrder (source.keys parent)
  have hne : readingOrder (source.keys parent) ≠ [] :=
    fun hnil => hkeys (List.nil_perm.1 (hnil ▸ hperm))
  obtain ⟨key, rest, hcons⟩ := List.exists_cons_of_ne_nil hne
  have hmem : key ∈ source.keys parent := hperm.mem_iff.1 (hcons ▸ List.mem_cons_self)
  exact ⟨key, rest, hcons, hmem, by rw [tooDeepPlace, if_pos hall, hcons, List.headD_cons]⟩

theorem tooDeepPlace_of_not_allIndexes (hall : ¬ AllIndexes (source.keys parent)) :
    tooDeepPlace source parent = Path.join parent pathKey := by
  rw [tooDeepPlace, if_neg hall]

/-- Reading what the path resolves to fails at the place, also inside of other nodes. -/
def FailsAt (source : Source) (path : String) (depth : Nat) (place : String) : Prop :=
  ∀ (cursor : Cursor) (wrap : Cursor → Cursor), resolveAt source path depth = .ok cursor →
    Carries source wrap → ∀ (kind : NodeKind) (slot : Slot),
      (Value.readTree depth (⟨⟨source, kind, wrap cursor⟩, slot⟩ : Reader Node)).1 =
        .error (.depthExceeded place maxDepth)

/-- On the last level a list fails at its first item. -/
theorem failsAt_list (hkeys : source.keys path ≠ []) (hall : AllIndexes (source.keys path)) :
    FailsAt source path maxDepth (tooDeepPlace source path) := by
  intro cursor wrap hcursor hcarries kind slot
  obtain ⟨key, rest, hcons, -, hplace⟩ := exists_tooDeepPlace_eq hkeys hall
  rw [resolveAt_of_indexOrder (Nat.le_refl _) hkeys hall (indexOrder_readingOrder hall), hcons,
    Except.ok.injEq] at hcursor
  subst hcursor
  have hfail := hcarries.next (next_of_stopped_list source path key rest) (by simp)
  rw [Value.readTree_of_next_error (Node.next_reader_error kind slot hfail), hplace]

/-- On the last level a map fails at the entry that tells its path. -/
theorem failsAt_map (hkeys : source.keys path ≠ []) (hall : ¬ AllIndexes (source.keys path)) :
    FailsAt source path maxDepth (tooDeepPlace source path) := by
  intro cursor wrap hcursor hcarries kind slot
  rw [tooDeepPlace_of_not_allIndexes hall]
  rw [resolveAt_of_not_allIndexes (Nat.le_refl _) hkeys hall, Except.ok.injEq] at hcursor
  subst hcursor
  have hstart : (mapStart path maxDepth (source.keys path)).next source =
    (.ok ⟨.objectStart, path⟩, mapKey path maxDepth .own (source.keys path)) := rfl
  have hname : (mapKey path maxDepth .own (source.keys path)).next source =
    (.ok ⟨.key pathKey, Path.join path pathKey⟩, _) := rfl
  have hvalue : (mapValue path maxDepth (leaf (Path.join path pathKey) (some (.string path)))
    (source.keys path)).next source =
      (.ok ⟨.value (.string path), Path.join path pathKey⟩, _) := rfl
  exact Value.readTree_tooDeep (Node.next_eq kind (hcarries.next hstart (by simp)))
    (Node.next_eq kind (hcarries.next hname (by simp)))
    (Node.next_eq kind (hcarries.next hvalue (by simp))) slot

namespace Node

variable {cursor child after : Cursor} (kind : NodeKind) (slot : Slot)

/-- What a reader gives next depends on its cursor only through the next call. -/
theorem next_reader_of_next_eq {other : Cursor} (h : cursor.next source = other.next source) :
    next (⟨⟨source, kind, cursor⟩, slot⟩ : Reader Node) = next ⟨⟨source, kind, other⟩, slot⟩ := by
  obtain ⟨result, after, hnext⟩ : ∃ result after, other.next source = (result, after) :=
    ⟨_, _, rfl⟩
  rw [hnext] at h
  cases result with
  | error error => rw [next_reader_error kind slot h, next_reader_error kind slot hnext]
  | ok item => rw [next_reader kind slot h, next_reader kind slot hnext]

/-- The first token of a child that has just been resolved begins a tree. -/
theorem token_ne_of_next_eq (hfresh : child.IsFresh)
    (hnext : cursor.next source = ((child.nextHere source).1, after)) {token : Token}
    (h : (next (⟨⟨source, kind, cursor⟩, slot⟩ : Reader Node)).1 = .ok token) :
    token ≠ .listEnd ∧ token ≠ .endOfStream := by
  cases hfirst : (child.nextHere source).1 with
  | error error =>
    rw [next_reader_error kind slot (hfirst ▸ hnext)] at h
    exact absurd h (by simp)
  | ok item =>
    rw [next_reader kind slot (hfirst ▸ hnext), Except.ok.injEq] at h
    exact h ▸ token_ne_of_isFresh hfresh hfirst

end Node

section Before

variable {key : String} {before : List String} {wrap : Cursor → Cursor} {child : Cursor}
  {parts : String → List Located}
  (hexpansion : ∀ key ∈ before, Expansion source (Path.join path key) (parts key))
  (hgives : ∀ key ∈ before, Gives source (Path.join path key) (depth + 1) (parts key))
  (hchild : resolveAt source (Path.join path key) (depth + 1) = .ok child)

include hexpansion hgives hchild

/-- A list gives its start and the items before another one, and goes on with that one. -/
theorem Carries.emits_items (hcarries : Carries source wrap) (after : List String)
    (trees : String → Value) (kind : NodeKind) : ∃ reached,
      Emits (⟨source, kind, wrap (.listStart path depth (before ++ key :: after))⟩ : Node)
        (.listStart :: (before.map fun key => ((parts key).map (·.event), trees key)).flatMap (·.1))
        ⟨source, kind, reached⟩ ∧
      reached.next source = ((child.nextHere source).1,
        wrap (.listItem path depth (child.nextHere source).2 after)) := by
  obtain ⟨reached, run, hreached⟩ := reaches_item after hgives hchild
  have hfresh := isFresh_of_resolveAt hchild
  have hitems := event_ne_of_list (.inr rfl) (fun key hkey => (hexpansion key hkey).event_ne) path
  refine ⟨wrap reached, ⟨_, ?_, Node.run_of_cursor kind (hcarries.run run hitems)⟩, ?_⟩
  · simp [List.map_flatMap, List.flatMap_map]
  · exact hcarries.next (hreached.trans (next_listItem_of_isFresh hfresh))
      fun _ h => event_ne_of_isFresh hfresh h

/-- A map gives its start and the entries before another one, and goes on with the name of that
one. -/
theorem Carries.emits_entries (hcarries : Carries source wrap) (after : List String)
    (trees : String → Value) (kind : NodeKind) : ∃ reached,
      Emits (⟨source, kind, wrap (.mapStart path depth (before ++ key :: after))⟩ : Node)
        (.objectStart :: (Expansion.entryParts path parts trees before).flatMap
          fun part => .key part.1 :: part.2.1) ⟨source, kind, reached⟩ ∧
      reached.next source =
        (.ok ⟨.key key, Path.join path key⟩, wrap (.mapValue path depth child after)) := by
  obtain ⟨reached, run, hreached⟩ :=
    (reaches_ownEntry source path depth (before ++ key :: after)).append
      (reaches_entries (key :: after) hgives)
  have hitems := event_ne_of_map (.inr rfl) (fun key hkey => (hexpansion key hkey).event_ne) path
  refine ⟨wrap reached, ⟨_, ?_, Node.run_of_cursor kind (hcarries.run run hitems)⟩, ?_⟩
  · rw [← Expansion.map_event_entries]
    rfl
  · exact hcarries.next (hreached.trans (next_afterValue_cons hchild after)) (by simp)

end Before

section Inner

variable {key place : String} {before after : List String}
  (hlevels : depth + (levels + 1) = maxDepth)
  (hbefore : ∀ key ∈ before, ∀ n last, Chain source (Path.join path key) n last → n ≤ levels)
  (hfails : FailsAt source (Path.join path key) (depth + 1) place)

include hlevels hbefore hfails

/-- A list fails where an item fails behind complete ones. -/
theorem FailsAt.item (hall : AllIndexes (source.keys path))
    (horder : IndexOrder (source.keys path) (before ++ key :: after)) :
    FailsAt source path depth place := by
  intro cursor wrap hcursor hcarries kind slot
  have hmem : key ∈ source.keys path := horder.mem_iff.1 (by simp)
  rw [resolveAt_of_indexOrder (by omega) (List.ne_nil_of_mem hmem) hall horder,
    Except.ok.injEq] at hcursor
  subst hcursor
  have hcomplete := fun key hkey =>
    completes_of_forall_le (show depth + 1 + levels = maxDepth by omega) (hbefore key hkey)
  choose! parts trees hexpansion hgives hspells using fun key hkey =>
    (hcomplete key hkey).exists_spells (by omega)
  obtain ⟨child, hchild⟩ := exists_resolveAt source (Path.join path key)
    (show depth + 1 ≤ maxDepth by omega)
  have hfresh := isFresh_of_resolveAt hchild
  obtain ⟨reached, hemits, hreached⟩ :=
    hcarries.emits_items hexpansion hgives hchild after trees kind
  obtain ⟨slot', hfail⟩ := Value.readTree_item_error (show depth ≤ maxDepth by omega)
    (List.forall_mem_map.2 hspells) hemits
    (fun slot _ htoken => Node.token_ne_of_next_eq kind slot hfresh hreached htoken) slot
  -- the item goes on as if the list had just been there
  have hfirst : (listItem path depth child after).next source = _ := next_listItem_of_isFresh hfresh
  have hitem := hcarries.next hfirst fun _ h => event_ne_of_isFresh hfresh h
  refine hfail _ ?_
  rw [Value.readTree_of_next_eq
    (Node.next_reader_of_next_eq kind slot' (hreached.trans hitem.symm))]
  exact hfails child _ hchild (hcarries.comp (.listItem source path depth after)) kind slot'

/-- A map fails where the value of an entry fails behind complete ones. -/
theorem FailsAt.entry (hkeys : source.keys path = before ++ key :: after)
    (hall : ¬ AllIndexes (source.keys path)) : FailsAt source path depth place := by
  intro cursor wrap hcursor hcarries kind slot
  rw [resolveAt_of_not_allIndexes (by omega) (by simp [hkeys]) hall, hkeys,
    Except.ok.injEq] at hcursor
  subst hcursor
  have hcomplete := fun key hkey =>
    completes_of_forall_le (show depth + 1 + levels = maxDepth by omega) (hbefore key hkey)
  choose! parts trees hexpansion hgives hspells using fun key hkey =>
    (hcomplete key hkey).exists_spells (by omega)
  obtain ⟨child, hchild⟩ := exists_resolveAt source (Path.join path key)
    (show depth + 1 ≤ maxDepth by omega)
  obtain ⟨reached, hemits, hreached⟩ :=
    hcarries.emits_entries hexpansion hgives hchild after trees kind
  obtain ⟨slot', hfail⟩ := Value.readTree_value_error (show depth ≤ maxDepth by omega)
    (Expansion.spells_entryParts (show depth < maxDepth by omega) path hspells) hemits
    (Node.next_eq kind hreached) slot
  refine hfail _ ?_
  exact hfails child _ hchild (hcarries.comp (.mapValue source path depth after)) kind slot'

end Inner

/-- Reading fails at the first path on the last level that has children. -/
theorem FirstDeep.failsAt (h : FirstDeep source path levels parent)
    (hlevels : depth + levels = maxDepth) :
    FailsAt source path depth (tooDeepPlace source parent) := by
  induction h generalizing depth with
  | @here path hkeys =>
    obtain rfl : depth = maxDepth := hlevels
    by_cases hall : AllIndexes (source.keys path)
    · exact failsAt_list hkeys hall
    · exact failsAt_map hkeys hall
  | @child path key parent levels before after hkeys hbefore hchild ih =>
    have hfails := ih (show depth + 1 + levels = maxDepth by omega)
    by_cases hall : AllIndexes (source.keys path)
    · exact hfails.item hlevels hbefore hall (hkeys ▸ indexOrder_readingOrder hall)
    · rw [readingOrder_of_not_allIndexes hall] at hkeys
      exact hfails.entry hlevels hbefore hkeys hall

/-- Reading a resolved path fails at the first path on the last level that has children. -/
theorem FirstDeep.read_eq (h : FirstDeep source path maxDepth parent) {reader : Reader Node}
    (hreader : Node.resolve source path = .ok reader) :
    (Value.read reader).1 = .error (.depthExceeded (tooDeepPlace source parent) maxDepth) := by
  obtain ⟨cursor, hcursor⟩ := exists_resolveAt source path (Nat.zero_le maxDepth)
  rw [resolve_of_resolveAt hcursor, Except.ok.injEq] at hreader
  subst hreader
  rw [Value.read_eq_readTree]
  exact h.failsAt (Nat.zero_add maxDepth) cursor id hcursor (.refl source) cursor.kind _

end LayeredConfig.Resolution
