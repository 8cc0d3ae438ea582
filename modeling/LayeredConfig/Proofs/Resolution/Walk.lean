import LayeredConfig.Proofs.Resolution.Expansion
import LayeredConfig.Proofs.Resolution.Steps
import Mathlib.Data.List.Induction

/-!
# Walking down a path

The run of a resolved cursor follows the expansion of its path. The walk through a map or a list is
put together from those of the children: behind some of them, the cursor goes on like one that has
just met the next (`reaches_entries`, `reaches_item`).

* `walk`: a path resolves to a cursor that runs through the whole expansion of the path if the
  levels suffice, and otherwise fails where the first chain leaves them.
* `drain_resolve`: draining a resolved path lists its expansion and the end of the stream, or fails
  because of a chain of more than `maxDepth` children.
-/

namespace LayeredConfig.Resolution

open Cursor

variable {source : Source} {path : String} {depth levels : Nat}

/-! ### Resolving -/

theorem resolveAt_of_lt (h : maxDepth < depth) :
    resolveAt source path depth = .error (.depthExceeded path maxDepth) := by
  rw [resolveAt, if_pos h]

theorem resolveAt_of_keys_eq_nil (h : depth ≤ maxDepth) (hkeys : source.keys path = []) :
    resolveAt source path depth = .ok (.leaf path (source.value? path)) := by
  rw [resolveAt, if_neg (by omega), hkeys]

theorem resolveAt_of_indexOrder (h : depth ≤ maxDepth) (hkeys : source.keys path ≠ [])
    (hall : AllIndexes (source.keys path)) {ordered : List String}
    (horder : IndexOrder (source.keys path) ordered) :
    resolveAt source path depth = .ok (.listStart path depth ordered) := by
  obtain ⟨key, keys, hcons⟩ := List.exists_cons_of_ne_nil hkeys
  have hindexes := listIndexes?_eq_some_iff.2 ⟨hall, horder⟩
  rw [hcons] at hindexes
  rw [resolveAt, if_neg (by omega), hcons]
  simp only [hindexes]

theorem resolveAt_of_not_allIndexes (h : depth ≤ maxDepth) (hkeys : source.keys path ≠ [])
    (hall : ¬ AllIndexes (source.keys path)) :
    resolveAt source path depth = .ok (.mapStart path depth (source.keys path)) := by
  obtain ⟨key, keys, hcons⟩ := List.exists_cons_of_ne_nil hkeys
  have hindexes := listIndexes?_eq_none_iff.2 hall
  rw [hcons] at hindexes
  rw [resolveAt, if_neg (by omega), hcons]
  simp only [hindexes]

/-- A child of a map is resolved together with its name. -/
theorem next_afterValue_cons {key : String} {child : Cursor}
    (h : resolveAt source (Path.join path key) (depth + 1) = .ok child) (rest : List String) :
    (afterValue path depth (key :: rest)).next source =
      (.ok ⟨.key key, Path.join path key⟩, .mapValue path depth child rest) := by
  simp only [afterValue, Cursor.next, nextHere, h]

/-! ### The walk through a whole tree -/

/-- The path resolves to a cursor that runs through the events up to its end. -/
def Gives (source : Source) (path : String) (depth : Nat) (items : List Located) : Prop :=
  ∃ cursor, resolveAt source path depth = .ok cursor ∧
    Run (Cursor.next source) cursor items (.done path) ∧ ∀ item ∈ items, item.event ≠ .endOfStream

/-- A run of a child is a run of the map around it. -/
theorem Run.mapValue {child after : Cursor} {items : List Located} (rest : List String)
    (run : Run (Cursor.next source) child items after)
    (hitems : ∀ item ∈ items, item.event ≠ .endOfStream) :
    Run (Cursor.next source) (.mapValue path depth child rest) items
      (.mapValue path depth after rest) :=
  run.map (Cursor.mapValue path depth · rest) (fun _ _ _ => next_mapValue) hitems

/-- A run of a child is a run of the list around it. -/
theorem Run.listItem {child after : Cursor} {items : List Located} (rest : List String)
    (run : Run (Cursor.next source) child items after)
    (hitems : ∀ item ∈ items, item.event ≠ .endOfStream) :
    Run (Cursor.next source) (.listItem path depth child rest) items
      (.listItem path depth after rest) :=
  run.map (Cursor.listItem path depth · rest) (fun _ _ _ => next_listItem) hitems

/-- Behind a complete value the map goes on with the next entry or its end. -/
theorem reaches_afterValue (path : String) (depth : Nat) {child : Cursor} {place : String}
    {items : List Located} (rest : List String)
    (run : Run (Cursor.next source) child items (.done place))
    (hitems : ∀ item ∈ items, item.event ≠ .endOfStream) :
    Reaches (Cursor.next source) (.mapValue path depth child rest) items
      (afterValue path depth rest) :=
  ⟨_, Run.mapValue rest run hitems, (next_mapValue_done place).trans next_afterValue.symm⟩

/-- The own entry of a map comes before those of the children. -/
theorem reaches_ownEntry (source : Source) (path : String) (depth : Nat) (keys : List String) :
    Reaches (Cursor.next source) (.mapStart path depth keys)
      (⟨.objectStart, path⟩ :: ownEntry path) (afterValue path depth keys) := by
  -- the value of the own entry is a leaf that is never resolved
  have hvalue : Run (Cursor.next source)
      (.leaf (Path.join path pathKey) (some (.string path))) [⟨.value (.string path), _⟩]
      (.done (Path.join path pathKey)) := .single rfl
  obtain ⟨reached, run, hreached⟩ := reaches_afterValue path depth keys hvalue (by simp)
  exact ⟨reached, .cons rfl (.cons rfl run), hreached⟩

/-- A map goes through the entries of complete children one after the other. -/
theorem reaches_entries {parts : String → List Located} {before : List String} (after : List String)
    (h : ∀ key ∈ before, Gives source (Path.join path key) (depth + 1) (parts key)) :
    Reaches (Cursor.next source) (afterValue path depth (before ++ after))
      (entryEvents path parts before) (afterValue path depth after) := by
  induction before with
  | nil => exact .of_step_eq rfl
  | cons key before ih =>
    obtain ⟨child, hchild, run, hitems⟩ := h key (by simp)
    -- the name of the child comes first, and its events follow
    have hname := Reaches.of_run (.single (next_afterValue_cons hchild (before ++ after)))
    have hvalue := reaches_afterValue path depth (before ++ after) run hitems
    exact (hname.append hvalue).append
      (ih fun key hkey => h key (List.mem_cons_of_mem _ hkey))

/-- A list goes through complete items one after the other, up to the next one. -/
theorem reaches_item {parts : String → List Located} {before : List String} (after : List String)
    {key : String} {child : Cursor}
    (h : ∀ key ∈ before, Gives source (Path.join path key) (depth + 1) (parts key))
    (hchild : resolveAt source (Path.join path key) (depth + 1) = .ok child) :
    Reaches (Cursor.next source) (.listStart path depth (before ++ key :: after))
      (⟨.listStart, path⟩ :: before.flatMap parts) (.listItem path depth child after) := by
  -- the last of the items before is behind all others, which is where the cursor left it
  induction before using List.reverseRecOn generalizing key child after with
  | nil =>
    refine .of_run (.single ?_)
    simp only [List.nil_append, Cursor.next, nextHere, hchild]
  | append_singleton before last ih =>
    obtain ⟨child', hchild', run, hitems⟩ := h last (by simp)
    have hbefore := ih (key :: after) (fun key hkey => h key (by simp [hkey])) hchild'
    have hitem : Reaches (Cursor.next source) (.listItem path depth child' (key :: after))
        (parts last) (.listItem path depth child after) :=
      ⟨_, Run.listItem (key :: after) run hitems, next_listItem_done hchild _⟩
    simpa using hbefore.append hitem

/-- A list of complete items gives all of them and its end. -/
theorem run_list (hkeys : source.keys path ≠ []) {ordered : List String}
    (horder : IndexOrder (source.keys path) ordered) {parts : String → List Located}
    (h : ∀ key ∈ source.keys path, Gives source (Path.join path key) (depth + 1) (parts key)) :
    Run (Cursor.next source) (.listStart path depth ordered)
      (⟨.listStart, path⟩ :: ordered.flatMap parts ++ [⟨.listEnd, path⟩]) (.done path) := by
  have hordered : ∀ key ∈ ordered, Gives source (Path.join path key) (depth + 1) (parts key) :=
    fun key hkey => h key (horder.mem_iff.1 hkey)
  obtain rfl | ⟨before, last, rfl⟩ := List.eq_nil_or_concat ordered
  · exact absurd (List.nil_perm.1 horder.perm) hkeys
  -- the end comes behind the last item, which every list has
  · rw [List.concat_eq_append] at hordered ⊢
    obtain ⟨child, hchild, run, hitems⟩ := hordered last (by simp)
    have hbefore := reaches_item [] (fun key (hkey : key ∈ before) =>
      hordered key (by simp [hkey])) hchild
    have hlast := hbefore.append (.of_run (Run.listItem [] run hitems))
    have hend := hlast.append_run (.single (next_listItem_done_nil _)) (by simp)
    simpa using hend

/-- A map of complete entries gives all of them and its end. -/
theorem run_map {keys : List String} {parts : String → List Located}
    (h : ∀ key ∈ keys, Gives source (Path.join path key) (depth + 1) (parts key)) :
    Run (Cursor.next source) (.mapStart path depth keys)
      (⟨.objectStart, path⟩ :: ownEntry path ++ entryEvents path parts keys ++ [⟨.objectEnd, path⟩])
      (.done path) := by
  have hentries := reaches_entries [] h
  rw [List.append_nil] at hentries
  have hreaches := (reaches_ownEntry source path depth keys).append hentries
  exact hreaches.append_run (.single rfl) (by simp)

/-! ### The walk until it fails -/

/-- The whole tree below the path lies within the levels, and the resolved cursor gives all of
it. -/
def Completes (source : Source) (path : String) (depth levels : Nat) : Prop :=
  ∃ items, Expansion source path items ∧ (∀ n last, Chain source path n last → n ≤ levels) ∧
    Gives source path depth items

/-- The path resolves, and the walk from there fails at the first chain that leaves the levels. The
events up to there begin any expansion that the path has. -/
def Breaks (source : Source) (path : String) (depth levels : Nat) : Prop :=
  ∃ cursor items deep stopped after, resolveAt source path depth = .ok cursor ∧
    Chain source path (levels + 1) deep ∧ Run (Cursor.next source) cursor items stopped ∧
    stopped.next source = (.error (.depthExceeded deep maxDepth), after) ∧
    (∀ item ∈ items, item.event ≠ .endOfStream) ∧ Value.Unfinished depth (items.map (·.event)) ∧
    ∀ full, Expansion source path full → ∃ rest, full = items ++ rest

/-- A path without children is complete. -/
theorem completes_leaf (hdepth : depth ≤ maxDepth) (hkeys : source.keys path = []) :
    Completes source path depth levels := by
  have hchain := Chain.forall_le_of_keys_eq_nil hkeys levels
  have hresolve := resolveAt_of_keys_eq_nil hdepth hkeys
  cases hvalue : source.value? path with
  | none =>
    rw [hvalue] at hresolve
    exact ⟨_, .null hkeys hvalue, hchain, _, hresolve, .single rfl, by simp⟩
  | some scalar =>
    rw [hvalue] at hresolve
    exact ⟨_, .value hkeys hvalue, hchain, _, hresolve, .single rfl, by simp⟩

/-- A path is complete if all its children are. -/
theorem completes_of_children (hdepth : depth ≤ maxDepth) (hkeys : source.keys path ≠ [])
    (h : ∀ key ∈ source.keys path, Completes source (Path.join path key) (depth + 1) levels) :
    Completes source path depth (levels + 1) := by
  choose! parts hexpansion hchain hgives using h
  by_cases hall : AllIndexes (source.keys path)
  · obtain ⟨ordered, horder⟩ := hall.exists_indexOrder
    have hlist := Expansion.list hkeys hall horder hexpansion
    exact ⟨_, hlist, Chain.forall_le_succ_iff.2 hchain, _,
      resolveAt_of_indexOrder hdepth hkeys hall horder, run_list hkeys horder hgives,
      hlist.event_ne⟩
  · have hmap := Expansion.map hkeys hall hexpansion
    exact ⟨_, hmap, Chain.forall_le_succ_iff.2 hchain, _,
      resolveAt_of_not_allIndexes hdepth hkeys hall, run_map hgives, hmap.event_ne⟩

/-- A complete child spells a tree. -/
theorem Completes.exists_spells (h : Completes source path depth levels)
    (hlevels : depth + levels = maxDepth) : ∃ items value, Expansion source path items ∧
      Gives source path depth items ∧ Value.Spells depth (items.map (·.event)) value := by
  obtain ⟨items, hexpansion, hchain, hgives⟩ := h
  obtain ⟨value, -, hspells⟩ := hexpansion.exists_spells hlevels hchain
  exact ⟨items, value, hexpansion, hgives, hspells⟩

/-- On the last level any child leaves the levels. -/
theorem breaks_of_depth_eq (hdepth : depth = maxDepth) (hkeys : source.keys path ≠ []) :
    Breaks source path depth 0 := by
  by_cases hall : AllIndexes (source.keys path)
  · obtain ⟨ordered, horder⟩ := hall.exists_indexOrder
    cases ordered with
    | nil => exact absurd (List.nil_perm.1 horder.perm) hkeys
    | cons key rest =>
      -- a list resolves its first item together with its start
      have hfail : resolveAt source (Path.join path key) (depth + 1) =
          .error (.depthExceeded (Path.join path key) maxDepth) := resolveAt_of_lt (by omega)
      refine ⟨_, [], Path.join path key, _, .listStart path depth rest,
        resolveAt_of_indexOrder (Nat.le_of_eq hdepth) hkeys hall horder,
        .child (horder.mem_iff.1 (by simp)) (.start _), .nil _, ?_, by simp, .start,
        fun full _ => ⟨full, rfl⟩⟩
      simp only [Cursor.next, nextHere, hfail]
  · obtain ⟨key, keys, hcons⟩ := List.exists_cons_of_ne_nil hkeys
    have hfail : resolveAt source (Path.join path key) (depth + 1) =
        .error (.depthExceeded (Path.join path key) maxDepth) := resolveAt_of_lt (by omega)
    -- a map gives its start and its own entry before it resolves a child
    obtain ⟨reached, run, hreached⟩ :=
      reaches_ownEntry source path depth (key :: keys)
    refine ⟨_, ⟨.objectStart, path⟩ :: ownEntry path, Path.join path key, reached,
      .mapKey path depth (.child key) keys,
      resolveAt_of_not_allIndexes (Nat.le_of_eq hdepth) hkeys hall,
      .child (hcons ▸ List.mem_cons_self) (.start _), hcons ▸ run, ?_, by simp [ownEntry],
      .tooDeep hdepth _ _ [], fun full hfull => ?_⟩
    · rw [hreached]
      simp only [afterValue, Cursor.next, nextHere, hfail]
    · obtain ⟨parts, -, rfl⟩ := hfull.of_map hkeys hall
      exact ⟨_, List.append_assoc _ _ _⟩

/-- Among members of which one fails, there is a first one. -/
theorem exists_first_not {α : Type} {p : α → Prop} {l : List α} (h : ¬ ∀ a ∈ l, p a) :
    ∃ before a after, l = before ++ a :: after ∧ (∀ b ∈ before, p b) ∧ ¬ p a := by
  classical
  obtain ⟨a, ha⟩ : ∃ a, l.find? (¬ p ·) = some a := by
    rw [← Option.isSome_iff_exists, List.find?_isSome]
    simpa using h
  obtain ⟨hnot, before, after, hl, hbefore⟩ := List.find?_eq_some_iff_append.1 ha
  exact ⟨before, a, after, hl, by simpa using hbefore, by simpa using hnot⟩

/-- The first member that fails is the only one. -/
theorem first_not_unique {α : Type} {p : α → Prop} {before after before' after' : List α} {a a' : α}
    (h : before ++ a :: after = before' ++ a' :: after') (hbefore : ∀ b ∈ before, p b)
    (hbefore' : ∀ b ∈ before', p b) (ha : ¬ p a) (ha' : ¬ p a') : a = a' := by
  obtain ⟨more, rfl, hrest⟩ | ⟨more, rfl, hrest⟩ := List.append_eq_append_iff.1 h
  -- the longer beginning would hold the first member that fails
  · cases more with
    | nil => exact (List.cons.inj hrest).1
    | cons b more => exact absurd (hbefore' a (by simp [(List.cons.inj hrest).1])) ha
  · cases more with
    | nil => exact (List.cons.inj hrest).1.symm
    | cons b more => exact absurd (hbefore a' (by simp [(List.cons.inj hrest).1])) ha'

/-- A list breaks where its first incomplete item does. -/
theorem breaks_list (hlevels : depth + (levels + 1) = maxDepth) (hkeys : source.keys path ≠ [])
    (hall : AllIndexes (source.keys path))
    (h : ∀ key ∈ source.keys path, Completes source (Path.join path key) (depth + 1) levels ∨
      Breaks source (Path.join path key) (depth + 1) levels)
    (hnot : ¬ ∀ key ∈ source.keys path, Completes source (Path.join path key) (depth + 1) levels) :
    Breaks source path depth (levels + 1) := by
  obtain ⟨ordered, horder⟩ := hall.exists_indexOrder
  obtain ⟨before, key, after, rfl, hbefore, hkey⟩ := exists_first_not
    fun hordered : ∀ key ∈ ordered, Completes source (Path.join path key) (depth + 1) levels =>
      hnot fun key hkey => hordered key (horder.mem_iff.2 hkey)
  have hmem : key ∈ source.keys path := horder.mem_iff.1 (by simp)
  obtain ⟨child, items, deep, stopped, failed, hchild, hchain, run, herror, hitems, hunfinished,
    hfirst⟩ :=
    (h key hmem).resolve_left hkey
  choose! parts trees hexpansion hgives hspells using fun key hkey =>
    (hbefore key hkey).exists_spells (by omega)
  -- the cursor runs through the complete items before, and into the broken one
  obtain ⟨reached, hrun, hreached⟩ := (reaches_item after hgives hchild).append
    (.of_run (Run.listItem after run hitems))
  refine ⟨_, _, deep, reached, .listItem path depth failed after,
    resolveAt_of_indexOrder (by omega) hkeys hall horder, .child hmem hchain, hrun, ?_, ?_, ?_,
    fun full hfull => ?_⟩
  · rw [hreached, next_listItem_error herror]
  · intro item hitem
    rcases List.mem_append.1 hitem with hitem | hitem
    · exact event_ne_of_list (.inr rfl) (fun key hkey => (hexpansion key hkey).event_ne) path item
        hitem
    · exact hitems item hitem
  · have hbroken := Value.Unfinished.item (show depth ≤ maxDepth by omega)
      (before.map fun key => ((parts key).map (·.event), trees key))
      (List.forall_mem_map.2 hspells) hunfinished
    simpa [List.map_flatMap, List.flatMap_map] using hbroken
  · obtain ⟨parts', hparts', rfl⟩ := hfull.of_list hkeys hall horder
    -- every expansion has the same parts for the complete items before the broken one
    have hbefore' : before.flatMap parts = before.flatMap parts' :=
      List.flatMap_congr fun key hkey =>
        (hexpansion key hkey).unique (hparts' key (horder.mem_iff.1 (by simp [hkey])))
    obtain ⟨rest, hrest⟩ := hfirst _ (hparts' key hmem)
    exact ⟨rest ++ (after.flatMap parts' ++ [⟨.listEnd, path⟩]), by simp [hbefore', hrest]⟩

/-- A map breaks in the value of its first incomplete entry. -/
theorem breaks_map (hlevels : depth + (levels + 1) = maxDepth) (hkeys : source.keys path ≠ [])
    (hall : ¬ AllIndexes (source.keys path))
    (h : ∀ key ∈ source.keys path, Completes source (Path.join path key) (depth + 1) levels ∨
      Breaks source (Path.join path key) (depth + 1) levels)
    (hnot : ¬ ∀ key ∈ source.keys path, Completes source (Path.join path key) (depth + 1) levels) :
    Breaks source path depth (levels + 1) := by
  obtain ⟨before, key, after, hcons, hbefore, hkey⟩ := exists_first_not hnot
  have hmem : key ∈ source.keys path := by simp [hcons]
  obtain ⟨child, items, deep, stopped, failed, hchild, hchain, run, herror, hitems, hunfinished,
    hfirst⟩ :=
    (h key hmem).resolve_left hkey
  choose! parts trees hexpansion hgives hspells using fun key hkey =>
    (hbefore key hkey).exists_spells (by omega)
  -- the cursor runs through the complete entries before, and into the broken one
  obtain ⟨reached, hrun, hreached⟩ :=
    ((reaches_ownEntry source path depth (before ++ key :: after)).append
      (reaches_entries (key :: after) hgives)).append
        (.of_run (.cons (next_afterValue_cons hchild after) (Run.mapValue after run hitems)))
  refine ⟨_, _, deep, reached, .mapValue path depth failed after,
    resolveAt_of_not_allIndexes (by omega) hkeys hall, .child hmem hchain, hcons ▸ hrun, ?_, ?_, ?_,
    fun full hfull => ?_⟩
  · rw [hreached, next_mapValue_error herror]
  · intro item hitem
    rcases List.mem_append.1 hitem with hitem | hitem
    · exact event_ne_of_map (.inr rfl) (fun key hkey => (hexpansion key hkey).event_ne) path item
        hitem
    · rcases List.mem_cons.1 hitem with rfl | hitem
      · simp
      · exact hitems item hitem
  · have hbroken := Value.Unfinished.value (show depth ≤ maxDepth by omega) _
      (Expansion.spells_entryParts (show depth < maxDepth by omega) path hspells) key hunfinished
    rw [← Expansion.map_event_entries] at hbroken
    simpa using hbroken
  · obtain ⟨parts', hparts', rfl⟩ := hfull.of_map hkeys hall
    have hbefore' : entryEvents path parts before = entryEvents path parts' before :=
      List.flatMap_congr fun key hkey => by
        rw [(hexpansion key hkey).unique (hparts' key (by simp [hcons, hkey]))]
    obtain ⟨rest, hrest⟩ := hfirst _ (hparts' key hmem)
    refine ⟨rest ++ (entryEvents path parts' after ++ [⟨.objectEnd, path⟩]), ?_⟩
    rw [hbefore', hcons]
    simp [entryEvents, hrest]

/-- A path resolves as long as it lies within the levels. The walk from there goes through the whole
expansion, or fails at the first chain that leaves the levels. -/
theorem walk (source : Source) (path : String) (hlevels : depth + levels = maxDepth) :
    Completes source path depth levels ∨ Breaks source path depth levels := by
  induction levels generalizing path depth with
  | zero =>
    by_cases hkeys : source.keys path = []
    · exact .inl (completes_leaf (by omega) hkeys)
    · exact .inr (breaks_of_depth_eq hlevels hkeys)
  | succ levels ih =>
    -- below the path there is one level less for each child
    have hchildren := fun key (_ : key ∈ source.keys path) =>
      ih (Path.join path key) (show depth + 1 + levels = maxDepth by omega)
    by_cases hkeys : source.keys path = []
    · exact .inl (completes_leaf (by omega) hkeys)
    by_cases hcomplete : ∀ key ∈ source.keys path,
      Completes source (Path.join path key) (depth + 1) levels
    · exact .inl (completes_of_children (by omega) hkeys hcomplete)
    · by_cases hall : AllIndexes (source.keys path)
      · exact .inr (breaks_list hlevels hkeys hall hchildren hcomplete)
      · exact .inr (breaks_map hlevels hkeys hall hchildren hcomplete)

/-- A path whose chains of children all lie within the levels is complete. -/
theorem completes_of_forall_le (hlevels : depth + levels = maxDepth)
    (hchain : ∀ n last, Chain source path n last → n ≤ levels) :
    Completes source path depth levels := by
  rcases walk source path hlevels with hcomplete | hbreaks
  · exact hcomplete
  · obtain ⟨cursor, items, deep, stopped, after, -, hdeep, -⟩ := hbreaks
    -- the chain at which the walk breaks would be too long
    exact absurd (hchain _ _ hdeep) (Nat.not_succ_le_self levels)

/-! ### Draining a resolved path -/

/-- What draining lists for events that are all taken with success. -/
def listed (items : List Located) : List (Except Error Drained) :=
  items.map fun item => .ok (.ofLocated item)

/-- A path resolves on the first level to what the walk starts from. -/
theorem resolve_of_resolveAt {cursor : Cursor} (h : resolveAt source path 0 = .ok cursor) :
    Node.resolve source path = .ok ⟨⟨source, cursor.kind, cursor⟩, .initial path⟩ := by
  rw [Node.resolve, Resolution.resolve, h]
  rfl

/-- Draining a path whose tree lies within the levels lists its expansion and then the end of the
stream, which stays. -/
theorem Completes.drain (h : Completes source path 0 maxDepth) :
    ∃ reader items, Node.resolve source path = .ok reader ∧ Expansion source path items ∧
      (TokenStream.drain reader).1 = listed (items ++ [⟨.endOfStream, path⟩]) ∧
      TokenStream.next (TokenStream.drain reader).2 =
        (.ok .endOfStream, (TokenStream.drain reader).2) := by
  obtain ⟨items, hexpansion, -, cursor, hresolve, run, hitems⟩ := h
  have hend : EventSource.next (⟨source, cursor.kind, .done path⟩ : Node) =
      (.ok ⟨.endOfStream, path⟩, ⟨source, cursor.kind, .done path⟩) := Node.next_eq _ rfl
  have hdrain := TokenStream.drain_of_run_end (Node.run_of_cursor cursor.kind run) hitems hend
    (.initial path)
  refine ⟨_, items, resolve_of_resolveAt hresolve, hexpansion, ?_⟩
  rw [hdrain]
  exact ⟨by simp [listed], TokenStream.next_of_events hend _⟩

/-- Draining a path whose tree leaves the levels lists the beginning of its expansion and then the
error. -/
theorem Breaks.drain (h : Breaks source path 0 maxDepth) :
    ∃ reader items deep, Node.resolve source path = .ok reader ∧
      Chain source path (maxDepth + 1) deep ∧
      (∀ full, Expansion source path full → ∃ rest, full = items ++ rest) ∧
      (TokenStream.drain reader).1 = listed items ++ [.error (.depthExceeded deep maxDepth)] := by
  obtain ⟨cursor, items, deep, stopped, after, hresolve, hchain, run, herror, hitems, -,
    hfirst⟩ := h
  refine ⟨_, items, deep, resolve_of_resolveAt hresolve, hchain, hfirst, ?_⟩
  exact TokenStream.drain_of_run_error (Node.run_of_cursor cursor.kind run) hitems
    (Node.next_eq _ herror) (.initial path)

/-- Draining a resolved path lists its expansion and then the end of the stream, which stays. It
fails exactly if more than `maxDepth` children follow each other from the path on, at one of these
chains, and then what it has listed is the beginning of the expansion, if there is one. -/
theorem drain_resolve (source : Source) (path : String) :
    ∃ reader, Node.resolve source path = .ok reader ∧
      (((∀ n last, Chain source path n last → n ≤ maxDepth) ∧
        ∃ items, Expansion source path items ∧
          (∀ other, Expansion source path other → other = items) ∧
          (TokenStream.drain reader).1 = listed (items ++ [⟨.endOfStream, path⟩]) ∧
          TokenStream.next (TokenStream.drain reader).2 =
            (.ok .endOfStream, (TokenStream.drain reader).2)) ∨
      ((∃ n last, Chain source path n last ∧ maxDepth < n) ∧
        ∃ items deep, Chain source path (maxDepth + 1) deep ∧
          (∀ full, Expansion source path full → ∃ rest, full = items ++ rest) ∧
          (TokenStream.drain reader).1 =
            listed items ++ [.error (.depthExceeded deep maxDepth)])) := by
  rcases walk source path (Nat.zero_add maxDepth) with hcomplete | hbreaks
  · obtain ⟨reader, items, hreader, hexpansion, hdrain⟩ := hcomplete.drain
    -- a tree within the levels has no other expansion
    obtain ⟨-, -, hchain, -⟩ := hcomplete
    refine ⟨reader, hreader, .inl ⟨hchain, items, hexpansion, ?_, hdrain⟩⟩
    intro other hother
    exact hother.unique hexpansion
  · obtain ⟨reader, items, deep, hreader, hchain, hfirst, hdrain⟩ := hbreaks.drain
    refine ⟨reader, hreader, .inr ⟨⟨_, deep, hchain, Nat.lt_succ_self _⟩, ?_⟩⟩
    exact ⟨items, deep, hchain, hfirst, hdrain⟩

/-! ### Reading a resolved path -/

/-- Reading a resolved path succeeds exactly if no chain of children is longer than `maxDepth`, and
then it gives the tree that the path holds. -/
theorem read_resolve_eq_ok_iff {value : Value} :
    (∃ reader, Node.resolve source path = .ok reader ∧ (Value.read reader).1 = .ok value) ↔
      Holds source path value ∧ ∀ n last, Chain source path n last → n ≤ maxDepth := by
  obtain ⟨items, hexpansion, hchain, cursor, hresolve, run, -⟩ |
    ⟨cursor, items, deep, stopped, after, hresolve, hchain, run, herror, -, hunfinished, -⟩ :=
    walk source path (Nat.zero_add maxDepth)
  -- a walk that completes spells the only tree that the path holds
  · obtain ⟨tree, hholds, hspells⟩ := hexpansion.exists_spells (Nat.zero_add _) hchain
    obtain ⟨slot', hread⟩ := hspells.readTree_eq ⟨items, rfl, Node.run_of_cursor cursor.kind run⟩
      (.initial path)
    constructor
    · rintro ⟨reader, hreader, hvalue⟩
      rw [resolve_of_resolveAt hresolve, Except.ok.injEq] at hreader
      subst hreader
      rw [Value.read_eq_readTree, hread, Except.ok.injEq] at hvalue
      exact ⟨hvalue ▸ hholds, hchain⟩
    · rintro ⟨hholds', -⟩
      refine ⟨_, resolve_of_resolveAt hresolve, ?_⟩
      rw [Value.read_eq_readTree, hread, hholds.unique hholds']
  -- a walk that breaks cannot be read, and its chain is too long
  · obtain ⟨error, -, hread⟩ := hunfinished.readTree_eq_error
      ⟨items, rfl, Node.run_of_cursor cursor.kind run⟩ (Node.next_eq _ herror) (.initial path)
    constructor
    · rintro ⟨reader, hreader, hvalue⟩
      rw [resolve_of_resolveAt hresolve, Except.ok.injEq] at hreader
      subst hreader
      rw [Value.read_eq_readTree, hread] at hvalue
      exact absurd hvalue (by simp)
    · rintro ⟨-, hshort⟩
      exact absurd (hshort _ _ hchain) (by simp)

end LayeredConfig.Resolution
