import LayeredConfig.Proofs.Resolution.Walk
import LayeredConfig.Proofs.Source.Index
import Mathlib.Data.List.Nodup

/-!
# The leaves of a stack of stored values

Which scalars the walk over a stack of maps and documents meets. A stored path is visible
(`Visible`) if it takes part in the tree and nothing is stored below it in any source. The walk from
the root gives one value for every visible path, the one of the first source that stores it, and
nothing else (`leaves_drain_resolve`).

Maps tell their paths in an entry of their own, which `dropOwnEntries` leaves out; `leaves` are the
values and nulls that remain.
-/

namespace LayeredConfig.Resolution

/-- The event is a leaf of a tree. -/
def isLeaf (item : Located) : Bool := item.event.token = .value || item.event.token = .null

/-- The events without the entries in which maps tell their paths: the name and what follows it. -/
def dropOwnEntries : List Located → List Located
  | [] => []
  | [item] => if item.event = .key pathKey then [] else [item]
  | item :: next :: rest =>
    if item.event = .key pathKey then dropOwnEntries rest
    else item :: dropOwnEntries (next :: rest)

/-- The leaves of a tree, without the paths that its maps tell. -/
def leaves (items : List Located) : List Located := (dropOwnEntries items).filter isLeaf

theorem dropOwnEntries_cons {item : Located} (h : item.event ≠ .key pathKey) (rest : List Located) :
    dropOwnEntries (item :: rest) = item :: dropOwnEntries rest := by
  cases rest with
  | nil => simp [dropOwnEntries, h]
  | cons next rest => rw [dropOwnEntries, if_neg h]

theorem dropOwnEntries_ownEntry (path : String) (rest : List Located) :
    dropOwnEntries (ownEntry path ++ rest) = dropOwnEntries rest := by
  show dropOwnEntries (_ :: _ :: rest) = _
  rw [dropOwnEntries, if_pos rfl]

/-- The entries of the events and of what follows them are left out on their own. -/
def Separate (items : List Located) : Prop :=
  ∀ rest, dropOwnEntries (items ++ rest) = dropOwnEntries items ++ dropOwnEntries rest

namespace Separate

variable {items more : List Located} {item : Located}

theorem nil : Separate [] := fun _ => rfl

theorem cons (h : item.event ≠ .key pathKey) (hitems : Separate items) :
    Separate (item :: items) := by
  intro rest
  rw [List.cons_append, dropOwnEntries_cons h, dropOwnEntries_cons h, hitems rest, List.cons_append]

theorem append (hitems : Separate items) (hmore : Separate more) : Separate (items ++ more) := by
  intro rest
  rw [List.append_assoc, hitems, hmore, hitems, List.append_assoc]

theorem ownEntry (path : String) : Separate (ownEntry path) := by
  intro rest
  rw [dropOwnEntries_ownEntry, ← List.append_nil (Resolution.ownEntry path),
    dropOwnEntries_ownEntry]
  rfl

theorem flatMap {keys : List String} {parts : String → List Located}
    (h : ∀ key ∈ keys, Separate (parts key)) : Separate (keys.flatMap parts) := by
  induction keys with
  | nil => exact nil
  | cons key keys ih =>
    rw [List.flatMap_cons]
    exact (h key (by simp)).append (ih fun key hkey => h key (List.mem_cons_of_mem _ hkey))

end Separate

theorem leaves_append {items : List Located} (h : Separate items) (more : List Located) :
    leaves (items ++ more) = leaves items ++ leaves more := by
  rw [leaves, h more, List.filter_append, leaves, leaves]

theorem leaves_cons {item : Located} (h : item.event ≠ .key pathKey) (hleaf : isLeaf item = false)
    (rest : List Located) : leaves (item :: rest) = leaves rest := by
  rw [leaves, dropOwnEntries_cons h, List.filter_cons_of_neg (by simp [hleaf]), leaves]

theorem leaves_flatMap {keys : List String} {parts : String → List Located}
    (h : ∀ key ∈ keys, Separate (parts key)) :
    leaves (keys.flatMap parts) = keys.flatMap fun key => leaves (parts key) := by
  induction keys with
  | nil => rfl
  | cons key keys ih =>
    rw [List.flatMap_cons, leaves_append (h key (by simp)),
      ih fun key hkey => h key (List.mem_cons_of_mem _ hkey), List.flatMap_cons]

variable {source : Source} {path : String} {items : List Located}

/-- No child at or below the path has the name of the entries that tell paths. -/
def NoOwnNames (source : Source) (path : String) : Prop :=
  ∀ n last, Chain source path n last → pathKey ∉ source.keys last

theorem NoOwnNames.event_ne (h : NoOwnNames source path) {key : String}
    (hkey : key ∈ source.keys path) :
    (⟨.key key, Path.join path key⟩ : Located).event ≠ .key pathKey := by
  intro heq
  exact h 0 path (.start path) (Event.key.inj heq ▸ hkey)

theorem NoOwnNames.child (h : NoOwnNames source path) {key : String}
    (hkey : key ∈ source.keys path) : NoOwnNames source (Path.join path key) :=
  fun n last hchain => h (n + 1) last (.child hkey hchain)

namespace Expansion

/-- Expansions are separate from what follows them. -/
theorem separate (h : Expansion source path items) (hnames : NoOwnNames source path) :
    Separate items := by
  induction h with
  | value | null => exact .cons (by simp) .nil
  | @list path ordered parts hkeys hall horder hparts ih =>
    have hitems : Separate (ordered.flatMap parts) := .flatMap fun key hkey =>
      ih key (horder.mem_iff.1 hkey) (hnames.child (horder.mem_iff.1 hkey))
    exact .cons (by simp) (hitems.append (.cons (by simp) .nil))
  | @map path parts hkeys hall hparts ih =>
    have hentries : Separate (entryEvents path parts (source.keys path)) := .flatMap fun key hkey =>
      .cons (hnames.event_ne hkey) (ih key hkey (hnames.child hkey))
    exact ((Separate.cons (by simp) (.ownEntry path)).append hentries).append (.cons (by simp) .nil)

/-- The leaves of a list are those of its items. -/
theorem leaves_list {ordered : List String} {parts : String → List Located}
    (h : ∀ key ∈ ordered, Separate (parts key)) :
    leaves (⟨.listStart, path⟩ :: ordered.flatMap parts ++ [⟨.listEnd, path⟩]) =
      ordered.flatMap fun key => leaves (parts key) := by
  rw [List.cons_append, leaves_cons (by simp) rfl, leaves_append (.flatMap h), leaves_flatMap h,
    leaves_cons (by simp) rfl]
  exact List.append_nil _

/-- The leaves of a map are those of its children. -/
theorem leaves_map {parts : String → List Located} (hnames : NoOwnNames source path)
    (h : ∀ key ∈ source.keys path, Separate (parts key)) :
    leaves (⟨.objectStart, path⟩ :: ownEntry path ++ entryEvents path parts (source.keys path) ++
      [⟨.objectEnd, path⟩]) = (source.keys path).flatMap fun key => leaves (parts key) := by
  have hentries : ∀ key ∈ source.keys path,
      Separate (⟨.key key, Path.join path key⟩ :: parts key) :=
    fun key hkey => .cons (hnames.event_ne hkey) (h key hkey)
  have hown : leaves (ownEntry path) = [] := by
    rw [leaves, ← List.append_nil (ownEntry path), dropOwnEntries_ownEntry]
    rfl
  rw [List.cons_append, List.cons_append, leaves_cons (by simp) rfl, List.append_assoc,
    leaves_append (.ownEntry path), hown, List.nil_append, entryEvents,
    leaves_append (.flatMap hentries), leaves_flatMap hentries, leaves_cons (by simp) rfl,
    List.flatMap_congr fun key hkey => leaves_cons (hnames.event_ne hkey) rfl (parts key)]
  exact List.append_nil _

end Expansion

end LayeredConfig.Resolution

namespace LayeredConfig

open Resolution

/-- A path of the tree at which a scalar is stored and below which none is, in any of the
sources. -/
structure Visible (sources : List Source) (path : String) : Prop where
  /-- The path takes part in the tree. -/
  isIndexable : Path.isIndexable path
  /-- A scalar is stored at it. -/
  storedIn : StoredIn sources path
  /-- No scalar is stored below it. -/
  eq_of_isWithin : ∀ other, Path.isIndexable other → StoredIn sources other →
    Path.isWithin other path → other = path

/-- The leaves among the events are the values of the visible paths that begin with the segments,
each of them once. -/
structure LeavesOf (sources : List Source) (segments : List String) (items : List Located) :
    Prop where
  /-- Every leaf is the value of a visible path. -/
  visible : ∀ item ∈ leaves items, Visible sources item.path ∧
    (∃ rest, Path.split item.path = segments ++ rest) ∧
      ∃ scalar, item.event = .value scalar ∧ (Source.merge sources).value? item.path = some scalar
  /-- Every visible path has a leaf. -/
  complete : ∀ path, Visible sources path → (∃ rest, Path.split path = segments ++ rest) →
    path ∈ (leaves items).map (·.path)
  /-- No two leaves have the same path. -/
  nodup : ((leaves items).map (·.path)).Nodup

section Stack

variable {sources : List Source} (h : ∀ source ∈ sources, IsStored source)
  {segments : List String}

include h

/-- Where no stored path goes on, a path ends that is visible. -/
theorem visible_of_keys_eq_nil (hreached : Reached sources segments)
    (hkeys : (Source.merge sources).keys (Path.ofSegments segments) = []) :
    Visible sources (Path.ofSegments segments) ∧
      Path.split (Path.ofSegments segments) = segments := by
  obtain ⟨path, rest, hindexable, hstored, hsplit⟩ := id hreached
  have heq := split_eq_of_keys_eq_nil h hreached.isName hkeys hindexable hstored hsplit
  rw [← heq, Path.ofSegments_split hindexable]
  refine ⟨⟨hindexable, hstored, fun other hother hstored' hwithin => ?_⟩, rfl⟩
  -- whatever lies below the path has its segments in front, and ends with them
  obtain ⟨before, more, hbefore, hsplit'⟩ := (Path.isWithin_iff hother).1 hwithin
  have hnames : ∀ name ∈ before, Path.IsName name := fun name hname =>
    Path.isName_of_isIndexable hother name (by simp [hsplit', hname])
  obtain rfl : segments = before := by
    rw [← Path.ofSegments_split hindexable, heq] at hbefore
    exact Path.ofSegments_inj hreached.isName hnames hbefore
  have heq' := split_eq_of_keys_eq_nil h hreached.isName hkeys hother hstored' hsplit'
  rw [← Path.ofSegments_split hother, heq', ← heq, Path.ofSegments_split hindexable]

/-- A path with another one below it is not visible, so visible paths go on with one of the keys. -/
theorem exists_key_of_visible (hreached : Reached sources segments)
    (hkeys : (Source.merge sources).keys (Path.ofSegments segments) ≠ []) {path : String}
    (hvisible : Visible sources path) {rest : List String}
    (hsplit : Path.split path = segments ++ rest) :
    ∃ key ∈ (Source.merge sources).keys (Path.ofSegments segments), ∃ rest',
      Path.split path = segments ++ [key] ++ rest' := by
  cases rest with
  | cons key rest =>
    refine ⟨key, ?_, rest, by simp [hsplit]⟩
    exact (mem_keys_merge_iff h hreached.isName).2
      ⟨path, rest, hvisible.isIndexable, hvisible.storedIn, by simp [hsplit]⟩
  | nil =>
    rw [List.append_nil] at hsplit
    obtain ⟨key, hkey⟩ := List.exists_mem_of_ne_nil _ hkeys
    obtain ⟨other, more, hother, hstored, hsplit'⟩ :=
      (mem_keys_merge_iff h hreached.isName).1 hkey
    have hwithin : Path.isWithin other path := (Path.isWithin_iff hother).2
      ⟨segments, key :: more, by rw [← hsplit, Path.ofSegments_split hvisible.isIndexable],
        by simp [hsplit']⟩
    rw [hvisible.eq_of_isWithin other hother hstored hwithin, hsplit] at hsplit'
    exact absurd (congrArg List.length hsplit') (by simp)

/-- The leaves of a tree are put together from those of the children. -/
theorem leavesOf_children (hreached : Reached sources segments)
    (hkeys : (Source.merge sources).keys (Path.ofSegments segments) ≠ [])
    {ordered : List String} {items : List Located} {parts : String → List Located}
    (horder : ordered.Perm ((Source.merge sources).keys (Path.ofSegments segments)))
    (hparts : ∀ key ∈ ordered, LeavesOf sources (segments ++ [key]) (parts key))
    (hleaves : leaves items = ordered.flatMap fun key => leaves (parts key)) :
    LeavesOf sources segments items where
  visible := by
    intro item hitem
    rw [hleaves, List.mem_flatMap] at hitem
    obtain ⟨key, hkey, hitem⟩ := hitem
    obtain ⟨hvisible, ⟨rest, hsplit⟩, hvalue⟩ := (hparts key hkey).visible item hitem
    exact ⟨hvisible, ⟨key :: rest, by simp [hsplit]⟩, hvalue⟩
  complete := by
    rintro path hvisible ⟨rest, hsplit⟩
    -- a visible path below goes on with one of the children
    obtain ⟨key, hkey, rest', hsplit'⟩ := exists_key_of_visible h hreached hkeys hvisible hsplit
    have hordered := horder.mem_iff.2 hkey
    have hmem := (hparts key hordered).complete path hvisible ⟨rest', hsplit'⟩
    rw [hleaves, List.map_flatMap, List.mem_flatMap]
    exact ⟨key, hordered, hmem⟩
  nodup := by
    rw [hleaves, List.map_flatMap, List.nodup_flatMap]
    refine ⟨fun key hkey => (hparts key hkey).nodup, ?_⟩
    have hnodup : ordered.Pairwise (· ≠ ·) := horder.nodup_iff.2 (nodup_keys_merge _ _)
    refine hnodup.imp_of_mem fun {key key'} hkey hkey' hne => ?_
    -- a path goes on with one key only
    intro path hpath hpath'
    obtain ⟨item, hitem, rfl⟩ := List.mem_map.1 hpath
    obtain ⟨item', hitem', heq⟩ := List.mem_map.1 hpath'
    obtain ⟨-, ⟨rest, hsplit⟩, -⟩ := (hparts key hkey).visible item hitem
    obtain ⟨-, ⟨rest', hsplit'⟩, -⟩ := (hparts key' hkey').visible item' hitem'
    rw [heq, hsplit] at hsplit'
    have hcons : key = key' ∧ rest = rest' := by simpa using hsplit'
    exact hne hcons.1

/-- The leaves of an expansion are the values of the visible paths at or below its path. -/
theorem leavesOf_expansion (hreached : Reached sources segments) {path : String}
    (hpath : path = Path.ofSegments segments) {items : List Located}
    (hexpansion : Expansion (Source.merge sources) path items)
    (hnames : NoOwnNames (Source.merge sources) path) : LeavesOf sources segments items := by
  induction hexpansion generalizing segments with
  | @value path scalar hkeys hvalue =>
    subst hpath
    -- without children the path itself is the only visible one
    obtain ⟨hvisible, hsplit⟩ := visible_of_keys_eq_nil h hreached hkeys
    have hleaves : leaves [⟨.value scalar, Path.ofSegments segments⟩] =
      [⟨.value scalar, Path.ofSegments segments⟩] := rfl
    refine ⟨?_, ?_, by simp [hleaves]⟩
    · intro item hitem
      rw [hleaves, List.mem_singleton] at hitem
      subst hitem
      exact ⟨hvisible, ⟨[], by simp [hsplit]⟩, scalar, rfl, hvalue⟩
    · rintro path hvisible' ⟨rest, hsplit'⟩
      have heq := split_eq_of_keys_eq_nil h hreached.isName hkeys hvisible'.isIndexable
        hvisible'.storedIn hsplit'
      rw [hleaves, ← Path.ofSegments_split hvisible'.isIndexable, heq]
      simp
  | null hkeys hvalue =>
    subst hpath
    -- a reached path without children has a value
    obtain ⟨hvisible, -⟩ := visible_of_keys_eq_nil h hreached hkeys
    have hsome := storedIn_iff.1 hvisible.storedIn
    exact absurd hvalue (Option.isSome_iff_ne_none.1 hsome)
  | @list path ordered parts hkeys hall horder hparts ih =>
    subst hpath
    have hmem := fun key (hkey : key ∈ ordered) => horder.mem_iff.1 hkey
    refine leavesOf_children h hreached hkeys horder.perm (fun key hkey => ?_)
      (Expansion.leaves_list fun key hkey =>
        (hparts key (hmem key hkey)).separate (hnames.child (hmem key hkey)))
    exact ih key (hmem key hkey) ((mem_keys_merge_iff h hreached.isName).1 (hmem key hkey))
      (Path.ofSegments_append_singleton _ _).symm (hnames.child (hmem key hkey))
  | @map path parts hkeys hall hparts ih =>
    subst hpath
    refine leavesOf_children h hreached hkeys (.refl _) (fun key hkey => ?_)
      (Expansion.leaves_map hnames fun key hkey => (hparts key hkey).separate (hnames.child hkey))
    exact ih key hkey ((mem_keys_merge_iff h hreached.isName).1 hkey)
      (Path.ofSegments_append_singleton _ _).symm (hnames.child hkey)

end Stack

/-- The scalar at a path is that of the first of several sources that stores one. -/
theorem value?_merge_eq_some_iff {sources : List Source} {path : String} {scalar : Scalar} :
    (Source.merge sources).value? path = some scalar ↔
      ∃ before source after, sources = before ++ source :: after ∧
        source.value? path = some scalar ∧ ∀ other ∈ before, other.value? path = none := by
  show sources.findSome? (·.value? path) = some scalar ↔ _
  rw [List.findSome?_eq_some_iff]

/-- Draining the root of a stack of stored values lists, next to the paths that maps tell, one value
for every visible path, the one of the first source that stores it, and no other leaf. -/
theorem leaves_drain_resolve {sources : List Source} (h : ∀ source ∈ sources, IsStored source)
    (hsome : ∃ path, Path.isIndexable path ∧ StoredIn sources path)
    (hpaths : ∀ path, Path.isIndexable path → StoredIn sources path →
      (Path.split path).length ≤ maxDepth ∧ pathKey ∉ Path.split path) :
    ∃ reader items, Node.resolve (Source.merge sources) "" = .ok reader ∧
      (TokenStream.drain reader).1 = listed (items ++ [⟨.endOfStream, ""⟩]) ∧
      (∀ path, Visible sources path → ∃ before source after scalar,
        sources = before ++ source :: after ∧ source.value? path = some scalar ∧
          (∀ other ∈ before, other.value? path = none) ∧
          (leaves items).filter (·.path = path) = [⟨.value scalar, path⟩]) ∧
      ∀ item ∈ leaves items, Visible sources item.path ∧ item.event.token = .value := by
  have hroot : Reached sources [] := by
    obtain ⟨path, hindexable, hstored⟩ := hsome
    exact ⟨path, Path.split path, hindexable, hstored, rfl⟩
  have hchain : ∀ n last, Chain (Source.merge sources) "" n last → n ≤ maxDepth := by
    intro n last hchain
    -- a chain follows the segments of a stored path, of which there are not too many
    obtain ⟨more, rfl, -, path, rest, hindexable, hstored, hsplit⟩ :=
      reached_of_chain h hroot hchain
    have hlength := (hpaths path hindexable hstored).1
    rw [hsplit] at hlength
    simp only [List.nil_append, List.length_append] at hlength
    omega
  have hnames : NoOwnNames (Source.merge sources) "" := by
    intro n last hchain hmem
    obtain ⟨more, -, rfl, hreached⟩ := reached_of_chain h hroot hchain
    obtain ⟨path, rest, hindexable, hstored, hsplit⟩ :=
      (mem_keys_merge_iff h hreached.isName).1 hmem
    exact (hpaths path hindexable hstored).2 (by simp [hsplit])
  obtain ⟨reader, items, hreader, hexpansion, hdrain, -⟩ :=
    (completes_of_forall_le (Nat.zero_add maxDepth) hchain).drain
  have hleaves := leavesOf_expansion h hroot Path.ofSegments_nil.symm hexpansion hnames
  refine ⟨reader, items, hreader, hdrain, fun path hvisible => ?_, fun item hitem => ?_⟩
  · obtain ⟨item, hitem, rfl⟩ := List.mem_map.1 (hleaves.complete path hvisible ⟨_, rfl⟩)
    obtain ⟨-, -, scalar, hevent, hvalue⟩ := hleaves.visible item hitem
    obtain ⟨before, source, after, hsources, hsource, hbefore⟩ := value?_merge_eq_some_iff.1 hvalue
    refine ⟨before, source, after, scalar, hsources, hsource, hbefore, ?_⟩
    rw [OrderedMap.filter_eq_singleton hleaves.nodup hitem, ← hevent]
  · obtain ⟨hvisible, -, scalar, hevent, -⟩ := hleaves.visible item hitem
    exact ⟨hvisible, by rw [hevent]; rfl⟩

/-- A map with two hosts, and a map behind it that stores a port below one of them. -/
def hostSources : List Source :=
  [(Store.ofMap [("hosts.0", .string "a"), ("hosts.1", .string "b")]).toSource "local",
    (Store.ofMap [("hosts.0", .string "c"), ("hosts.1.port", .integer 80)]).toSource "site"]

/-- The first host is a leaf with the value of the first map. The second one is not: it has become a
map with its port. -/
theorem leaves_drain_resolve_hostSources :
    ∃ reader items, Node.resolve (Source.merge hostSources) "" = .ok reader ∧
      (TokenStream.drain reader).1 = listed (items ++ [⟨.endOfStream, ""⟩]) ∧
      (∀ path, Visible hostSources path → ∃ before source after scalar,
        hostSources = before ++ source :: after ∧ source.value? path = some scalar ∧
          (∀ other ∈ before, other.value? path = none) ∧
          (leaves items).filter (·.path = path) = [⟨.value scalar, path⟩]) ∧
      ∀ item ∈ leaves items, Visible hostSources item.path ∧ item.event.token = .value := by
  refine leaves_drain_resolve ?_ ⟨"hosts.0", by decide, _, List.mem_cons_self, by decide⟩ ?_
  · intro source hsource
    rcases List.mem_pair.1 hsource with rfl | rfl
    · exact .map _ _
    · exact .map _ _
  · rintro path - ⟨source, hsource, hstored⟩
    have hpath : path ∈ ["hosts.0", "hosts.1", "hosts.0", "hosts.1.port"] := by
      rcases List.mem_pair.1 hsource with rfl | rfl
      · exact List.mem_append_left _ (OrderedMap.isSome_get?_iff.1 hstored)
      · exact List.mem_append_right ["hosts.0", "hosts.1"] (OrderedMap.isSome_get?_iff.1 hstored)
    clear hstored
    revert path
    decide

end LayeredConfig
