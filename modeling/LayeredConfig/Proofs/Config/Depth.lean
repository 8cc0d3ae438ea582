import LayeredConfig.Proofs.Config.Precedence
import LayeredConfig.Proofs.Resolution.Depth
import LayeredConfig.Proofs.Source.Phantoms

/-!
# Queries that go too deep

A query fails only because its tree goes too deep, and then it names a path. `NamesDeepPath` says
what this path should be: one that is there, `maxDepth + 1` children below the path of the query.

* `get?_error`: the error names such a path exactly if the children that lie too deep first form a
  list and are there, and in a configuration of stored values they are. A map is left at the entry
  that tells its path, which is stored nowhere.
-/

namespace LayeredConfig.Config

open Resolution

variable {config : Config} {path parent : String} {error : Error}

/-- The place is a path in the configuration that lies one child too deep below the path of a query,
and not that of an entry that tells a path. -/
structure NamesDeepPath (config : Config) (path place : String) : Prop where
  contains : ({ config with scopePath := "" } : Config).contains place
  chain : Chain config.source (config.fullPath path) (maxDepth + 1) place
  not_ownEntry : ∀ other, place ≠ Path.join other pathKey

/-- A query fails at the first path on the last level that has children. -/
theorem get?_of_firstDeep (h : FirstDeep config.source (config.fullPath path) maxDepth parent) :
    config.get? path = .error (.depthExceeded (tooDeepPlace config.source parent) maxDepth) := by
  obtain ⟨reader, hreader, hkind⟩ := exists_resolve config.source (config.fullPath path)
  have hnull : reader.events.kind ≠ .null := by
    rw [ne_eq, hkind]
    intro hholds
    cases hholds with
    | null hkeys => exact h.not_forall_le (Chain.forall_le_of_keys_eq_nil hkeys maxDepth)
  rw [get?_of_resolve hreader, if_neg hnull, h.read_eq hreader]
  rfl

/-- A query gives the tree that its path holds, or fails because of such a path. -/
theorem exists_holds_or_firstDeep (config : Config) (path : String) :
    (∃ tree, Holds config.source (config.fullPath path) tree ∧
      config.get? path = .ok (if tree.isNull then none else some tree)) ∨
    ∃ parent, FirstDeep config.source (config.fullPath path) maxDepth parent ∧
      config.get? path = .error (.depthExceeded (tooDeepPlace config.source parent) maxDepth) := by
  by_cases hchain : ∀ n last, Chain config.source (config.fullPath path) n last → n ≤ maxDepth
  · obtain ⟨items, hexpansion, -⟩ := completes_of_forall_le (Nat.zero_add maxDepth) hchain
    obtain ⟨tree, hholds, -⟩ := hexpansion.exists_spells (Nat.zero_add maxDepth) hchain
    exact .inl ⟨tree, hholds, get?_of_holds hholds hchain⟩
  · obtain ⟨parent, hparent⟩ := exists_firstDeep hchain
    exact .inr ⟨parent, hparent, get?_of_firstDeep hparent⟩

/-- A query that fails does so because of such a path. -/
theorem exists_firstDeep_of_get?_error (h : config.get? path = .error error) :
    ∃ parent, FirstDeep config.source (config.fullPath path) maxDepth parent ∧
      error = .depthExceeded (tooDeepPlace config.source parent) maxDepth := by
  rcases exists_holds_or_firstDeep config path with ⟨tree, -, hget⟩ | ⟨parent, hparent, hget⟩
  · exact absurd (hget.symm.trans h) (by simp)
  · exact ⟨parent, hparent, Except.error.inj (h.symm.trans hget)⟩

/-- The place that an error names is a path too deep exactly if the children there form a list and
are there. -/
theorem namesDeepPath_iff (h : FirstDeep config.source (config.fullPath path) maxDepth parent) :
    NamesDeepPath config path (tooDeepPlace config.source parent) ↔
      AllIndexes (config.source.keys parent) ∧
        config.source.contains (tooDeepPlace config.source parent) := by
  have hscope : ∀ place, ({ config with scopePath := "" } : Config).contains place =
      config.source.contains place := by
    intro place
    rw [contains, fullPath_eq_self rfl]
    rfl
  constructor
  · intro hnames
    refine ⟨?_, hscope _ ▸ hnames.contains⟩
    by_contra hall
    exact hnames.not_ownEntry parent (tooDeepPlace_of_not_allIndexes hall)
  · rintro ⟨hall, hcontains⟩
    obtain ⟨key, -, -, hkey, hplace⟩ := exists_tooDeepPlace_eq h.keys_ne_nil hall
    obtain ⟨index, hindex⟩ := hall key hkey
    rw [hplace] at hcontains ⊢
    exact ⟨hscope _ ▸ hcontains, h.chain.concat hkey, Path.join_ne_join_pathKey hindex parent⟩

/-- In a stack of stored values the first item of a list that lies too deep is there. -/
theorem contains_tooDeepPlace (hstored : ∀ source ∈ config.sources, IsStored source)
    (h : FirstDeep config.source (config.fullPath path) maxDepth parent)
    (hall : AllIndexes (config.source.keys parent)) :
    config.source.contains (tooDeepPlace config.source parent) := by
  obtain ⟨key, -, -, hkey, hplace⟩ := exists_tooDeepPlace_eq h.keys_ne_nil hall
  rw [hplace]
  exact noPhantoms_merge hstored _ _ _ h.chain key hkey

/-- A query fails only because its tree goes too deep, at the first path on the last level that has
children. The error names a path that is there and lies too deep exactly if these children form a
list and its first item is there, which in a configuration of stored values it is. -/
theorem get?_error (h : config.get? path = .error error) : ∃ parent place,
    FirstDeep config.source (config.fullPath path) maxDepth parent ∧
      place = tooDeepPlace config.source parent ∧ error = .depthExceeded place maxDepth ∧
      (NamesDeepPath config path place ↔
        AllIndexes (config.source.keys parent) ∧ config.source.contains place) ∧
      ((∀ source ∈ config.sources, IsStored source) →
        (NamesDeepPath config path place ↔ AllIndexes (config.source.keys parent))) := by
  obtain ⟨parent, hparent, herror⟩ := exists_firstDeep_of_get?_error h
  have hiff := namesDeepPath_iff hparent
  refine ⟨parent, _, hparent, rfl, herror, hiff, fun hstored => ?_⟩
  rw [hiff, and_iff_left_iff_imp]
  exact contains_tooDeepPlace hstored hparent

/-! ### One scalar too deep -/

/-- A configuration with a single scalar, below more equal segments than there are levels. -/
def nested (segment : String) : Config where
  sources := [(Store.ofMap
    [(Path.ofSegments (List.replicate (maxDepth + 1) segment), .integer 1)]).toSource "map"]

variable {segment : String}

theorem keys_nested (hname : Path.IsName segment) {n : Nat} (h : n ≤ maxDepth) :
    (nested segment).source.keys (Path.ofSegments (List.replicate n segment)) = [segment] := by
  have hkeys := keys_replicate hname (.integer 1) "map" (Nat.lt_succ_of_le h)
  rw [source, Source.keys_merge, nested, List.flatMap_singleton, hkeys]
  rfl

theorem isStored_nested : ∀ source ∈ (nested segment).sources, IsStored source :=
  List.forall_mem_singleton.2 (.map _ _)

/-- The last level of the only path is the first that has children on it. -/
theorem firstDeep_nested (hname : Path.IsName segment) {n levels : Nat}
    (hlevels : n + levels = maxDepth) :
    FirstDeep (nested segment).source (Path.ofSegments (List.replicate n segment)) levels
      (Path.ofSegments (List.replicate maxDepth segment)) := by
  have hkeys := keys_nested hname (show n ≤ maxDepth by omega)
  induction levels generalizing n with
  | zero =>
    obtain rfl : n = maxDepth := hlevels
    exact .here (by simp [hkeys])
  | succ levels ih =>
    have hsucc : n + 1 + levels = maxDepth := by omega
    have htail := ih hsucc (keys_nested hname (by omega))
    rw [List.replicate_succ', Path.ofSegments_append_singleton] at htail
    have horder : readingOrder
        ((nested segment).source.keys (Path.ofSegments (List.replicate n segment))) =
          [] ++ segment :: [] := by
      rw [hkeys, readingOrder_singleton, List.nil_append]
    exact .child horder (by simp) htail

theorem firstDeep_nested_root (hname : Path.IsName segment) :
    FirstDeep (nested segment).source ((nested segment).fullPath "") maxDepth
      (Path.ofSegments (List.replicate maxDepth segment)) :=
  firstDeep_nested hname (Nat.zero_add maxDepth)

/-- If the segment is an index, the scalar is what the error names. -/
theorem get?_error_nested : (nested "0").get? "" =
      .error (.depthExceeded (Path.ofSegments (List.replicate (maxDepth + 1) "0")) maxDepth) ∧
    NamesDeepPath (nested "0") "" (Path.ofSegments (List.replicate (maxDepth + 1) "0")) := by
  have hname : Path.IsName "0" := ⟨by decide, by decide⟩
  have hdeep := firstDeep_nested_root hname
  have hkeys := keys_nested hname (Nat.le_refl maxDepth)
  have hall : AllIndexes ["0"] := by decide
  rw [← hkeys] at hall
  have hplace : tooDeepPlace (nested "0").source (Path.ofSegments (List.replicate maxDepth "0")) =
      Path.ofSegments (List.replicate (maxDepth + 1) "0") := by
    obtain ⟨key, rest, hcons, -, hplace⟩ := exists_tooDeepPlace_eq hdeep.keys_ne_nil hall
    rw [hkeys, readingOrder_singleton] at hcons
    rw [hplace, ← (List.cons.inj hcons).1, List.replicate_succ', Path.ofSegments_append_singleton]
  have herror := get?_of_firstDeep hdeep
  obtain ⟨parent, _, hparent, rfl, -, -, hiff⟩ := get?_error herror
  rw [hparent.unique hdeep, hplace] at hiff
  rw [hplace] at herror
  exact ⟨herror, (hiff isStored_nested).2 hall⟩

/-- There is nothing at a path with any other segment. -/
theorem eq_of_contains_nested (hname : Path.IsName segment) {segments : List String}
    (hnames : ∀ segment ∈ segments, Path.IsName segment) (hne : segments ≠ [])
    (hcontains : (nested segment).source.contains (Path.ofSegments segments)) :
    ∀ other ∈ segments, other = segment := by
  obtain ⟨path, rest, -, ⟨source, hsource, hsome⟩, hsplit⟩ :=
    (contains_merge_iff isStored_nested hnames hne).1 hcontains
  -- only one path is stored
  rw [List.mem_singleton.1 hsource, Store.isSome_value?_singleton] at hsome
  rw [hsome, Path.split_ofSegments (Path.isName_of_mem_replicate hname _) (by simp)] at hsplit
  exact fun other hother => List.eq_of_mem_replicate (hsplit ▸ List.mem_append_left rest hother)

/-- If the segment is no index, the error names the entry that tells the path of the last map, and
there is nothing at that path. -/
theorem not_namesDeepPath_nested : (nested "n").get? "" = .error (.depthExceeded
      (Path.join (Path.ofSegments (List.replicate maxDepth "n")) pathKey) maxDepth) ∧
    (nested "n").contains (Path.join (Path.ofSegments (List.replicate maxDepth "n")) pathKey) =
      false ∧
    ¬ NamesDeepPath (nested "n") ""
      (Path.join (Path.ofSegments (List.replicate maxDepth "n")) pathKey) := by
  have hname : Path.IsName "n" := ⟨by decide, by decide⟩
  have hall : ¬ AllIndexes ["n"] := by decide
  rw [← keys_nested hname (Nat.le_refl maxDepth)] at hall
  have herror := get?_of_firstDeep (firstDeep_nested_root hname)
  rw [tooDeepPlace_of_not_allIndexes hall] at herror
  refine ⟨herror, ?_, fun hnames => hnames.not_ownEntry _ rfl⟩
  rw [← Bool.not_eq_true, contains, fullPath_eq_self rfl, ← Path.ofSegments_append_singleton]
  intro hcontains
  have hnames := Path.isName_append (Path.isName_of_mem_replicate hname maxDepth)
    (show Path.IsName pathKey from ⟨by decide, by decide⟩)
  have hkey := eq_of_contains_nested hname hnames (by simp) hcontains pathKey (by simp)
  exact absurd hkey (by decide)

end LayeredConfig.Config
