import LayeredConfig.Proofs.OrderedMap
import LayeredConfig.Proofs.Path.Segments
import LayeredConfig.Proofs.Resolution.Expansion
import LayeredConfig.Source.Document

/-!
# The index of a store

The index of children is built path by path and segment by segment. `keys_toSource` says what it
amounts to: the segments directly below a path are those of the indexable stored paths, each at the
place where it first comes. `IsStored` are the sources with such an index.

In a stack of such sources the walk down from the root reaches the beginnings of the stored paths
(`Reached`): `mem_keys_merge_iff` is one step of it, and `reached_of_chain` any number of them.
-/

namespace LayeredConfig

open OrderedMap

namespace Path

variable {parent segment : String} {before segments : List String}

/-- The steps of a path are its segments, each with the path of the segments before it. -/
theorem mem_steps_iff : (parent, segment) ∈ steps (ofSegments before) segments ↔
    ∃ first rest, segments = first ++ segment :: rest ∧ parent = ofSegments (before ++ first) := by
  induction segments generalizing before with
  | nil => simp [steps]
  | cons name names ih =>
    rw [steps, List.mem_cons, ← ofSegments_append_singleton, ih]
    constructor
    · rintro (heq | ⟨first, rest, rfl, rfl⟩)
      · obtain ⟨rfl, rfl⟩ := Prod.mk.inj heq
        exact ⟨[], names, rfl, by simp⟩
      · exact ⟨name :: first, rest, rfl, by simp⟩
    · rintro ⟨first, rest, hcons, rfl⟩
      cases first with
      | nil =>
        obtain ⟨rfl, rfl⟩ := List.cons.inj hcons
        exact .inl (by simp)
      | cons _ first =>
        obtain ⟨rfl, rfl⟩ := List.cons.inj hcons
        exact .inr ⟨first, rest, rfl, by simp⟩

/-- No two steps of a path start at the same path. -/
theorem nodup_parents_steps (before segments : List String)
    (hnames : ∀ name ∈ before ++ segments, IsName name) :
    ((steps (ofSegments before) segments).map Prod.fst).Nodup := by
  induction segments generalizing before with
  | nil => simp [steps]
  | cons name names ih =>
    rw [steps, List.map_cons, List.nodup_cons, ← ofSegments_append_singleton]
    refine ⟨?_, ih _ (by simpa using hnames)⟩
    intro hmem
    -- a later step starts at a longer path
    obtain ⟨⟨place, segment⟩, hstep, rfl⟩ := List.mem_map.1 hmem
    obtain ⟨first, rest, rfl, heq⟩ := mem_steps_iff.1 hstep
    have hlist := ofSegments_inj (fun name hname => hnames name (by simp [hname]))
      (fun name hname => hnames name (by simp at hname ⊢; tauto)) heq
    simpa using congrArg List.length hlist

/-- The steps of a path that start at another one: at most one, with the segment below it. -/
theorem filter_steps {path : String} (hpath : isIndexable path) (parent : String) :
    ((steps "" (split path)).filter (·.1 = parent)).map Prod.snd =
      (childSegment? path parent).toList := by
  have hnames := isName_of_isIndexable hpath
  cases hchild : childSegment? path parent with
  | none =>
    -- a step from the parent would be the segment below it
    rw [Option.toList_none, List.map_eq_nil_iff, List.filter_eq_nil_iff]
    rintro ⟨place, segment⟩ hstep hplace
    rw [← ofSegments_nil, mem_steps_iff] at hstep
    obtain ⟨first, rest, hsplit, hfirst⟩ := hstep
    have hparent : parent = ofSegments first := (of_decide_eq_true hplace).symm.trans hfirst
    have hsome := (childSegment?_eq_some_iff hpath).2 ⟨first, rest, hparent, hsplit⟩
    exact absurd (hchild.symm.trans hsome) (by simp)
  | some segment =>
    obtain ⟨first, rest, rfl, hsplit⟩ := (childSegment?_eq_some_iff hpath).1 hchild
    -- one step starts at the parent, and no other does
    have hstep : (ofSegments first, segment) ∈ steps (ofSegments []) (split path) :=
      mem_steps_iff.2 ⟨first, rest, hsplit, rfl⟩
    have hnodup := nodup_parents_steps [] (split path) (by simpa using hnames)
    rw [ofSegments_nil] at hstep hnodup
    rw [filter_eq_singleton hnodup hstep]
    rfl

end Path

namespace Store

/-- Adding steps to an index adds their segments below the paths that they start at. -/
theorem getD_foldl_addChild (steps : List (String × String))
    (children : OrderedMap (List String)) (path : String) :
    (get? (steps.foldl addChild children) path).getD [] =
      ((steps.filter (·.1 = path)).map Prod.snd).foldl insertKey
        ((get? children path).getD []) := by
  induction steps generalizing children with
  | nil => rfl
  | cons step rest ih =>
    rw [List.foldl_cons, ih, addChild, get?_insert]
    -- only a step from the path itself adds to its segments
    by_cases heq : path = step.1
    · rw [if_pos heq, List.filter_cons_of_pos (by simpa using heq.symm), Option.getD_some, ← heq]
      rfl
    · rw [if_neg heq, List.filter_cons_of_neg (by simpa using Ne.symm heq)]

/-- Adding paths to an index adds their segments below every path. -/
theorem getD_foldl_addPath (paths : List String) (children : OrderedMap (List String))
    (path : String) :
    (get? (paths.foldl addPath children) path).getD [] =
      ((paths.filter Path.isIndexable).filterMap (Path.childSegment? · path)).foldl insertKey
        ((get? children path).getD []) := by
  induction paths generalizing children with
  | nil => rfl
  | cons stored rest ih =>
    rw [List.foldl_cons, ih, addPath]
    by_cases hindexable : Path.isIndexable stored
    · rw [if_pos hindexable, List.filter_cons_of_pos hindexable, getD_foldl_addChild,
        Path.filter_steps hindexable]
      cases hchild : Path.childSegment? stored path with
      | none => simp [hchild]
      | some segment => simp [hchild]
    · rw [if_neg hindexable, List.filter_cons_of_neg hindexable]

/-- The segments below a path in a store are those of its indexable paths, without repetition. -/
theorem keys_toSource (values : OrderedMap Scalar) (name path : String) :
    ((Store.ofMap values).toSource name).keys path =
      distinct (((keys values).filter Path.isIndexable).filterMap (Path.childSegment? · path)) := by
  show (get? ((keys values).foldl addPath []) path).getD [] = _
  rw [getD_foldl_addPath]
  rfl

theorem isSome_value?_singleton {stored path name : String} {scalar : Scalar} :
    (((Store.ofMap [(stored, scalar)]).toSource name).value? path).isSome ↔ path = stored :=
  isSome_get?_iff.trans List.mem_singleton

/-- Below the beginnings of the only stored path is its next segment. -/
theorem keys_singleton {before after : List String} {key : String}
    (hnames : ∀ segment ∈ before ++ key :: after, Path.IsName segment) (scalar : Scalar)
    (name : String) :
    ((Store.ofMap [(Path.ofSegments (before ++ key :: after), scalar)]).toSource name).keys
      (Path.ofSegments before) = [key] := by
  have hindexable := Path.isIndexable_ofSegments hnames (by simp)
  have hchild := (Path.childSegment?_eq_some_iff hindexable).2
    ⟨before, after, rfl, Path.split_ofSegments hnames (by simp)⟩
  rw [keys_toSource, keys, List.map_singleton, List.filter_cons_of_pos hindexable, List.filter_nil,
    List.filterMap_cons, hchild, List.filterMap_nil]
  rfl

end Store

/-- A source of stored values: a map of values by path, or a document. -/
inductive IsStored : Source → Prop
  | map (name : String) (values : OrderedMap Scalar) : IsStored ((Store.ofMap values).toSource name)
  | document {name text : String} {document : DocumentSource}
      (h : DocumentSource.parse name text = .ok document) : IsStored document.toSource

/-- A document that is read has the index of its values. -/
theorem DocumentSource.eq_ofMap_of_parse {name text : String} {document : DocumentSource}
    (h : DocumentSource.parse name text = .ok document) :
    document = ⟨name, .ofMap document.store.values⟩ := by
  rw [DocumentSource.parse] at h
  split at h
  next values _ =>
    obtain rfl := Except.ok.inj h
    rfl
  next => exact absurd h (by simp)

/-- Every source of stored values is built from a map of values. -/
theorem IsStored.exists_values {source : Source} (h : IsStored source) :
    ∃ name values, source = (Store.ofMap values).toSource name := by
  cases h with
  | map name values => exact ⟨name, values, rfl⟩
  | document h => exact ⟨_, _, congrArg _ (DocumentSource.eq_ofMap_of_parse h)⟩

/-- The segments below a path in a source of stored values are those of the stored indexable
paths. -/
theorem IsStored.mem_keys_iff {source : Source} (h : IsStored source) {path segment : String} :
    segment ∈ source.keys path ↔ ∃ stored, Path.isIndexable stored ∧
      (source.value? stored).isSome ∧ Path.childSegment? stored path = some segment := by
  obtain ⟨name, values, rfl⟩ := h.exists_values
  rw [Store.keys_toSource, mem_distinct, List.mem_filterMap]
  constructor
  · rintro ⟨stored, hstored, hchild⟩
    rw [List.mem_filter] at hstored
    exact ⟨stored, hstored.2, isSome_get?_iff.2 hstored.1, hchild⟩
  · rintro ⟨stored, hindexable, hsome, hchild⟩
    exact ⟨stored, List.mem_filter.2 ⟨isSome_get?_iff.1 hsome, hindexable⟩, hchild⟩

/-- A scalar is stored at a path in one of the sources. -/
def StoredIn (sources : List Source) (path : String) : Prop :=
  ∃ source ∈ sources, (source.value? path).isSome

theorem storedIn_iff {sources : List Source} {path : String} :
    StoredIn sources path ↔ ((Source.merge sources).value? path).isSome := by
  show _ ↔ (sources.findSome? (·.value? path)).isSome
  rw [List.isSome_findSome?, List.any_eq_true]
  rfl

/-- The segments below a path in a stack are those of its sources. -/
theorem mem_keys_merge {sources : List Source} {path segment : String} :
    segment ∈ (Source.merge sources).keys path ↔
      ∃ source ∈ sources, segment ∈ source.keys path := by
  show segment ∈ distinct (sources.flatMap fun source => source.keys path) ↔ _
  rw [mem_distinct, List.mem_flatMap]

theorem nodup_keys_merge (sources : List Source) (path : String) :
    ((Source.merge sources).keys path).Nodup :=
  nodup_distinct _

/-- An indexable path that begins with the segments is stored in one of the sources. -/
def Reached (sources : List Source) (segments : List String) : Prop :=
  ∃ path rest, Path.isIndexable path ∧ StoredIn sources path ∧ Path.split path = segments ++ rest

namespace Reached

variable {sources : List Source} {segments : List String}

theorem isName (h : Reached sources segments) : ∀ segment ∈ segments, Path.IsName segment := by
  obtain ⟨path, rest, hindexable, -, hsplit⟩ := h
  intro segment hmem
  exact Path.isName_of_isIndexable hindexable segment (by simp [hsplit, hmem])

theorem of_append {more : List String} (h : Reached sources (segments ++ more)) :
    Reached sources segments := by
  obtain ⟨path, rest, hindexable, hstored, hsplit⟩ := h
  exact ⟨path, more ++ rest, hindexable, hstored, by rw [hsplit, List.append_assoc]⟩

end Reached

/-- The segments below a path in a stack of stored values are those that stored paths go on with. -/
theorem mem_keys_merge_iff {sources : List Source} (h : ∀ source ∈ sources, IsStored source)
    {segments : List String} (hnames : ∀ segment ∈ segments, Path.IsName segment)
    {segment : String} : segment ∈ (Source.merge sources).keys (Path.ofSegments segments) ↔
      Reached sources (segments ++ [segment]) := by
  rw [mem_keys_merge]
  constructor
  · rintro ⟨source, hsource, hmem⟩
    obtain ⟨path, hindexable, hsome, hchild⟩ := (h source hsource).mem_keys_iff.1 hmem
    obtain ⟨before, rest, heq, hsplit⟩ := (Path.childSegment?_eq_some_iff hindexable).1 hchild
    have hbefore : ∀ name ∈ before, Path.IsName name := fun name hname =>
      Path.isName_of_isIndexable hindexable name (by simp [hsplit, hname])
    -- the path has only one list of segments
    obtain rfl := Path.ofSegments_inj hnames hbefore heq
    exact ⟨path, rest, hindexable, ⟨source, hsource, hsome⟩, by simp [hsplit]⟩
  · rintro ⟨path, rest, hindexable, ⟨source, hsource, hsome⟩, hsplit⟩
    refine ⟨source, hsource, (h source hsource).mem_keys_iff.2 ⟨path, hindexable, hsome, ?_⟩⟩
    exact (Path.childSegment?_eq_some_iff hindexable).2 ⟨segments, rest, rfl, by simp [hsplit]⟩

/-- Where no stored path goes on, the paths that begin with the segments end with them. -/
theorem split_eq_of_keys_eq_nil {sources : List Source} (h : ∀ source ∈ sources, IsStored source)
    {segments : List String} (hnames : ∀ segment ∈ segments, Path.IsName segment)
    (hkeys : (Source.merge sources).keys (Path.ofSegments segments) = []) {path : String}
    (hindexable : Path.isIndexable path) (hstored : StoredIn sources path) {rest : List String}
    (hsplit : Path.split path = segments ++ rest) : Path.split path = segments := by
  cases rest with
  | nil => rw [hsplit, List.append_nil]
  | cons key rest =>
    have hmem : key ∈ (Source.merge sources).keys (Path.ofSegments segments) :=
      (mem_keys_merge_iff h hnames).2 ⟨path, rest, hindexable, hstored, by simp [hsplit]⟩
    exact absurd hmem (by simp [hkeys])

/-- Where no stored path goes on, a scalar is stored. -/
theorem Reached.storedIn {sources : List Source} {segments : List String}
    (hreached : Reached sources segments) (h : ∀ source ∈ sources, IsStored source)
    (hkeys : (Source.merge sources).keys (Path.ofSegments segments) = []) :
    StoredIn sources (Path.ofSegments segments) := by
  obtain ⟨path, rest, hindexable, hstored, hsplit⟩ := id hreached
  have heq := split_eq_of_keys_eq_nil h hreached.isName hkeys hindexable hstored hsplit
  rwa [← heq, Path.ofSegments_split hindexable]

/-- A path with segments below it is reached. -/
theorem exists_reached_of_mem_keys {sources : List Source} (h : ∀ source ∈ sources, IsStored source)
    {path segment : String} (hmem : segment ∈ (Source.merge sources).keys path) :
    ∃ segments, path = Path.ofSegments segments ∧ Reached sources segments := by
  obtain ⟨source, hsource, hmem⟩ := mem_keys_merge.1 hmem
  obtain ⟨stored, hindexable, hsome, hchild⟩ := (h source hsource).mem_keys_iff.1 hmem
  obtain ⟨segments, rest, hpath, hsplit⟩ := (Path.childSegment?_eq_some_iff hindexable).1 hchild
  exact ⟨segments, hpath, stored, segment :: rest, hindexable, ⟨source, hsource, hsome⟩, hsplit⟩

/-- Chains of children follow the segments of stored paths. -/
theorem reached_of_chain {sources : List Source} (h : ∀ source ∈ sources, IsStored source)
    {segments : List String} (hreached : Reached sources segments) {n : Nat} {last : String}
    (hchain : Resolution.Chain (Source.merge sources) (Path.ofSegments segments) n last) :
    ∃ more, more.length = n ∧ last = Path.ofSegments (segments ++ more) ∧
      Reached sources (segments ++ more) := by
  induction n generalizing segments with
  | zero =>
    obtain rfl := hchain.zero
    exact ⟨[], rfl, by simp, by simpa using hreached⟩
  | succ n ih =>
    -- the first child of the chain is a segment that a stored path goes on with
    obtain ⟨key, hkey, tail⟩ := hchain.exists_child
    rw [← Path.ofSegments_append_singleton] at tail
    obtain ⟨more, hlength, hlast, hmore⟩ := ih ((mem_keys_merge_iff h hreached.isName).1 hkey) tail
    exact ⟨key :: more, by simp [hlength], by simpa using hlast, by simpa using hmore⟩

end LayeredConfig
