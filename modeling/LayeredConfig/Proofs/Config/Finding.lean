import LayeredConfig.Proofs.Config.Depth

/-!
# What queries find at a path

Three routes lead to a path: `contains` asks the sources, `get?` reads a whole tree, and a typed
getter takes the first token of the node and, of a scalar, its reading as a type. They classify
every path alike, as a `Finding`: nothing, a scalar, a mapping or a sequence. Only `get?` goes below
the path, so a tree that goes too deep is still a mapping or a sequence for the other two.

* `Finding.ofSource`: what a source has at a path.
* `exists_next_resolve`: the first event of a resolved path tells the finding, at any depth of the
  tree.
* `Config.existsUnique_finds`: all queries of a path agree on exactly one finding.
-/

namespace LayeredConfig

open Resolution

/-- What there is at a path. -/
inductive Finding where
  /-- Nothing. -/
  | absent
  /-- A scalar and no children. -/
  | leaf (scalar : Scalar)
  /-- Children with names. -/
  | mapping
  /-- Children that are numbered by list indexes. -/
  | sequence

namespace Finding

/-- What a source has at a path. A scalar counts only at a path without children. -/
def ofSource (source : Source) (path : String) : Finding :=
  if source.keys path = [] then
    match source.value? path with
    | none => absent
    | some scalar => leaf scalar
  else if AllIndexes (source.keys path) then sequence
  else mapping

/-- Something has been found. -/
def isPresent : Finding → Bool
  | absent => false
  | _ => true

/-- The first event that is read at the path. -/
def event : Finding → Event
  | absent => .null
  | leaf scalar => .value scalar
  | mapping => .objectStart
  | sequence => .listStart

/-- The results of reading the whole tree that go with the finding. Of a mapping and a sequence only
the kind is told, and their trees may go too deep. -/
def AdmitsTree : Finding → Except Error (Option Value) → Prop
  | absent, result => result = .ok none
  | leaf scalar, result => result = .ok (some (.scalar scalar))
  | mapping, result => (∃ entries, result = .ok (some (.mapping entries))) ∨
      ∃ place, result = .error (.depthExceeded place maxDepth)
  | sequence, result => (∃ items, result = .ok (some (.sequence items))) ∨
      ∃ place, result = .error (.depthExceeded place maxDepth)

/-- The result of a getter for the type that `expected` names, which `read` reads from scalars. -/
def typed {α : Type} (path expected : String) (read : Scalar → Option α) :
    Finding → Except Error (Option α)
  | absent => .ok none
  | leaf scalar =>
    match read scalar with
    | some value => .ok (some value)
    | none => .error (.typeCoercion path expected scalar.describe)
  | mapping => .error (.typeCoercion path expected "mapping")
  | sequence => .error (.typeCoercion path expected "sequence")

variable {source : Source} {path : String} {tree : Value}

theorem ofSource_of_allIndexes (hkeys : source.keys path ≠ [])
    (hall : AllIndexes (source.keys path)) : ofSource source path = sequence := by
  rw [ofSource, if_neg hkeys, if_pos hall]

theorem ofSource_of_not_allIndexes (hkeys : source.keys path ≠ [])
    (hall : ¬ AllIndexes (source.keys path)) : ofSource source path = mapping := by
  rw [ofSource, if_neg hkeys, if_neg hall]

theorem isPresent_ofSource (source : Source) (path : String) :
    (ofSource source path).isPresent = source.contains path := by
  rw [ofSource, Source.contains]
  by_cases hkeys : source.keys path = []
  · cases hvalue : source.value? path <;> simp [hkeys, isPresent]
  · rw [if_neg hkeys]
    split <;> simp [hkeys, isPresent]

theorem value?_of_ofSource_eq_leaf {scalar : Scalar} (h : ofSource source path = leaf scalar) :
    source.value? path = some scalar := by
  unfold ofSource at h
  split at h
  · split at h
    next => exact absurd h (by simp)
    next value hvalue => rw [hvalue, leaf.inj h]
  · split at h <;> exact absurd h (by simp)

/-- The tree that the path holds is of the kind that has been found. -/
theorem admitsTree_of_holds (h : Holds source path tree) :
    (ofSource source path).AdmitsTree (.ok (if tree.isNull then none else some tree)) := by
  cases h with
  | scalar hkeys hvalue =>
    rw [ofSource, if_pos hkeys, hvalue]
    rfl
  | null hkeys hvalue =>
    rw [ofSource, if_pos hkeys, hvalue]
    rfl
  | sequence hkeys hall =>
    rw [ofSource_of_allIndexes hkeys hall]
    exact .inl ⟨_, rfl⟩
  | mapping hkeys hall =>
    rw [ofSource_of_not_allIndexes hkeys hall]
    exact .inl ⟨_, rfl⟩

/-- At a path with children the tree may go too deep. -/
theorem admitsTree_tooDeep (hkeys : source.keys path ≠ []) (place : String) :
    (ofSource source path).AdmitsTree (.error (.depthExceeded place maxDepth)) := by
  by_cases hall : AllIndexes (source.keys path)
  · rw [ofSource_of_allIndexes hkeys hall]
    exact .inr ⟨place, rfl⟩
  · rw [ofSource_of_not_allIndexes hkeys hall]
    exact .inr ⟨place, rfl⟩

end Finding

namespace Resolution

/-- The first call on a path that resolves is the first one of its cursor. -/
theorem exists_next_of_resolveAt {source : Source} {path : String} {cursor after : Cursor}
    (item : Located) (hresolve : resolveAt source path 0 = .ok cursor)
    (hnext : cursor.next source = (.ok item, after)) :
    ∃ reader after, Node.resolve source path = .ok reader ∧
      TokenStream.next reader = (.ok item.event.token, ⟨after, .ofLocated item⟩) :=
  ⟨_, _, resolve_of_resolveAt hresolve, Node.next_reader _ _ hnext⟩

/-- A path resolves, and the first call on the node gives the event of what is found there. The
first item of a list, which is resolved with its start, never lies too deep. -/
theorem exists_next_resolve (source : Source) (path : String) :
    ∃ reader after, Node.resolve source path = .ok reader ∧
      TokenStream.next reader = (.ok (Finding.ofSource source path).event.token,
        ⟨after, .ofLocated ⟨(Finding.ofSource source path).event, path⟩⟩) := by
  have hdepth : 0 ≤ maxDepth := Nat.zero_le _
  by_cases hkeys : source.keys path = []
  · have hresolve := resolveAt_of_keys_eq_nil hdepth hkeys
    rw [Finding.ofSource, if_pos hkeys]
    cases hvalue : source.value? path with
    | none =>
      rw [hvalue] at hresolve
      exact exists_next_of_resolveAt ⟨.null, path⟩ hresolve rfl
    | some scalar =>
      rw [hvalue] at hresolve
      exact exists_next_of_resolveAt ⟨.value scalar, path⟩ hresolve rfl
  by_cases hall : AllIndexes (source.keys path)
  · obtain ⟨ordered, horder⟩ := hall.exists_indexOrder
    have hresolve := resolveAt_of_indexOrder hdepth hkeys hall horder
    obtain ⟨key, hkey⟩ := List.exists_mem_of_ne_nil _ hkeys
    obtain ⟨index, rest, rfl⟩ :=
      List.exists_cons_of_ne_nil (List.ne_nil_of_mem (horder.mem_iff.2 hkey))
    obtain ⟨child, hchild⟩ := exists_resolveAt source (Path.join path index)
      (show 0 + 1 ≤ maxDepth by decide)
    have hnext : (Cursor.listStart path 0 (index :: rest)).next source =
        (.ok ⟨.listStart, path⟩, .listItem path 0 child rest) := by
      simp only [Cursor.next, Cursor.nextHere, hchild]
    rw [Finding.ofSource_of_allIndexes hkeys hall]
    exact exists_next_of_resolveAt ⟨.listStart, path⟩ hresolve hnext
  · have hresolve := resolveAt_of_not_allIndexes hdepth hkeys hall
    rw [Finding.ofSource_of_not_allIndexes hkeys hall]
    exact exists_next_of_resolveAt ⟨.objectStart, path⟩ hresolve rfl

end Resolution

namespace Config

variable (config : Config) (path : String)

/-- The path of a file that a text names: a relative one begins in the root directory. -/
def locateFile (text : String) : String :=
  match config.root with
  | some root => FilePath.join root text
  | none => text

/-- All queries of a path agree on what there is. -/
structure Finds (finding : Finding) : Prop where
  /-- A scalar that is found is the one that is stored at the path. -/
  stored : ∀ scalar, finding = .leaf scalar →
    config.source.value? (config.fullPath path) = some scalar
  contains_eq : config.contains path = finding.isPresent
  tree : finding.AdmitsTree (config.get? path)
  string_eq : config.getString? path =
    finding.typed (config.fullPath path) "string" fun scalar => some scalar.text
  int64_eq : config.getInt64? path =
    finding.typed (config.fullPath path) "integer" Scalar.toInt64?
  float_eq : config.getFloat? path = finding.typed (config.fullPath path) "float" Scalar.toFloat?
  bool_eq : config.getBool? path = finding.typed (config.fullPath path) "boolean" Scalar.toBool?
  bytes_eq : config.getBytes? path = finding.typed (config.fullPath path) "bytes" Scalar.toBytes?
  file_eq : config.getFile? path = finding.typed (config.fullPath path) "string" fun scalar =>
    some (config.locateFile scalar.text)

/-- A typed getter gives what is found, if it reads a scalar as the getter of the type does. -/
theorem readLeaf_eq_typed {α : Type} {expected : String} (read : Scalar → Option α)
    {take : Reader Node → Except Error α × Reader Node}
    (htake : ∀ after scalar place, (take ⟨after, .ofLocated ⟨.value scalar, place⟩⟩).1.map some =
      (Finding.leaf scalar).typed place expected read) :
    config.readLeaf path expected take =
      (Finding.ofSource config.source (config.fullPath path)).typed (config.fullPath path) expected
        read := by
  obtain ⟨reader, after, hresolve, hnext⟩ :=
    exists_next_resolve config.source (config.fullPath path)
  simp only [readLeaf, stream, hresolve, bind, Except.bind, hnext]
  cases Finding.ofSource config.source (config.fullPath path) with
  | leaf scalar => exact htake after scalar (config.fullPath path)
  | absent | mapping | sequence => rfl

/-- Reading the whole tree gives one of the kind that is found, unless it goes too deep. -/
theorem admitsTree_get? : (Finding.ofSource config.source (config.fullPath path)).AdmitsTree
    (config.get? path) := by
  rcases exists_holds_or_firstDeep config path with ⟨tree, hholds, hget⟩ | ⟨parent, hparent, hget⟩
  · rw [hget]
    exact Finding.admitsTree_of_holds hholds
  · rw [hget]
    -- there are chains that are too long, so the path has children
    refine Finding.admitsTree_tooDeep (fun hkeys => ?_) _
    exact hparent.not_forall_le (Chain.forall_le_of_keys_eq_nil hkeys maxDepth)

/-- Right behind a scalar, a typed read gives what the getter of its type gives for the scalar. -/
theorem map_readAs_ofLocated {α : Type} (expected : String) (read : Scalar → Option α)
    (after : Node) (scalar : Scalar) (place : String) :
    (TokenStream.readAs expected read
      (⟨after, .ofLocated ⟨.value scalar, place⟩⟩ : Reader Node)).1.map some =
        (Finding.leaf scalar).typed place expected read := by
  have hscalar : TokenStream.readScalar
      (⟨after, .ofLocated ⟨.value scalar, place⟩⟩ : Reader Node) =
        (.ok scalar, ⟨after, ⟨place, .taken⟩⟩) := rfl
  rw [TokenStream.readAs, hscalar, Finding.typed]
  cases hread : read scalar <;> simp [Except.bind, Except.map, hread, TokenStream.currentPath]

/-- All queries find what the sources have at the full path. -/
theorem finds_ofSource : config.Finds path (.ofSource config.source (config.fullPath path)) := by
  -- every scalar has a text, so reading it never fails
  have hstring : config.getString? path = _ :=
    config.readLeaf_eq_typed path (fun scalar => some scalar.text) fun _ _ _ => rfl
  have hfile : config.getFile? path =
      (config.getString? path).map (Option.map config.locateFile) := by
    rw [getFile?]
    cases config.getString? path <;> rfl
  constructor
  case stored => exact fun scalar => Finding.value?_of_ofSource_eq_leaf
  case contains_eq => exact (Finding.isPresent_ofSource _ _).symm
  case tree => exact config.admitsTree_get? path
  case string_eq => exact hstring
  case file_eq =>
    rw [hfile, hstring]
    cases Finding.ofSource config.source (config.fullPath path) <;> rfl
  all_goals exact config.readLeaf_eq_typed path _ (map_readAs_ofLocated _ _)

/-- Two findings of one path are the same. -/
theorem Finds.unique {config : Config} {path : String} {finding other : Finding}
    (h : config.Finds path finding) (h' : config.Finds path other) : finding = other := by
  have hstring := h.string_eq.symm.trans h'.string_eq
  cases finding with
  | leaf scalar =>
    cases other with
    -- different scalars may have one text, but they are different trees
    | leaf scalar' =>
      have htree : (Except.ok (some (Value.scalar scalar)) : Except Error (Option Value)) =
        .ok (some (.scalar scalar')) := h.tree.symm.trans h'.tree
      simpa using htree
    | absent | mapping | sequence => simp [Finding.typed] at hstring
  | absent | mapping | sequence =>
    cases other <;> simp [Finding.typed, Error.typeCoercion] at hstring ⊢

/-- A path is absent, a scalar, a mapping or a sequence to all queries, and only one of these. -/
theorem existsUnique_finds : ∃! finding, config.Finds path finding :=
  ⟨_, config.finds_ofSource path, fun _ h => h.unique (config.finds_ofSource path)⟩

end Config

end LayeredConfig
