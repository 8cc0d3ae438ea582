import LayeredConfig.Config.Builder
import LayeredConfig.Proofs.Config.Tree
import LayeredConfig.Proofs.Source.Assign
import LayeredConfig.Proofs.Source.Stack
import LayeredConfig.Proofs.Source.Tree

/-!
# Reloading a configuration

A configuration that is written as a JSON text and loaded again is the same tree
(`Config.toValue_reload`). The first load may change much: of a path that is a leaf in one source
and has children in another the leaf is hidden, and lists are closed up and numbered anew. What
comes out of it is a tidy tree, and a tidy tree stays as it is.
-/

namespace LayeredConfig

open Resolution

/-! ### A single document -/

/-- The sources of a configuration that is loaded from a single document. -/
def documentSources (document : DocumentSource) : List Source :=
  [(Environment.ofList []).toSource, document.toSource, (Store.ofMap []).toSource "properties"]

/-- Loading a single document without an environment and properties. -/
theorem ConfigBuilder.build_text {name text : String} {document : DocumentSource}
    (h : DocumentSource.parse name text = .ok document) (disk : Disk) :
    ((({} : ConfigBuilder).withEnvironment (.ofList [])).addInput (.text name text)).build disk =
      .ok { sources := documentSources document } := by
  have hload : Input.load disk (.text name text) = .ok [document.toSource] := by
    rw [Input.load, h]
    rfl
  have hinputs : [Input.text name text].mapM (Input.load disk) = .ok [[document.toSource]] := by
    rw [List.mapM_cons, hload]
    rfl
  rw [build]
  exact congrArg (· >>= _) hinputs

/-- The scalars of a single document are those that it stores. -/
theorem value?_documentSources (document : DocumentSource) (path : String) :
    (Source.merge (documentSources document)).value? path = document.toSource.value? path := by
  -- the other two sources store nothing
  have henvironment : (Environment.ofList []).toSource.value? path = none := rfl
  have hproperties : ((Store.ofMap []).toSource "properties").value? path = none := rfl
  show (documentSources document).findSome? (·.value? path) = _
  rw [documentSources, List.findSome?_cons, henvironment]
  cases hvalue : document.toSource.value? path with
  | none => simp [hvalue, hproperties]
  | some leaf => simp [hvalue]

/-- The segments below a path in a single document are those of its index. -/
theorem keys_documentSources (document : DocumentSource) (path : String) :
    (Source.merge (documentSources document)).keys path =
      OrderedMap.distinct (document.toSource.keys path) := by
  -- the other two sources have no segments below any path
  have hsources : (documentSources document).flatMap (·.keys path) = document.toSource.keys path :=
    List.append_nil _
  rw [← hsources]
  rfl

/-- A document that stores the scalars of a tidy tree stores the tree. -/
theorem storesTree_documentSources {value : Value} (h : Value.Tidy 0 value)
    (hroot : value.IsContainer) (name : String) :
    StoresTree (Source.merge (documentSources ⟨name, .ofMap (Value.scalars "" value)⟩)) []
      value where
  value?_eq := by
    intro entry hentry
    rw [value?_documentSources]
    exact (OrderedMap.get?_eq_some_iff (h.storable.nodup_scalars (by simp))).2 hentry
  keys_eq := by
    intro more _
    -- all scalars lie in a child, at a path of names
    have hindexable : ∀ path ∈ OrderedMap.keys (Value.scalars "" value), Path.isIndexable path := by
      intro path hpath
      obtain ⟨entry, hentry, rfl⟩ := List.mem_map.1 hpath
      have hnames : ∀ segment ∈ ([] : List String), Path.IsName segment := by simp
      rw [Value.scalars_of_isContainer hroot, List.mem_flatMap] at hentry
      obtain ⟨child, hchild, hentry⟩ := hentry
      exact (h.storable.split_scalars_child hnames hchild entry hentry).1
    rw [keys_documentSources, DocumentSource.toSource, Store.keys_toSource,
      List.filter_eq_self.2 hindexable, OrderedMap.distinct_eq_self (OrderedMap.nodup_distinct _)]
    rfl

/-- Everything in a single document that was written from a tidy tree is the tree. -/
theorem toValue_documentSources {value : Value} (h : Value.Tidy 0 value) (hroot : value.IsContainer)
    (name : String) : ({ sources := documentSources ⟨name, .ofMap (Value.scalars "" value)⟩ } :
      Config).toValue = .ok value := by
  obtain ⟨hholds, hchain⟩ := (storesTree_documentSources h hroot name).holds h (by simp)
  refine Config.toValue_eq_ok_iff.2 ⟨value, hholds, ?_, ?_⟩
  · intro n last hn
    simpa using hchain n last hn
  · obtain ⟨items, rfl⟩ | ⟨entries, rfl⟩ := hroot
    · rfl
    · rfl

/-! ### Reloading -/

/-- A list or an object in the scope of a configuration of stored values is tidy, or empty. -/
theorem Config.tidy_of_toValue {config : Config} (h : ∀ source ∈ config.sources, IsStored source)
    (hplain : ∀ path leaf, config.source.value? path = some leaf → Document.IsPlain leaf)
    (hpaths : ∀ path, Path.isIndexable path → StoredIn config.sources path →
      pathKey ∉ Path.split path)
    {value : Value} (hvalue : config.toValue = .ok value) (hroot : value.IsContainer)
    (haddressable : value.Addressable) : Value.Tidy 0 value ∨ value = .mapping [] := by
  obtain ⟨tree, hholds, hchain, rfl⟩ := Config.toValue_eq_ok_iff.1 hvalue
  by_cases hkeys : config.source.keys config.scopePath = []
  · -- a scope without children is a null, as its scalar would not be a list or an object
    cases hholds with
    | scalar => obtain ⟨_, heq⟩ | ⟨_, heq⟩ := hroot <;> exact absurd heq (by simp [Value.isNull])
    | null => exact .inr rfl
    | sequence hne => exact absurd hkeys hne
    | mapping hne => exact absurd hkeys hne
  · obtain ⟨key, hkey⟩ := List.exists_mem_of_ne_nil _ hkeys
    obtain ⟨segments, hpath, hreached⟩ := exists_reached_of_mem_keys h hkey
    have htree : (if tree.isNull then Value.mapping [] else tree) = tree := by
      cases hholds with
      | null hnil => exact absurd hnil hkeys
      | _ => rfl
    rw [htree] at haddressable ⊢
    refine .inl (tidy_of_holds h hplain hpaths hreached hpath hholds ?_ haddressable)
    intro n last hn
    simpa using hchain n last hn

/-- A configuration of stored values that is written as a JSON text and loaded again is the same
tree, with the same order of entries and items. Its lists may have as many items as there are list
indexes, which all lists in memory keep to. -/
theorem Config.toValue_reload {config : Config} (h : ∀ source ∈ config.sources, IsStored source)
    (hplain : ∀ source ∈ config.sources, ∀ path leaf,
      source.value? path = some leaf → Document.IsPlain leaf)
    (hpaths : ∀ path, Path.isIndexable path → StoredIn config.sources path →
      pathKey ∉ Path.split path)
    {value : Value} (hvalue : config.toValue = .ok value) (hroot : value.IsContainer)
    (haddressable : value.Addressable) (disk : Disk) (name : String) :
    ∃ json reloaded, config.toJson = .ok json ∧
      ((({} : ConfigBuilder).withEnvironment (.ofList [])).addInput (.text name json)).build disk =
        .ok reloaded ∧ reloaded.toValue = .ok value := by
  have hjson : config.toJson = .ok (Json.pretty value) := by
    rw [Config.toJson, hvalue]
    rfl
  have hmerged : ∀ path leaf, config.source.value? path = some leaf → Document.IsPlain leaf := by
    intro path leaf hleaf
    obtain ⟨source, hsource, hleaf⟩ := List.exists_of_findSome?_eq_some hleaf
    exact hplain source hsource path leaf hleaf
  rcases Config.tidy_of_toValue h hmerged hpaths hvalue hroot haddressable with htidy | rfl
  · have hparse := DocumentSource.parse_pretty htidy hroot name
    exact ⟨_, _, hjson, ConfigBuilder.build_text hparse disk,
      toValue_documentSources htidy hroot name⟩
  -- an empty object is written, and loading it stores nothing
  · have hwritable : Value.Writable 0 (.mapping []) :=
      .mapping (Nat.zero_le maxDepth) List.nodup_nil (by simp [OrderedMap.keys]) (by simp)
    have hparse := DocumentSource.parse_write Json.separates_pretty hwritable hroot
      (by simp [Value.events, Value.entryEvents]) name
    refine ⟨_, _, hjson, ConfigBuilder.build_text hparse disk, Config.toValue_of_holds_null ?_⟩
    refine .null ?_ ?_
    · exact keys_documentSources _ ""
    · exact value?_documentSources _ ""

/-- A map with one host at the index 7 and a scalar in the place of the list of hosts, and a map
behind it with a port. -/
def hostConfig : Config where
  sources := [(Store.ofMap [("hosts.07", .string "a"), ("hosts", .bool true)]).toSource "local",
    (Store.ofMap [("port", .integer 80)]).toSource "site"]

/-- The tree of the hosts and the port. -/
def hostTree : Value :=
  .mapping [("hosts", .sequence [.scalar (.string "a")]), ("port", .scalar (.integer 80))]

theorem Config.toValue_hostConfig : hostConfig.toValue = .ok hostTree := by
  have hroot : hostConfig.source.keys "" = ["hosts", "port"] := by decide
  have hhosts : hostConfig.source.keys "hosts" = ["07"] := by decide
  have hhost : hostConfig.source.keys "hosts.07" = [] := by decide
  have hport : hostConfig.source.keys "port" = [] := by decide
  have hholdsHost : Holds hostConfig.source "hosts.07" (.scalar (.string "a")) :=
    .scalar hhost (by decide)
  have hholdsPort : Holds hostConfig.source "port" (.scalar (.integer 80)) :=
    .scalar hport (by decide)
  have hholdsHosts : Holds hostConfig.source "hosts" (.sequence [.scalar (.string "a")]) := by
    show Holds _ _ (.sequence (["07"].map fun _ => .scalar (.string "a")))
    refine .sequence ?_ ?_ ?_ ?_
    · simp [hhosts]
    · rw [hhosts]
      decide
    · rw [hhosts]
      exact ⟨List.pairwise_singleton _ _, fun _ => rfl⟩
    · rw [hhosts]
      simpa using show Holds hostConfig.source (Path.join "hosts" "07") _ from hholdsHost
  refine Config.toValue_eq_ok_iff.2 ⟨hostTree, ?_, ?_, rfl⟩
  · have htrees : ∀ key ∈ hostConfig.source.keys "", Holds hostConfig.source (Path.join "" key)
        (if key = "hosts" then .sequence [.scalar (.string "a")] else .scalar (.integer 80)) := by
      rw [hroot]
      simpa using ⟨hholdsHosts, hholdsPort⟩
    have hmapping := Holds.mapping (by simp [hroot]) (by rw [hroot]; decide) htrees
    rw [hroot] at hmapping
    exact hmapping
  · -- no chain goes on behind the host or the port
    refine Chain.forall_le_succ_iff.2 ?_
    rw [show hostConfig.scopePath = "" from rfl, hroot, List.forall_mem_cons,
      List.forall_mem_singleton]
    refine ⟨Chain.forall_le_succ_iff.2 ?_, Chain.forall_le_of_keys_eq_nil hport 127⟩
    rw [show Path.join "" "hosts" = "hosts" from rfl, hhosts, List.forall_mem_singleton]
    exact Chain.forall_le_of_keys_eq_nil hhost 126

/-- The configuration of the hosts is reloaded, with the host at the index 0. -/
theorem Config.toValue_reload_hostConfig :
    ∃ json reloaded, hostConfig.toJson = .ok json ∧
      ((({} : ConfigBuilder).withEnvironment (.ofList [])).addInput (.text "dump" json)).build
        .empty = .ok reloaded ∧ reloaded.toValue = .ok hostTree := by
  refine toValue_reload ?_ ?_ ?_ toValue_hostConfig (.inr ⟨_, rfl⟩) ?_ .empty "dump"
  · intro source hsource
    rcases List.mem_pair.1 hsource with rfl | rfl
    · exact .map _ _
    · exact .map _ _
  · intro source hsource path leaf hleaf
    rcases List.mem_pair.1 hsource with rfl | rfl
    · have hmem : (path, leaf) ∈ [("hosts.07", .string "a"), ("hosts", .bool true)] :=
        (OrderedMap.get?_eq_some_iff (by decide)).1 hleaf
      rcases List.mem_pair.1 hmem with heq | heq
      · exact (Prod.mk.inj heq).2 ▸ .string "a"
      · exact (Prod.mk.inj heq).2 ▸ .bool true
    · have hmem : (path, leaf) ∈ [("port", .integer 80)] :=
        (OrderedMap.get?_eq_some_iff (by decide)).1 hleaf
      exact (Prod.mk.inj (List.mem_singleton.1 hmem)).2 ▸ .integer 80
  · rintro path - ⟨source, hsource, hstored⟩
    have hpath : path ∈ ["hosts.07", "hosts", "port"] := by
      rcases List.mem_pair.1 hsource with rfl | rfl
      · exact List.mem_append_left _ (OrderedMap.isSome_get?_iff.1 hstored)
      · exact List.mem_append_right ["hosts.07", "hosts"] (OrderedMap.isSome_get?_iff.1 hstored)
    clear hstored
    revert path
    decide
  · have hhosts : Value.Addressable (.sequence [.scalar (.string "a")]) :=
      .sequence (by decide) (List.forall_mem_singleton.2 (.scalar _))
    exact .mapping (List.forall_mem_cons.2 ⟨hhosts, List.forall_mem_singleton.2 (.scalar _)⟩)

end LayeredConfig
