import LayeredConfig.Proofs.Config.Load
import LayeredConfig.Proofs.Config.Query
import LayeredConfig.Proofs.Source.Assign

/-!
# Precedence

A configuration is built from layers: the environment, the inputs from the last one to the first,
and the properties. `ConfigBuilder.build_precedence` says what the layers make of a path. If one of
them has segments below it, then the path resolves to a list or a map of the segments of all layers
(`Branch`), each at the place where the highest layer that has it puts it. Otherwise the first layer
that stores a scalar at the path decides.
-/

namespace LayeredConfig

open Resolution

/-- What a path with children resolves to: the list of them in index order if all of them write an
index, and the map of them in the given order otherwise. -/
inductive Resolution.Branch (source : Source) (path : String) (keys : List String) :
    Reader Node → Prop
  | list {ordered : List String} (hall : AllIndexes keys) (horder : IndexOrder keys ordered) :
      Branch source path keys ⟨⟨source, .list, .listStart path 0 ordered⟩, .initial path⟩
  | map (hall : ¬ AllIndexes keys) :
      Branch source path keys ⟨⟨source, .map, .mapStart path 0 keys⟩, .initial path⟩

/-- A path with children resolves to the list or the map of them, whatever is stored at it. -/
theorem Resolution.exists_branch {source : Source} {path : String}
    (hkeys : source.keys path ≠ []) : ∃ reader, Node.resolve source path = .ok reader ∧
      Branch source path (source.keys path) reader := by
  by_cases hall : AllIndexes (source.keys path)
  · obtain ⟨ordered, horder⟩ := hall.exists_indexOrder
    exact ⟨_, resolve_of_resolveAt (resolveAt_of_indexOrder (Nat.zero_le _) hkeys hall horder),
      .list hall horder⟩
  · exact ⟨_, resolve_of_resolveAt (resolveAt_of_not_allIndexes (Nat.zero_le _) hkeys hall),
      .map hall⟩

/-! ### Merged layers -/

namespace Source

variable {layers : List Source} {path : String}

theorem keys_merge (layers : List Source) (path : String) :
    (merge layers).keys path = (layers.flatMap (·.keys path)).eraseDups :=
  OrderedMap.distinct_eq_eraseDups _

/-- A path has segments below it in a stack if it has some in one of the layers. -/
theorem keys_merge_eq_nil_iff :
    (merge layers).keys path = [] ↔ ∀ layer ∈ layers, layer.keys path = [] := by
  simp only [List.eq_nil_iff_forall_not_mem, mem_keys_merge, not_exists, not_and]
  exact ⟨fun h layer hlayer key => h key layer hlayer, fun h key layer hlayer => h layer hlayer key⟩

theorem value?_merge_eq_none_iff :
    (merge layers).value? path = none ↔ ∀ layer ∈ layers, layer.value? path = none :=
  List.findSome?_eq_none_iff

end Source

namespace Config

variable {config : Config} {path : String}

theorem fullPath_eq_self (hscope : config.scopePath = "") (path : String) :
    config.fullPath path = path := by
  rw [fullPath, hscope]
  split
  next hempty => exact hempty.symm
  next => rfl

/-- A path with segments below it in one of the layers is a list or a map of those of all layers. -/
theorem exists_branch_stream (hscope : config.scopePath = "")
    (hkeys : ∃ layer ∈ config.sources, layer.keys path ≠ []) :
    ∃ reader, config.stream path = .ok reader ∧
      Branch config.source path (config.sources.flatMap (·.keys path)).eraseDups reader := by
  obtain ⟨layer, hlayer, hne⟩ := hkeys
  rw [← Source.keys_merge, stream, fullPath_eq_self hscope]
  apply exists_branch
  exact fun hnil => hne (Source.keys_merge_eq_nil_iff.1 hnil layer hlayer)

/-- A path without segments below it is the scalar at it, if there is one. -/
theorem get?_of_keys_eq_nil (hscope : config.scopePath = "")
    (hkeys : ∀ layer ∈ config.sources, layer.keys path = []) :
    config.get? path = .ok ((config.source.value? path).map .scalar) := by
  rw [← Source.keys_merge_eq_nil_iff] at hkeys
  have hget : ∀ tree, Holds config.source path tree →
      config.get? path = .ok (if tree.isNull then none else some tree) := by
    intro tree hholds
    apply get?_of_holds
    · rwa [fullPath_eq_self hscope]
    · rw [fullPath_eq_self hscope]
      exact Chain.forall_le_of_keys_eq_nil hkeys maxDepth
  cases hvalue : config.source.value? path with
  | none => exact hget _ (.null hkeys hvalue)
  | some leaf => exact hget _ (.scalar hkeys hvalue)

end Config

/-! ### Built configurations -/

namespace ConfigBuilder

variable {builder : ConfigBuilder} {disk : Disk} {config : Config}

/-- The layers of a configuration whose inputs are loaded, highest precedence first. -/
def layers (builder : ConfigBuilder) (loaded : List (List Source)) : List Source :=
  builder.environment.toSource :: (loaded.flatten.reverse ++ [builder.propertySource])

/-- Building a configuration loads its inputs and stacks up the layers. -/
theorem build_eq_ok_iff : builder.build disk = .ok config ↔
    ∃ loaded, List.Forall₂ (fun input sources => Input.load disk input = .ok sources)
        builder.inputs loaded ∧
      config = { sources := builder.layers loaded, root := builder.root } := by
  have hlayers : ∀ loaded : List (List Source),
      (builder.propertySource :: loaded.flatten ++ [builder.environment.toSource]).reverse =
        builder.layers loaded := by
    intro loaded
    simp [layers]
  simp only [build, hlayers, ← mapM_eq_ok_iff]
  cases builder.inputs.mapM (Input.load disk) with
  | error error => simp [bind, Except.bind]
  | ok loaded => simp [bind, Except.bind, eq_comm]

/-- In a built configuration a path with segments below it in one of the layers is a list or a map
of the segments of all layers, whatever scalars are stored at it. Any other path is the scalar of
the first layer that stores one there. -/
theorem build_precedence (h : builder.build disk = .ok config) :
    ∃ loaded, List.Forall₂ (Input.Supplies disk) builder.inputs loaded ∧ ∀ path,
      ((∃ layer ∈ builder.layers loaded, layer.keys path ≠ []) →
        ∃ reader, config.stream path = .ok reader ∧ Branch config.source path
          ((builder.layers loaded).flatMap (·.keys path)).eraseDups reader) ∧
      ((∀ layer ∈ builder.layers loaded, layer.keys path = []) →
        (∀ leaf, config.get? path = .ok (some (.scalar leaf)) ↔ ∃ higher layer lower,
          builder.layers loaded = higher ++ layer :: lower ∧ layer.value? path = some leaf ∧
            ∀ other ∈ higher, other.value? path = none) ∧
        (config.get? path = .ok none ↔
          ∀ layer ∈ builder.layers loaded, layer.value? path = none)) := by
  obtain ⟨loaded, hloaded, rfl⟩ := build_eq_ok_iff.1 h
  refine ⟨loaded, hloaded.imp fun _ _ => Input.supplies_of_load, fun path => ⟨?_, ?_⟩⟩
  · intro hkeys
    exact Config.exists_branch_stream rfl hkeys
  · intro hkeys
    rw [Config.get?_of_keys_eq_nil rfl hkeys, ← Source.value?_merge_eq_none_iff]
    constructor
    · intro leaf
      rw [← value?_merge_eq_some_iff, Except.ok.injEq, Option.map_eq_some_iff]
      simp [Config.source]
    · rw [Except.ok.injEq, Option.map_eq_none_iff]
      rfl

/-- A map with a text in the place of the hosts. -/
def hostMap : Source :=
  (Store.ofMap [("hosts", .string "none"), ("name", .string "local")]).toSource "map"

/-- A list of hosts in a document, an optional file that is missing and the map without the list,
between properties and an environment with one more host each. -/
def hostBuilder : ConfigBuilder where
  properties := [("hosts.2", .string "c"), ("name", .string "default")]
  inputs := [.text "base" "hosts: [a, b], name: base", .file (.optional "site.conf"),
    .source hostMap]
  environment := .ofList [("HOSTS_3", "d")]

/-- The document with the hosts, by their indexes. -/
def hostDocument : DocumentSource :=
  ⟨"base", .ofMap [("hosts.0", .string "a"), ("hosts.1", .string "b"), ("name", .string "base")]⟩

theorem parse_hostDocument :
    DocumentSource.parse "base" "hosts: [a, b], name: base" = .ok hostDocument := by
  have run : Run EventSource.next (.ofText "hosts: [a, b], name: base")
      [⟨.key "hosts", "hosts"⟩, ⟨.listStart, "hosts"⟩, ⟨.value (.string "a"), "hosts.0"⟩,
        ⟨.value (.string "b"), "hosts.1"⟩, ⟨.listEnd, "hosts"⟩, ⟨.key "name", "name"⟩,
        ⟨.value (.string "base"), "name"⟩]
      (⟨"hosts: [a, b], name: base".toList, [], .object (some "name"), [], false⟩ :
        Document.Parser) := by
    decide +kernel
  have hassign : DocumentSource.assignAll [] (.ofText "hosts: [a, b], name: base") =
      .ok [("hosts.0", .string "a"), ("hosts.1", .string "b"), ("name", .string "base")] := by
    rw [DocumentSource.assignAll_of_run run (by decide)]
    exact DocumentSource.assignAll_of_next_end (Document.Parser.next_end rfl rfl) _
  rw [DocumentSource.parse, hassign]
  rfl

theorem supplies_hostBuilder {loaded : List (List Source)}
    (h : List.Forall₂ (Input.Supplies .empty) hostBuilder.inputs loaded) :
    loaded = [[hostDocument.toSource], [], [hostMap]] := by
  cases h with
  | cons htext h =>
    cases h with
    | cons hfile h =>
      cases h with
      | cons hsource h =>
        cases h
        cases htext with
        | text hparse =>
          cases hsource
          obtain rfl := Except.ok.inj (parse_hostDocument.symm.trans hparse)
          cases hfile with
          | missing => rfl
          | file hlies =>
            -- the file is missing, so it has no text
            obtain ⟨text, hread, -⟩ := hlies
            have hnone : Disk.empty.readText "site.conf" = .error .notFound := by rfl
            exact absurd (hnone.symm.trans hread) (by simp)

/-- The four hosts form a list, and the name is that of the map. -/
theorem build_precedence_hostBuilder : ∃ config, hostBuilder.build .empty = .ok config ∧
    (∃ reader, config.stream "hosts" = .ok reader ∧
      reader.events.cursor = .listStart "hosts" 0 ["0", "1", "2", "3"]) ∧
    config.get? "name" = .ok (some (.scalar (.string "local"))) := by
  have hload : List.Forall₂ (fun input sources => Input.load .empty input = .ok sources)
      hostBuilder.inputs [[hostDocument.toSource], [], [hostMap]] := by
    refine .cons ?_ (.cons ?_ (.cons rfl .nil))
    · rw [Input.load, parse_hostDocument]
      rfl
    · rw [Input.load, if_pos (by decide +kernel)]
  have hbuild := build_eq_ok_iff.2 ⟨_, hload, rfl⟩
  obtain ⟨loaded, hloaded, hpaths⟩ := build_precedence hbuild
  obtain rfl := supplies_hostBuilder hloaded
  refine ⟨_, hbuild, ?_, ?_⟩
  · obtain ⟨reader, hstream, hbranch⟩ := (hpaths "hosts").1 (by decide)
    refine ⟨reader, hstream, ?_⟩
    rw [show ((hostBuilder.layers [[hostDocument.toSource], [], [hostMap]]).flatMap
      (·.keys "hosts")).eraseDups = ["3", "0", "1", "2"] by decide] at hbranch
    cases hbranch with
    | list hall horder =>
      show Cursor.listStart "hosts" 0 _ = _
      rw [Path.eq_numbers_of_indexOrder horder hall (show List.Perm _ (Path.numbers 4) by decide)]
      rfl
    | map hnot => exact absurd (by decide) hnot
  · refine (((hpaths "name").2 (by decide)).1 _).2
      ⟨[hostBuilder.environment.toSource], hostMap, _, rfl, by decide, by decide⟩

end ConfigBuilder

end LayeredConfig
