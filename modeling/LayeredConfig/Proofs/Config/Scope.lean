import LayeredConfig.Config
import LayeredConfig.Proofs.Path.Segments

/-!
# Scopes

A scope puts its path in front of the paths of all queries. Scopes of scopes put one path in front
of the other, where an empty path, the scope itself, leaves no separator behind.

* `Path.joinAll`: paths with separators between those that are not empty.
* `Config.fullPath_eq_joinAll`: a query in a scope adds one more path to those of the scope.
* `Config.answersLike_foldl_scope`: a scope of scopes answers like the whole configuration does at
  the joined path.
-/

namespace LayeredConfig

namespace Path

variable {paths : List String}

/-- The paths with separators between them; empty ones are left out. -/
def joinAll (paths : List String) : String := ".".intercalate (paths.filter (· ≠ ""))

/-- Texts that are not empty are not empty with separators between them. -/
theorem intercalate_ne_empty (hne : paths ≠ []) (hpaths : ∀ path ∈ paths, path ≠ "") :
    ".".intercalate paths ≠ "" := by
  obtain ⟨first, rest, rfl⟩ := List.exists_cons_of_ne_nil hne
  have hfirst := hpaths first (by simp)
  by_cases hrest : rest = []
  · rwa [hrest, String.intercalate_singleton]
  · rw [String.intercalate_cons_of_ne_nil hrest, String.append_assoc, Ne,
      String.append_eq_empty_iff]
    exact fun h => hfirst h.1

/-- One more path that is not empty becomes the last segments of the joined path. -/
theorem joinAll_append_singleton {path : String} (h : path ≠ "") :
    joinAll (paths ++ [path]) = join (joinAll paths) path := by
  rw [joinAll, joinAll, List.filter_append, List.filter_singleton, decide_eq_true h]
  by_cases hnil : paths.filter (· ≠ "") = []
  · rw [hnil, List.nil_append, join, if_pos String.intercalate_nil]
    exact String.intercalate_singleton
  · have hne := intercalate_ne_empty hnil fun path hpath => by
      simpa using (List.mem_filter.1 hpath).2
    rw [join, if_neg hne]
    exact String.intercalate_append_of_ne_nil hnil (by simp)

/-- An empty path is left out. -/
theorem joinAll_append_empty (paths : List String) : joinAll (paths ++ [""]) = joinAll paths := by
  rw [joinAll, joinAll, List.filter_append]
  simp

theorem joinAll_singleton (path : String) : joinAll [path] = path := by
  by_cases h : path = ""
  · subst h
    rfl
  · rw [← List.nil_append [path], joinAll_append_singleton h]
    rfl

end Path

namespace Config

variable {config view : Config} {path full : String} {paths : List String}

/-- A view answers all queries of a path like a configuration does at the full path. -/
structure AnswersLike (view config : Config) (path full : String) : Prop where
  stream_eq : view.stream path = config.stream full
  contains_eq : view.contains path = config.contains full
  get?_eq : view.get? path = config.get? full
  getString?_eq : view.getString? path = config.getString? full
  getInt64?_eq : view.getInt64? path = config.getInt64? full
  getFloat?_eq : view.getFloat? path = config.getFloat? full
  getBool?_eq : view.getBool? path = config.getBool? full
  getBytes?_eq : view.getBytes? path = config.getBytes? full
  getFile?_eq : view.getFile? path = config.getFile? full

/-- The answers depend on the sources, the root directory and the full path only. -/
theorem answersLike_of_fullPath_eq (hsources : view.sources = config.sources)
    (hroot : view.root = config.root) (hfull : view.fullPath path = config.fullPath full) :
    AnswersLike view config path full := by
  have hstream : view.stream path = config.stream full := by
    rw [stream, stream, source, source, hsources, hfull]
  have hread : ∀ {α : Type} (expected : String)
      (read : Reader Resolution.Node → Except Error α × Reader Resolution.Node),
      view.readLeaf path expected read = config.readLeaf full expected read := by
    intro α expected read
    rw [readLeaf, readLeaf, hstream, hfull]
  refine ⟨hstream, ?_, ?_, hread _ _, hread _ _, hread _ _, hread _ _, hread _ _, ?_⟩
  · rw [contains, contains, source, source, hsources, hfull]
  · rw [get?, get?, hstream]
  · rw [getFile?, getFile?, getString?, getString?, hread, hroot]

/-- In the scope of joined paths, the full path of a query has one more path joined. -/
theorem fullPath_eq_joinAll (h : view.scopePath = Path.joinAll paths) (path : String) :
    view.fullPath path = Path.joinAll (paths ++ [path]) := by
  rw [fullPath, h]
  split
  next hempty => rw [hempty, Path.joinAll_append_empty]
  next hne => rw [Path.joinAll_append_singleton hne]

/-- Scopes of a view keep its sources and its root directory, and join their paths to its own. -/
theorem foldl_scope (scopes : List String) (h : view.scopePath = Path.joinAll paths) :
    (scopes.foldl scope view).sources = view.sources ∧
      (scopes.foldl scope view).root = view.root ∧
      (scopes.foldl scope view).scopePath = Path.joinAll (paths ++ scopes) := by
  induction scopes generalizing view paths with
  | nil => exact ⟨rfl, rfl, by rw [List.append_nil]; exact h⟩
  | cons path rest ih =>
    rw [List.foldl_cons, List.append_cons]
    have hscope : (view.scope path).scopePath = Path.joinAll (paths ++ [path]) :=
      fullPath_eq_joinAll h path
    exact ih hscope

/-- A scope of scopes has the joined path of the scopes. It answers like the configuration without
any scope does at the joined path of the scopes and the query, and everything in it is the tree at
its own path, or an empty mapping if there is none. -/
theorem answersLike_foldl_scope (config : Config) (scopes : List String) :
    (scopes.foldl scope config).scopePath = Path.joinAll (config.scopePath :: scopes) ∧
      (∀ path, AnswersLike (scopes.foldl scope config) { config with scopePath := "" } path
        (Path.joinAll (config.scopePath :: scopes ++ [path]))) ∧
      (scopes.foldl scope config).toValue =
        (({ config with scopePath := "" } : Config).get?
          (Path.joinAll (config.scopePath :: scopes))).map (·.getD (.mapping [])) := by
  have hown : config.scopePath = Path.joinAll [config.scopePath] :=
    (Path.joinAll_singleton config.scopePath).symm
  have hwhole : ({ config with scopePath := "" } : Config).scopePath = Path.joinAll [] := rfl
  obtain ⟨hsources, hroot, hscope⟩ := foldl_scope scopes hown
  have hanswers : ∀ path, AnswersLike (scopes.foldl scope config) { config with scopePath := "" }
      path (Path.joinAll (config.scopePath :: scopes ++ [path])) := by
    intro path
    refine answersLike_of_fullPath_eq hsources hroot ?_
    rw [fullPath_eq_joinAll hscope, fullPath_eq_joinAll hwhole, List.nil_append,
      Path.joinAll_singleton]
    rfl
  refine ⟨hscope, hanswers, ?_⟩
  have hroot := (hanswers "").get?_eq
  rw [Path.joinAll_append_empty] at hroot
  rw [toValue, hroot]
  cases ({ config with scopePath := "" } : Config).get? _ <;> rfl

end Config

end LayeredConfig
