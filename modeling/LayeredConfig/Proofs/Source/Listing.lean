import LayeredConfig.Proofs.Source.Assign
import LayeredConfig.Proofs.Source.Index

/-!
# Listing by a plain scan

The index of a store is built once, segment by segment, and then looked up by the text of a path. A
plain scan needs no index: it goes through the stored paths in order and strips the text of the
path from each of them (`scan`). Both list the same segments in the same order below every path, for
every map of values and for every document that is read (`keys_eq_scan`).
-/

namespace LayeredConfig.Store

open DocumentSource (parse)

/-- The segments that a scan of the paths finds directly below `parent`, each at the place where it
first comes. Paths that are empty or have an empty segment are passed over. -/
def scan (paths : List String) (parent : String) : List String :=
  ((paths.filter fun path => path ≠ "" ∧ "" ∉ Path.split path).filterMap
    (Path.childSegment? · parent)).eraseDups

/-- A path is in the index exactly if the scan does not pass over it. -/
theorem isIndexable_iff {path : String} :
    Path.isIndexable path ↔ path ≠ "" ∧ "" ∉ Path.split path := by
  constructor
  · intro h
    exact ⟨Path.ne_empty_of_isIndexable h, fun hmem =>
      (Path.isName_of_isIndexable h "" hmem).1 rfl⟩
  · rintro ⟨-, hsplit⟩
    rw [Path.isIndexable, List.all_eq_true]
    intro segment hmem
    simpa using fun heq : segment = "" => hsplit (heq ▸ hmem)

theorem filter_isIndexable (paths : List String) : paths.filter Path.isIndexable =
    paths.filter fun path => path ≠ "" ∧ "" ∉ Path.split path := by
  refine List.filter_congr fun path _ => ?_
  rw [Bool.eq_iff_iff, isIndexable_iff, decide_eq_true_iff]

/-- Below every path, maps of values and documents list what a scan of their stored paths finds. -/
theorem keys_eq_scan (parent : String) :
    (∀ (values : OrderedMap Scalar) (name : String),
      ((ofMap values).toSource name).keys parent = scan (OrderedMap.keys values) parent) ∧
    ∀ (name text : String) (document : DocumentSource), parse name text = .ok document →
      document.toSource.keys parent = scan document.store.paths parent := by
  have hmap : ∀ (values : OrderedMap Scalar) (name : String),
      ((ofMap values).toSource name).keys parent = scan (OrderedMap.keys values) parent := by
    intro values name
    rw [keys_toSource, OrderedMap.distinct_eq_eraseDups, filter_isIndexable, scan]
  refine ⟨hmap, fun name text document h => ?_⟩
  rw [DocumentSource.eq_ofMap_of_parse h]
  exact hmap document.store.values name

/-- A document with an object that is declared in two places, a name that begins like the one of the
object, and a path with an empty segment. -/
def scattered : DocumentSource :=
  ⟨"doc", .ofMap [("a.b", .integer 5), ("ab", .integer 2), ("a..d", .integer 3),
    ("a.c", .integer 4)]⟩

theorem parse_scattered :
    parse "doc" "a.b: 1, ab: 2, a..d: 3, a: {c: 4}, a.b: 5" = .ok scattered := by
  have run : Run EventSource.next (.ofText "a.b: 1, ab: 2, a..d: 3, a: {c: 4}, a.b: 5")
      [⟨.key "a.b", "a.b"⟩, ⟨.value (.integer 1), "a.b"⟩, ⟨.key "ab", "ab"⟩,
        ⟨.value (.integer 2), "ab"⟩, ⟨.key "a..d", "a..d"⟩, ⟨.value (.integer 3), "a..d"⟩,
        ⟨.key "a", "a"⟩, ⟨.objectStart, "a"⟩, ⟨.key "c", "a.c"⟩, ⟨.value (.integer 4), "a.c"⟩,
        ⟨.objectEnd, "a"⟩, ⟨.key "a.b", "a.b"⟩, ⟨.value (.integer 5), "a.b"⟩]
      (⟨"a.b: 1, ab: 2, a..d: 3, a: {c: 4}, a.b: 5".toList, [], .object (some "a.b"), [], false⟩ :
        Document.Parser) := by
    decide +kernel
  have hassign : DocumentSource.assignAll []
      (.ofText "a.b: 1, ab: 2, a..d: 3, a: {c: 4}, a.b: 5") = .ok scattered.store.values := by
    rw [DocumentSource.assignAll_of_run run (by decide)]
    exact DocumentSource.assignAll_of_next_end (Document.Parser.next_end rfl rfl) _
  rw [parse, hassign]
  rfl

theorem keys_eq_scan_scattered :
    parse "doc" "a.b: 1, ab: 2, a..d: 3, a: {c: 4}, a.b: 5" = .ok scattered ∧
      scattered.toSource.keys "a" = ["b", "c"] ∧ scattered.toSource.keys "a." = [] := by
  have hlist := (keys_eq_scan "a").2 _ _ _ parse_scattered
  have hnone := (keys_eq_scan "a.").2 _ _ _ parse_scattered
  exact ⟨parse_scattered, hlist.trans (by decide), hnone.trans (by decide)⟩

end LayeredConfig.Store
