import LayeredConfig.Proofs.OrderedMap
import LayeredConfig.Resolution.Node

/-!
# Stacks in stacks

A merged stack is a source, so it can be a layer of another stack. `SourceTree` is what can be built
in this way, to any depth. How the layers are grouped does not show: a tree answers like the flat
stack of its leaves, and resolves to the same nodes (`answers_like_leaves`). For scalars this is so
because the first answer of a list of lists is the first answer of their concatenation, and for the
segments below a path because it does not matter when repetitions are removed, as each removal
leaves the first occurrence.
-/

namespace LayeredConfig

open Resolution

/-- A source, or a stack of layers each of which is such a tree again. -/
inductive SourceTree where
  /-- A source of any kind. -/
  | leaf (source : Source)
  /-- A stack, highest precedence first. -/
  | stack (layers : List SourceTree)

/-- Stacks with the same first scalars and the same segments, up to repetitions, are one source. -/
theorem Source.merge_eq_merge {sources others : List Source}
    (hvalue : ∀ path, sources.findSome? (·.value? path) = others.findSome? (·.value? path))
    (hkeys : ∀ path, OrderedMap.distinct (sources.flatMap (·.keys path)) =
      OrderedMap.distinct (others.flatMap (·.keys path))) : merge sources = merge others := by
  simp only [merge, hvalue, hkeys]

namespace SourceTree

/-- The source that a tree stands for: every stack in it is merged. -/
def toSource : SourceTree → Source
  | leaf source => source
  | stack layers => .merge (layers.map toSource)

/-- The sources at the leaves, from left to right. -/
def leaves : SourceTree → List Source
  | leaf source => [source]
  | stack layers => layers.flatMap leaves

variable {layers : List SourceTree} {path : String}

/-- Layers that answer from their leaves have the first scalar of all their leaves. -/
theorem findSome?_map_toSource (h : ∀ layer ∈ layers,
      layer.toSource.value? path = layer.leaves.findSome? (·.value? path)) :
    (layers.map toSource).findSome? (·.value? path) =
      (layers.flatMap leaves).findSome? (·.value? path) := by
  induction layers with
  | nil => rfl
  | cons layer layers ih =>
    rw [List.forall_mem_cons] at h
    rw [List.map_cons, List.findSome?_cons, h.1, List.flatMap_cons, List.findSome?_append, ih h.2]
    -- the layers below matter only if no leaf of this one has a scalar
    cases layer.leaves.findSome? (·.value? path) <;> rfl

/-- Layers that list the segments of their leaves list those of all their leaves. -/
theorem distinct_flatMap_map_toSource (h : ∀ layer ∈ layers,
      OrderedMap.distinct (layer.toSource.keys path) =
        OrderedMap.distinct (layer.leaves.flatMap (·.keys path))) :
    OrderedMap.distinct ((layers.map toSource).flatMap (·.keys path)) =
      OrderedMap.distinct ((layers.flatMap leaves).flatMap (·.keys path)) := by
  rw [List.flatMap_map, List.flatMap_assoc]
  exact OrderedMap.distinct_flatMap_congr h

/-- The scalar of a tree is the first one that a leaf stores. -/
theorem value?_toSource (tree : SourceTree) (path : String) :
    tree.toSource.value? path = tree.leaves.findSome? (·.value? path) := by
  induction tree using toSource.induct with
  | case1 source => simp [toSource, leaves]
  | case2 layers ih =>
    rw [toSource, leaves]
    exact findSome?_map_toSource ih

/-- The segments of a tree are those of its leaves, up to repetitions. -/
theorem distinct_keys_toSource (tree : SourceTree) (path : String) :
    OrderedMap.distinct (tree.toSource.keys path) =
      OrderedMap.distinct (tree.leaves.flatMap (·.keys path)) := by
  induction tree using toSource.induct with
  | case1 source => simp [toSource, leaves]
  | case2 layers ih =>
    rw [toSource, leaves, ← distinct_flatMap_map_toSource ih]
    -- a merged stack lists no segment twice already
    exact OrderedMap.distinct_eq_self (OrderedMap.nodup_distinct _)

/-- A stack of trees and the flat stack of its leaves are one source. -/
theorem toSource_stack (layers : List SourceTree) :
    (stack layers).toSource = .merge (stack layers).leaves := by
  rw [toSource, leaves]
  apply Source.merge_eq_merge
  · exact fun path => findSome?_map_toSource fun layer _ => layer.value?_toSource path
  · exact fun path => distinct_flatMap_map_toSource fun layer _ => layer.distinct_keys_toSource path

/-- At every path a stack of stacks has the scalar and the segments, in their order, of the flat
stack of its leaves, and it resolves to the same node, from which the same stream is read. -/
theorem answers_like_leaves (layers : List SourceTree) (path : String) :
    (stack layers).toSource.value? path = (Source.merge (stack layers).leaves).value? path ∧
      (stack layers).toSource.keys path = (Source.merge (stack layers).leaves).keys path ∧
      Node.resolve (stack layers).toSource path =
        Node.resolve (.merge (stack layers).leaves) path := by
  rw [toSource_stack]
  exact ⟨rfl, rfl, rfl⟩

end SourceTree

end LayeredConfig
