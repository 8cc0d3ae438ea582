import LayeredConfig.Path
import LayeredConfig.Source

/-!
# Stores with an index of children

A store keeps scalars by path together with the segments below every path that has any. The index is
built once, from the paths in their order. A path with an empty segment is stored but not indexed.
-/

namespace LayeredConfig

/-- For each segment of a list, the path before it below `parent` and the segment itself. -/
def Path.steps (parent : String) : List String → List (String × String)
  | [] => []
  | segment :: rest => (parent, segment) :: steps (Path.join parent segment) rest

/-- Scalars by path and the index of their segments. -/
structure Store where
  /-- The scalars by path. -/
  values : OrderedMap Scalar
  /-- The segments directly below every path that has any. -/
  children : OrderedMap (List String)

namespace Store

/-- The index with one more segment below a path. -/
def addChild (children : OrderedMap (List String)) (step : String × String) :
    OrderedMap (List String) :=
  OrderedMap.insert children step.1
    (OrderedMap.insertKey ((OrderedMap.get? children step.1).getD []) step.2)

/-- The index with all segments of a path. -/
def addPath (children : OrderedMap (List String)) (path : String) : OrderedMap (List String) :=
  if Path.isIndexable path then
    (Path.steps "" (Path.split path)).foldl addChild children
  else
    children

/-- The store of a map from paths to scalars. -/
def ofMap (values : OrderedMap Scalar) : Store :=
  ⟨values, (OrderedMap.keys values).foldl addPath []⟩

/-- The number of stored paths. -/
def size (store : Store) : Nat := store.values.length

/-- The stored paths in order. -/
def paths (store : Store) : List String := OrderedMap.keys store.values

/-- The store as a source. -/
def toSource (store : Store) (name : String) : Source where
  name := name
  value? path := OrderedMap.get? store.values path
  keys path := (OrderedMap.get? store.children path).getD []

end Store

end LayeredConfig
