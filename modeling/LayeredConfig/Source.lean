import LayeredConfig.OrderedMap
import LayeredConfig.Scalar

/-!
# Sources

A source answers two questions about a path: which scalar is stored at it, and which segments lie
directly below it. Trees, merging and typed reads are built on these two answers.

`Source.merge` stacks sources: the first source that stores a scalar decides its value, and the
segments below a path are those of all sources, each at the place where it first comes.
-/

namespace LayeredConfig

/-- A store of scalars by path. -/
structure Source where
  /-- A short description. -/
  name : String
  /-- The scalar stored at a path. -/
  value? : String → Option Scalar
  /-- The segments directly below a path, in order. -/
  keys : String → List String

namespace Source

/-- The source that answers from the first of several sources that can. -/
def merge (sources : List Source) : Source where
  name := "merged"
  value? path := sources.findSome? (·.value? path)
  keys path := OrderedMap.distinct (sources.flatMap (·.keys path))

/-- Something is stored at or below a path. -/
def contains (source : Source) (path : String) : Bool :=
  source.keys path ≠ [] || (source.value? path).isSome

/-- The text that stands for a source in listings. -/
def label (source : Source) : String := "ConfigSource(" ++ source.name ++ ")"

end Source

end LayeredConfig
