import LayeredConfig.Number.Digits
import LayeredConfig.Number.Power
import LayeredConfig.Text.Split

/-!
# Dotted paths

A path is a text whose segments are separated by `.`; the empty text is the root. Segments may be
empty, so `a..b` is a path with three segments, and two paths are the same only if their texts are.

* `join` appends a segment, `split` cuts at every separator, `segments` drops the empty pieces.
* `childSegment?` and `isWithin` describe the tree that the paths form: the segment right below
  a parent, and lying at or below an ancestor.
* `parseIndex?` tells which segments number the elements of a list.
-/

namespace LayeredConfig.Path

/-- The path of the child `segment` of `parent`. -/
def join (parent segment : String) : String :=
  if parent = "" then segment else parent ++ "." ++ segment

/-- The pieces of a path between separators, empty ones included. -/
def split (path : String) : List String := Text.split '.' path

/-- The segments of a path that are not empty. -/
def segments (path : String) : List String :=
  (split path).filter (· ≠ "")

/-- A path takes part in the tree of children if it has a segment and none of its segments is
empty. -/
def isIndexable (path : String) : Bool :=
  (split path).all (· ≠ "")

/-- List indexes are the numbers below this bound. -/
def indexBound : Nat := Number.twoPow 64

/-- The list index that a segment writes: decimal digits only, leading zeros allowed. -/
def parseIndex? (segment : String) : Option Nat :=
  if Number.isDigits segment.toList then
    let index := Number.digitsToNat segment.toList
    if index < indexBound then some index else none
  else
    none

/-- What follows `parent` and a separator in `candidate`, if `candidate` lies below `parent`. -/
def below? (candidate parent : String) : Option (List Char) :=
  if parent = "" then
    some candidate.toList
  else
    match parent.toList.isPrefixOf? candidate.toList with
    | some ('.' :: rest) => some rest
    | _ => none

/-- The segment of `candidate` directly below `parent`, if there is one and it is not empty. -/
def childSegment? (candidate parent : String) : Option String := do
  let rest ← below? candidate parent
  let segment := rest.takeWhile (· ≠ '.')
  if segment = [] then none else some (String.ofList segment)

/-- `path` is `ancestor` itself or lies below it. -/
def isWithin (path ancestor : String) : Bool :=
  ancestor = "" ||
    match ancestor.toList.isPrefixOf? path.toList with
    | some [] => true
    | some (c :: _) => c = '.'
    | none => false

end LayeredConfig.Path
