import LayeredConfig.OrderedMap
import LayeredConfig.Path
import LayeredConfig.Scalar

/-!
# Configuration trees

A tree is a null, a scalar, a sequence of trees or a mapping from names to trees. `getPath?` walks
a dotted path through a tree and `text` writes a tree on one line.
-/

namespace LayeredConfig

/-- A configuration tree. -/
inductive Value where
  /-- Nothing. -/
  | null
  /-- A leaf. -/
  | scalar (leaf : Scalar)
  /-- A list of trees. -/
  | sequence (items : List Value)
  /-- Named trees in the order in which their names first came. -/
  | mapping (entries : List (String × Value))

namespace Value

/-- The name of the type of a tree. -/
def typeName : Value → String
  | null => "null"
  | scalar leaf => leaf.typeName
  | sequence _ => "sequence"
  | mapping _ => "mapping"

/-- The tree is a null. -/
def isNull : Value → Bool
  | null => true
  | _ => false

/-- The elements of a sequence. -/
def sequence? : Value → Option (List Value)
  | sequence items => some items
  | _ => none

/-- The entries of a mapping. -/
def mapping? : Value → Option (OrderedMap Value)
  | mapping entries => some entries
  | _ => none

/-- The truth value that a tree is. -/
def bool? : Value → Option Bool
  | scalar (.bool value) => some value
  | _ => none

/-- The integer that a tree is. -/
def integer? : Value → Option Int64
  | scalar (.integer value) => some value
  | _ => none

/-- The number that a tree is, integers taken as floating point numbers. -/
def float? : Value → Option Number.Binary64
  | scalar (.float value) => some value
  | scalar (.integer value) => some (.ofInt value.toInt)
  | _ => none

/-- The text that a tree is. -/
def string? : Value → Option String
  | scalar (.string value) => some value
  | _ => none

/-- The child of a tree that a segment names: an entry of a mapping or, by its index, an element of
a sequence. -/
def child? (value : Value) (segment : String) : Option Value :=
  match value with
  | mapping entries => OrderedMap.get? entries segment
  | sequence items => do items[← Path.parseIndex? segment]?
  | _ => none

/-- The subtree that a list of segments leads to. -/
def descend? (value : Value) : List String → Option Value
  | [] => some value
  | segment :: rest => do (← value.child? segment).descend? rest

/-- The subtree at a dotted path; empty segments are passed over. -/
def getPath? (value : Value) (path : String) : Option Value :=
  value.descend? (Path.segments path)

mutual

/-- The characters of a tree on one line. -/
def textChars : Value → List Char
  | null => ['n', 'u', 'l', 'l']
  | scalar leaf => leaf.text.toList
  | sequence items => '[' :: itemsText items
  | mapping entries => '{' :: entriesText entries

/-- The elements of a sequence, separated by commas, up to the closing bracket. -/
def itemsText : List Value → List Char
  | [] => [']']
  | [item] => textChars item ++ [']']
  | item :: rest => textChars item ++ [',', ' '] ++ itemsText rest

/-- The entries of a mapping, separated by commas, up to the closing brace. -/
def entriesText : List (String × Value) → List Char
  | [] => ['}']
  | [(key, value)] => key.toList ++ [':', ' '] ++ textChars value ++ ['}']
  | (key, value) :: rest =>
    key.toList ++ [':', ' '] ++ textChars value ++ [',', ' '] ++ entriesText rest

end

/-- The tree on one line, without quotes around texts. -/
def text (value : Value) : String := String.ofList value.textChars

end Value

end LayeredConfig
