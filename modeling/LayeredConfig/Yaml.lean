import LayeredConfig.Value
import LayeredConfig.Yaml.Quoting

/-!
# Writing YAML

Trees as YAML texts in block style: an entry or an item a line, and nested ones indented by two
spaces. Sequences below the name of an entry are not indented further, and inside an item the first
entry or item follows the dash on the same line.
-/

namespace LayeredConfig.Yaml

/-- Floating point numbers have a point or an exponent, and an exponent past sixteen digits before
the point or four zeros after it. -/
def floatLayout : Number.FloatLayout where
  tie := .even
  positional := fun point => -5 < point && point ≤ 16
  pointZeroUpTo := 16
  exponentPlus := ""
  nan := ".nan"
  infinity := ".inf"
  negativeInfinity := "-.inf"

/-- A scalar whose lines after the first one begin at `indent`. -/
def scalarChars (indent : Nat) : Scalar → List Char
  | .bool value => (Scalar.boolText value).toList
  | .integer value => (toString value.toInt).toList
  | .float value => (floatLayout.render value).toList
  | .string value => textChars indent value
  | .bytes value => textChars indent (Text.Base64.encode value)

/-- The characters with a line feed at the end, unless they end with a line break already. -/
def endLine (chars : List Char) : List Char :=
  if chars.getLast?.any isBreak then chars else chars ++ ['\n']

/-- A name is written in front of its colon if it has one line and at most 128 bytes. -/
def isSimpleKey (key : String) : Bool :=
  key.utf8ByteSize ≤ 128 && !key.toList.any isBreak

/-- Where a tree stands. -/
inductive Place where
  /-- Behind a dash and a space, or a colon and a space, on a line that begins with them. -/
  | behindMark
  /-- Behind the colon of a name. -/
  | behindName
  deriving DecidableEq, Repr

namespace Place

/-- What separates a tree on one line from what is in front of it. -/
def beforeLeaf : Place → List Char
  | behindMark => []
  | behindName => [' ']

/-- What separates a tree that begins at a column from what is in front of it. -/
def beforeBlock (column : Nat) : Place → List Char
  | behindMark => []
  | behindName => '\n' :: spaces column

/-- The column of the dashes of a sequence, for a mark or a name at the column `indent`. -/
def dashColumn (indent : Nat) : Place → Nat
  | behindMark => indent + 2
  | behindName => indent

end Place

/-- The place of the value of an entry. -/
def placeBehind (key : String) : Place := if isSimpleKey key then .behindName else .behindMark

/-- The name of an entry at the column `indent` and the colon behind it. -/
def nameChars (indent : Nat) (key : String) : List Char :=
  let chars := textChars (indent + 2) key
  if isSimpleKey key then
    chars ++ [':']
  else
    '?' :: ' ' :: endLine chars ++ spaces indent ++ [':', ' ']

mutual

/-- A tree behind a mark or a name at the column `indent`. -/
def valueChars (indent : Nat) (place : Place) : Value → List Char
  | .null => place.beforeLeaf ++ ['n', 'u', 'l', 'l', '\n']
  | .scalar leaf => place.beforeLeaf ++ endLine (scalarChars (indent + 2) leaf)
  | .sequence [] => place.beforeLeaf ++ ['[', ']', '\n']
  | .sequence (item :: rest) =>
    let column := place.dashColumn indent
    place.beforeBlock column ++ '-' :: ' ' :: valueChars column .behindMark item ++
      itemsChars column rest
  | .mapping [] => place.beforeLeaf ++ ['{', '}', '\n']
  | .mapping ((key, value) :: rest) =>
    let column := indent + 2
    place.beforeBlock column ++ nameChars column key ++
      valueChars column (placeBehind key) value ++ entriesChars column rest

/-- The items of a sequence behind the first one, with dashes at the column `indent`. -/
def itemsChars (indent : Nat) : List Value → List Char
  | [] => []
  | item :: rest =>
    spaces indent ++ '-' :: ' ' :: valueChars indent .behindMark item ++ itemsChars indent rest

/-- The entries of a mapping behind the first one, with names at the column `indent`. -/
def entriesChars (indent : Nat) : List (String × Value) → List Char
  | [] => []
  | (key, value) :: rest =>
    spaces indent ++ nameChars indent key ++ valueChars indent (placeBehind key) value ++
      entriesChars indent rest

end

/-- A tree as a YAML text. -/
def write (value : Value) : String :=
  String.ofList <|
    match value with
    | .sequence (item :: rest) => '-' :: ' ' :: valueChars 0 .behindMark item ++ itemsChars 0 rest
    | .mapping ((key, value) :: rest) =>
      nameChars 0 key ++ valueChars 0 (placeBehind key) value ++ entriesChars 0 rest
    | leaf => valueChars 0 .behindMark leaf

end LayeredConfig.Yaml
