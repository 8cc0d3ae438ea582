import LayeredConfig.Path
import LayeredConfig.Source

/-!
# Environment variables as a source

Names of variables match paths leniently: `DB_HOST`, `db_host` and `DB.HOST` all answer for the path
`db.host`. Names are kept in uppercase, and every name is listed in four spellings, so that the
segments below a path are found both where underscores and where points divide a name.
-/

namespace LayeredConfig

/-- A snapshot of environment variables. -/
structure Environment where
  /-- The values by name in uppercase. -/
  values : OrderedMap String
  /-- All spellings of all names, in the order of the names. -/
  spellings : List String

namespace Environment

/-- The character is an ASCII letter or digit. -/
def isPlain (c : Char) : Bool := c.isAlpha || c.isDigit

/-- Every character other than ASCII letters and digits replaced by an underscore. -/
def mask (chars : List Char) : List Char :=
  chars.map fun c => if isPlain c then c else '_'

/-- The lowercase form of a character, masked. Outside ASCII only the Kelvin sign and the capital I
with a dot have a lowercase form that starts with an ASCII letter, the latter followed by a
combining dot. -/
def maskedLowercase (c : Char) : List Char :=
  if c = '\u212A' then ['k']
  else if c = '\u0130' then ['i', '_']
  else mask [c.toLower]

/-- Underscores replaced by points. -/
def dotted (chars : List Char) : List Char :=
  chars.map fun c => if c = '_' then '.' else c

/-- The spellings of a name in uppercase: the name itself without white space at its ends, masked
in lowercase, with points for underscores, and masked in lowercase with points. -/
def spellingsOf (name : String) : List String :=
  let chars := Text.trimChars name.toList
  [chars, chars.flatMap maskedLowercase, dotted chars, (dotted (mask chars)).map Char.toLower].map
    String.ofList

/-- The snapshot of variables given by name and value. Of names that are equal in uppercase, the
last one gives the value. -/
def ofList (entries : List (String × String)) : Environment :=
  let upper := OrderedMap.ofList (entries.map fun (name, value) => (Text.toUppercase name, value))
  ⟨upper, OrderedMap.distinct ((OrderedMap.keys upper).flatMap spellingsOf)⟩

/-- The name and the value in an entry `name=value` of an environment. Names are not empty, so an
equals sign at the beginning belongs to the name. -/
def parseEntry? (entry : String) : Option (String × String) :=
  match entry.toList with
  | [] => none
  | first :: rest =>
    match Text.cut '=' rest with
    | (name, some value) => some (String.ofList (first :: name), String.ofList value)
    | (_, none) => none

/-- The order of variables: by name and then by value. -/
def lessEq (left right : String × String) : Bool :=
  left.1 < right.1 || (left.1 = right.1 && left.2 ≤ right.2)

/-- The snapshot of variables given by name and value in any order. -/
def ofUnordered (entries : List (String × String)) : Environment :=
  ofList (entries.mergeSort lessEq)

/-- The number of variables. -/
def size (environment : Environment) : Nat := environment.values.length

/-- The value of the variable for a path: the one named like the path in uppercase, else the one
named like the masked path. -/
def value? (environment : Environment) (path : String) : Option Scalar :=
  let name := Text.toUppercase path
  (OrderedMap.get? environment.values name <|>
    OrderedMap.get? environment.values (String.ofList (mask name.toList))).map .string

/-- The segments below a path, by any spelling. -/
def keys (environment : Environment) (path : String) : List String :=
  OrderedMap.distinct (environment.spellings.filterMap (Path.childSegment? · path))

/-- The variables as a source. -/
def toSource (environment : Environment) : Source where
  name := "environment"
  value? := environment.value?
  keys := environment.keys

end Environment

end LayeredConfig
