import LayeredConfig.FilePath
import LayeredConfig.Json
import LayeredConfig.Resolution.Node
import LayeredConfig.Yaml

/-!
# Configurations

A configuration is a stack of sources, highest precedence first, seen from a path, its *scope*:
every query is relative to the scope. Queries resolve the path in the merged stack.

* `get?` gives the tree at a path; `getString?` and its kind read a leaf as a type.
* A path at which nothing is stored has no value (`none`), while a map or a list in the place of a
  leaf is an error.
-/

namespace LayeredConfig

/-- A merged configuration. -/
structure Config where
  /-- The sources, highest precedence first. -/
  sources : List Source
  /-- The directory in which relative paths of files begin. -/
  root : Option String := none
  /-- The path that queries are relative to. -/
  scopePath : String := ""

namespace Config

/-- The merged stack of sources. -/
def source (config : Config) : Source := Source.merge config.sources

/-- A path relative to the scope as a path from the root. -/
def fullPath (config : Config) (path : String) : String :=
  if path = "" then config.scopePath else Path.join config.scopePath path

/-- The configuration as seen from a path. -/
def scope (config : Config) (path : String) : Config :=
  { config with scopePath := config.fullPath path }

/-- What a path resolves to, ready to be read. -/
def stream (config : Config) (path : String) : Except Error (Reader Resolution.Node) :=
  Resolution.Node.resolve config.source (config.fullPath path)

/-- Something is stored at a path or below it. -/
def contains (config : Config) (path : String) : Bool :=
  config.source.contains (config.fullPath path)

/-- The tree at a path, if there is anything. -/
def get? (config : Config) (path : String) : Except Error (Option Value) := do
  let reader ← config.stream path
  if reader.events.kind = .null then
    .ok none
  else
    (Value.read reader).1.map some

/-- The leaf at a path read as a type, which `expected` names in errors. -/
def readLeaf {α : Type} (config : Config) (path expected : String)
    (read : Reader Resolution.Node → Except Error α × Reader Resolution.Node) :
    Except Error (Option α) := do
  let reader ← config.stream path
  let (result, reader) := TokenStream.next reader
  match ← result with
  | .null | .endOfStream => .ok none
  | .value => (read reader).1.map some
  | .objectStart => .error (.typeCoercion (config.fullPath path) expected "mapping")
  | .listStart => .error (.typeCoercion (config.fullPath path) expected "sequence")
  | other =>
    .error (.internal ("resolved stream for '" ++ config.fullPath path ++ "' started with " ++
      other.name))

/-- The text of the leaf at a path. -/
def getString? (config : Config) (path : String) : Except Error (Option String) :=
  config.readLeaf path "string" TokenStream.readString

/-- The integer at a path. -/
def getInt64? (config : Config) (path : String) : Except Error (Option Int64) :=
  config.readLeaf path "integer" TokenStream.readInt64

/-- The floating point number at a path. -/
def getFloat? (config : Config) (path : String) : Except Error (Option Number.Binary64) :=
  config.readLeaf path "float" TokenStream.readFloat

/-- The truth value at a path. -/
def getBool? (config : Config) (path : String) : Except Error (Option Bool) :=
  config.readLeaf path "boolean" TokenStream.readBool

/-- The bytes at a path. -/
def getBytes? (config : Config) (path : String) : Except Error (Option (List UInt8)) :=
  config.readLeaf path "bytes" TokenStream.readBytes

/-- The path of a file that is stored at a path; relative ones begin in the root directory. -/
def getFile? (config : Config) (path : String) : Except Error (Option String) := do
  let text? ← config.getString? path
  .ok (text?.map fun text =>
    match config.root with
    | some root => FilePath.join root text
    | none => text)

/-- Everything in the scope; without anything stored it is an empty mapping. -/
def toValue (config : Config) : Except Error Value := do
  .ok ((← config.get? "").getD (.mapping []))

/-- Everything in the scope as a JSON text. -/
def toJson (config : Config) : Except Error String := config.toValue.map Json.pretty

/-- Everything in the scope as a YAML text. -/
def toYaml (config : Config) : Except Error String := config.toValue.map Yaml.write

end Config

end LayeredConfig
