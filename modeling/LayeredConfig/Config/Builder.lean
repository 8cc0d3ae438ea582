import LayeredConfig.Config
import LayeredConfig.Glob.Expand
import LayeredConfig.Source.Document
import LayeredConfig.Source.Environment

/-!
# Building configurations

A `ConfigBuilder` collects properties, inputs and an environment. `build` loads the inputs from a
disk and stacks up all sources: the environment has the highest precedence, then come the inputs,
the last one first, and the properties have the lowest.
-/

namespace LayeredConfig

/-- A file to load. -/
structure FileSpec where
  /-- The path of the file. -/
  path : String
  /-- Whether the file is passed over if it does not exist. -/
  isOptional : Bool
  deriving DecidableEq, Repr

namespace FileSpec

/-- A file that has to exist. -/
def required (path : String) : FileSpec := ⟨path, false⟩

/-- A file that is passed over if it does not exist. -/
def optional (path : String) : FileSpec := ⟨path, true⟩

end FileSpec

/-- Read a document from a file. -/
def DocumentSource.load (disk : Disk) (path : String) : Except Error DocumentSource :=
  match disk.readText path with
  | .ok text => DocumentSource.parse path text
  | .error .notFound => .error (.fileNotFound path)
  | .error fault => .error (.io path fault.message)

/-- Something that a configuration is made from. -/
inductive Input where
  /-- A file. -/
  | file (spec : FileSpec)
  /-- All files that a wildcard pattern stands for, in the order of their paths. -/
  | glob (pattern : String)
  /-- A document with a name. -/
  | text (name content : String)
  /-- Any source. -/
  | source (layer : Source)

namespace Input

/-- A wildcard pattern that cannot be read. -/
def patternError (pattern : String) (fault : Glob.PatternFault) : Error :=
  (Error.parse ("Invalid glob pattern '" ++ pattern ++ "': " ++ fault.message)).withHelp
    "Use shell-style wildcards such as conf.d/*.conf"

/-- The sources of an input, lowest precedence first. -/
def load (disk : Disk) : Input → Except Error (List Source)
  | file spec =>
    if spec.isOptional && !disk.contains spec.path then .ok []
    else (DocumentSource.load disk spec.path).map fun document => [document.toSource]
  | glob pattern =>
    match Glob.matchingFiles disk pattern with
    | .error fault => .error (patternError pattern fault)
    | .ok paths => paths.mapM fun path => (DocumentSource.load disk path).map (·.toSource)
  | text name content => (DocumentSource.parse name content).map fun document => [document.toSource]
  | source layer => .ok [layer]

end Input

/-- A configuration in the making. -/
structure ConfigBuilder where
  /-- The directory in which relative paths of files begin. -/
  root : Option String := none
  /-- Values for paths that no other source has. -/
  properties : OrderedMap Scalar := []
  /-- The inputs, lowest precedence first. -/
  inputs : List Input := []
  /-- The environment variables. -/
  environment : Environment := .ofList []

namespace ConfigBuilder

/-- The builder with a root directory. -/
def withRoot (builder : ConfigBuilder) (root : String) : ConfigBuilder :=
  { builder with root := some root }

/-- The builder with the environment replaced. -/
def withEnvironment (builder : ConfigBuilder) (environment : Environment) : ConfigBuilder :=
  { builder with environment }

/-- The builder with one more input. -/
def addInput (builder : ConfigBuilder) (input : Input) : ConfigBuilder :=
  { builder with inputs := builder.inputs ++ [input] }

/-- The builder with one more file. Without a root directory so far, the directory of the file
becomes the root directory. -/
def addFile (builder : ConfigBuilder) (spec : FileSpec) : ConfigBuilder :=
  { builder.addInput (.file spec) with
    root := builder.root <|> FilePath.parent? spec.path }

/-- The builder with a property stored. -/
def addProperty (builder : ConfigBuilder) (path : String) (value : Scalar) : ConfigBuilder :=
  { builder with properties := OrderedMap.insert builder.properties path value }

/-- The properties as a source. -/
def propertySource (builder : ConfigBuilder) : Source :=
  (Store.ofMap builder.properties).toSource "properties"

/-- Load all inputs and stack up the sources. -/
def build (disk : Disk) (builder : ConfigBuilder) : Except Error Config := do
  let loaded ← builder.inputs.mapM (Input.load disk)
  .ok {
    sources :=
      (builder.propertySource :: loaded.flatten ++ [builder.environment.toSource]).reverse
    root := builder.root }

end ConfigBuilder

end LayeredConfig
