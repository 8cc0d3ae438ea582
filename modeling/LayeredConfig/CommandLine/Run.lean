import LayeredConfig.CommandLine.Arguments
import LayeredConfig.Config.Builder
import LayeredConfig.Scalar.Literal
import LayeredConfig.Token.Drain

/-!
# Running commands

`run` carries out a request on a disk and the entries of an environment. Its `Outcome` holds
everything that the program gives back: texts for the two output streams, the exit code and a file
to write.
-/

namespace LayeredConfig.CommandLine

/-- What a run of the program gives back. -/
structure Outcome where
  /-- The exit code. -/
  exitCode : Nat := 0
  /-- The text for the standard output. -/
  stdout : String := ""
  /-- The text for the standard error output. -/
  stderr : String := ""
  /-- The path and the content of a file that has been written. -/
  written : Option (String × String) := none
  deriving DecidableEq, Repr

/-- The colors of terminal output. -/
inductive Color where
  | red
  | green
  | cyan
  deriving DecidableEq, Repr

/-- The number of a color in the sequence that selects it. -/
def Color.code : Color → List Char
  | red => ['3', '1']
  | green => ['3', '2']
  | cyan => ['3', '6']

/-- The sequence that selects a color. -/
def Color.start (color : Color) : List Char := '\x1B' :: '[' :: color.code ++ ['m']

/-- The sequence that ends a color. -/
def colorEnd : List Char := ['\x1B', '[', '0', 'm']

/-- Characters with a color selected anew wherever it ends within them. -/
def recolor (start : List Char) : List Char → List Char
  | '\x1B' :: '[' :: '0' :: 'm' :: rest => colorEnd ++ start ++ recolor start rest
  | c :: rest => c :: recolor start rest
  | [] => []

/-- What the environment of a run decides. -/
structure Setting where
  /-- The files. -/
  disk : Disk
  /-- The environment variables. -/
  environment : Environment
  /-- Whether output is in color. -/
  colored : Bool

namespace Setting

/-- Output is in color if this variable has another value than `0`. -/
def colorVariable : String := "CLICOLOR_FORCE"

/-- The setting of a disk and the entries `name=value` of an environment. -/
def ofEntries (disk : Disk) (entries : List String) : Setting :=
  let named := entries.filterMap Environment.parseEntry?
  { disk
    environment := .ofUnordered named
    colored := (named.lookup colorVariable).any (· ≠ "0") }

/-- A text in a color. -/
def paint (setting : Setting) (color : Color) (text : String) : String :=
  if setting.colored then
    String.ofList (color.start ++ recolor color.start text.toList ++ colorEnd)
  else
    text

/-- A message about a failure. -/
def failure (setting : Setting) (message : String) : String :=
  setting.paint .red "Error" ++ ": " ++ message ++ "\n"

/-- A message about a file with a flaw. -/
def fileFailure (setting : Setting) (file message : String) : String :=
  setting.paint .red "✗" ++ " " ++ file ++ ": " ++ message ++ "\n"

end Setting

/-- The path and the value of an assignment `path=value`. The value is typed like an unquoted value
in a document. -/
def parseAssignment (assignment : String) : Except String (String × Scalar) :=
  match Text.cut '=' assignment.toList with
  | (_, none) => .error ("Invalid --set '" ++ assignment ++ "', expected PATH=VALUE")
  | (path, some value) =>
    let path := Text.trimChars path
    if path = [] then
      .error ("Invalid --set '" ++ assignment ++ "', path is empty")
    else
      .ok (String.ofList path, Scalar.ofLiteral (String.ofList (Text.trimChars value)))

/-- The inputs of a configuration: its files and then, as one source, the assignments. -/
def builderOf (environment : Environment) (files : List String) (layers : Layers) :
    Except String ConfigBuilder := do
  let assignments ← layers.assignments.mapM parseAssignment
  let builder := files.foldl (fun builder file => builder.addFile (.required file)) {}
  let builder :=
    if assignments = [] then builder
    else builder.addInput (.source ((Store.ofMap (OrderedMap.ofList assignments)).toSource "map"))
  .ok (if layers.environment then builder.withEnvironment environment else builder)

/-- Load a configuration. -/
def loadConfig (setting : Setting) (files : List String) (layers : Layers) :
    Except String Config := do
  let builder ← builderOf setting.environment files layers
  match builder.build setting.disk with
  | .ok config => .ok config
  | .error error => .error ("Failed to load configuration: " ++ error.message)

/-- A tree in one of the output formats. -/
def renderValue (value : Value) (format : String) : Except String String :=
  if format = "json" then
    .ok (Json.pretty value ++ "\n")
  else if format = "yaml" ∨ format = "yml" then
    .ok (Yaml.write value)
  else if format = "text" then
    match value with
    | .sequence _ | .mapping _ => .ok (Yaml.write value)
    | leaf => .ok (leaf.text ++ "\n")
  else
    .error ("Unsupported format: " ++ format ++ ". Use text, json, or yaml.")

/-- A configuration that cannot be loaded. -/
def loadFailure (setting : Setting) (message : String) : Outcome :=
  { exitCode := 2, stderr := setting.paint .red message ++ "\n" }

/-- A command that cannot be carried out. -/
def commandFailure (setting : Setting) (message : String) : Outcome :=
  { exitCode := 1, stderr := setting.failure message }

/-- Print the tree at a path, or a default text if there is none. -/
def runGet (setting : Setting) (files : List String) (path format : String)
    (default : Option String) (layers : Layers) : Outcome :=
  match loadConfig setting files layers with
  | .error message => loadFailure setting message
  | .ok config =>
    match config.get? path with
    | .error error => commandFailure setting error.message
    | .ok none =>
      match default with
      | some text => { stdout := text ++ "\n" }
      | none => commandFailure setting ("Path '" ++ path ++ "' not found")
    | .ok (some value) =>
      match renderValue value format with
      | .ok text => { stdout := text }
      | .error message => commandFailure setting message

/-- Print everything below a path, or write it to a file. -/
def runDump (setting : Setting) (files : List String) (path : Option String) (format : String)
    (output : Option String) (layers : Layers) : Outcome :=
  match loadConfig setting files layers with
  | .error message => loadFailure setting message
  | .ok config =>
    match (config.scope (path.getD "")).toValue with
    | .error error => commandFailure setting error.message
    | .ok value =>
      match renderValue value format, output with
      | .error message, _ => commandFailure setting message
      | .ok text, none => { stdout := text }
      | .ok text, some file =>
        match setting.disk.writeText file text with
        | .ok _ =>
          { stderr := setting.paint .green "✓" ++ " Wrote to " ++ file ++ "\n"
            written := some (file, text) }
        | .error fault =>
          { exitCode := 2
            stderr := setting.paint .red "Error writing file" ++ ": " ++ fault.message ++ "\n" }

/-- Check the syntax of files. -/
def runCheck (setting : Setting) (files : List String) : Outcome :=
  files.foldl
    (fun outcome file =>
      match DocumentSource.load setting.disk file with
      | .ok document =>
        { outcome with
          stdout := outcome.stdout ++ setting.paint .green "✓" ++ " " ++ file ++ ": valid (" ++
            toString document.store.size ++ " paths)\n" }
      | .error error =>
        { outcome with
          exitCode := 1
          stderr := outcome.stderr ++ setting.fileFailure file error.message })
    {}

/-- A token with its scalar and its path. -/
def describeToken (item : Drained) : String :=
  let scalar :=
    match item.scalar with
    | some (.ok scalar) =>
      " " ++ Json.compact (.scalar scalar) ++ " (" ++ scalar.typeName ++ ")"
    | _ => ""
  let place := if item.path = "" ∨ item.token = .key then "" else "  @ " ++ item.path
  item.token.name ++ scalar ++ place

/-- A token as a line that begins `column` levels deep. -/
def tokenLine (setting : Setting) (column : Nat) (item : Drained) : String :=
  let text := describeToken item
  let text := if item.token.isStart || item.token.isEnd then setting.paint .cyan text else text
  String.ofList (List.replicate (2 * column) ' ') ++ text ++ "\n"

/-- The number of levels before a token, with `depth` brackets counted. The line of an end moves
out, if there is a level to move out of. -/
def column (depth : Nat) (token : Token) : Nat := if token.isEnd then depth - 1 else depth

/-- The number of brackets that are counted behind a token. -/
def countBehind (depth : Nat) (token : Token) : Nat :=
  if token.isStart then column depth token + 1 else column depth token

/-- The lines of tokens with `depth` brackets counted before them, and the error that ends them, if
any. -/
def tokenLines (setting : Setting) (depth : Nat) :
    List (Except Error Drained) → String × Option Error
  | [] => ("", none)
  | .error error :: _ => ("", some error)
  | .ok item :: rest =>
    let (lines, error) := tokenLines setting (countBehind depth item.token) rest
    (tokenLine setting (column depth item.token) item ++ lines, error)

/-- Print the tokens of a file. -/
def runTokens (setting : Setting) (file : String) : Outcome :=
  match setting.disk.readText file with
  | .error fault => { exitCode := 2, stderr := setting.fileFailure file fault.message }
  | .ok text =>
    match tokenLines setting 0 (TokenStream.drain (Document.Parser.reader text)).1 with
    | (lines, none) => { stdout := lines }
    | (lines, some error) =>
      { exitCode := 1, stdout := lines, stderr := setting.fileFailure file error.message }

/-- Carry out a command. -/
def runCommand (setting : Setting) : Command → Outcome
  | .get files path format default layers => runGet setting files path format default layers
  | .dump files path format output layers => runDump setting files path format output layers
  | .check files => runCheck setting files
  | .tokens file => runTokens setting file

/-- The version of the program. -/
def versionText : String := "plyconf 0.3.0\n"

/-- The help text. -/
def helpText : String :=
  "Command-line interface for plyconf layered configuration\n\n" ++
    "Usage: plyconf <COMMAND>\n\n" ++
    "Commands:\n" ++
    "  get     Get a specific value from the configuration\n" ++
    "  dump    Print the merged configuration\n" ++
    "  check   Quick syntax check of configuration files\n" ++
    "  tokens  Print the raw token stream of a file\n" ++
    "  help    Print this message or the help of the given subcommand(s)\n\n" ++
    "Options:\n" ++
    "  -h, --help     Print help\n" ++
    "  -V, --version  Print version\n"

/-- Carry out a request. Who asks for nothing is told how to ask. -/
def run (setting : Setting) : Request → Outcome
  | .run command => runCommand setting command
  | .version => { stdout := versionText }
  | .help => { stdout := helpText }
  | .nothing => { exitCode := 2, stderr := helpText }

/-- The outcome for arguments that are rejected. -/
def usageOutcome (fault : UsageFault) : Outcome :=
  { exitCode := 2
    stderr := "error: " ++ fault.message ++ "\n\nFor more information, try '--help'.\n" }

end LayeredConfig.CommandLine
