/-!
# Errors

An error says what kind of failure it is and, where known, which configuration path and which place
in a source it concerns, its cause, and what helps against it. `Error.message` is the one place that
words an error as a whole.
-/

namespace LayeredConfig

/-- The kinds of failure. -/
inductive ErrorKind where
  /-- A source text or a pattern is malformed. -/
  | parse
  /-- A stored scalar cannot be read as the requested type. -/
  | typeCoercion
  /-- A token stream was read out of order. -/
  | usage
  /-- A tree nests deeper than trees may. -/
  | depthExceeded
  /-- A required file does not exist. -/
  | fileNotFound (file : String)
  /-- A file cannot be read. -/
  | io
  /-- The library contradicts itself. -/
  | internal
  deriving DecidableEq, Repr

/-- The first line of an error of this kind. -/
def ErrorKind.message : ErrorKind → String
  | .parse => "Parse error"
  | .typeCoercion => "Type coercion failed"
  | .usage => "Invalid token stream usage"
  | .depthExceeded => "Maximum nesting depth exceeded"
  | .fileNotFound file => "File not found: " ++ file
  | .io => "I/O error"
  | .internal => "Internal error"

/-- A place in a source; lines and columns count from one. -/
structure SourceLocation where
  /-- The name of the source. -/
  file : String
  /-- The line, if known. -/
  line : Option Nat := none
  /-- The column, if known. -/
  column : Option Nat := none
  deriving DecidableEq, Repr

/-- The place as `file:line:column`, as far as it is known. -/
def SourceLocation.message (location : SourceLocation) : String :=
  match location.line, location.column with
  | none, _ => location.file
  | some line, none => location.file ++ ":" ++ toString line
  | some line, some column => location.file ++ ":" ++ toString line ++ ":" ++ toString column

/-- A failure with what is known about it. -/
structure Error where
  /-- The kind of failure. -/
  kind : ErrorKind
  /-- The configuration path concerned. -/
  path : Option String := none
  /-- The place in a source. -/
  location : Option SourceLocation := none
  /-- What helps against the failure. -/
  help : Option String := none
  /-- What caused the failure. -/
  cause : Option String := none
  deriving DecidableEq, Repr

namespace Error

/-- Malformed input, nothing known about its place. -/
def parse (cause : String) : Error :=
  { kind := .parse, cause := some cause }

/-- Malformed input at a line and a column of a text without a name. -/
def parseAt (cause : String) (line column : Nat) : Error :=
  { parse cause with
    location := some { file := "<input>", line := some line, column := some column } }

/-- The value at `path` is `got` and not `expected`. -/
def typeCoercion (path expected got : String) : Error :=
  { kind := .typeCoercion
    path := some path
    help := some ("Ensure the value can be converted to " ++ expected)
    cause := some ("Got: " ++ got) }

/-- A token stream was read out of order; the root is not named as a path. -/
def usage (path cause : String) : Error :=
  { kind := .usage
    path := if path = "" then none else some path
    help := some "Call next() once per token and read each value at most once"
    cause := some cause }

/-- The tree at `path` lies below `maxDepth` levels. -/
def depthExceeded (path : String) (maxDepth : Nat) : Error :=
  { kind := .depthExceeded
    path := some path
    help := some ("Configuration trees may nest at most " ++ toString maxDepth ++ " levels") }

/-- A required file does not exist. -/
def fileNotFound (file : String) : Error :=
  { kind := .fileNotFound file
    help := some ("Check that '" ++ file ++ "' exists, or add it as an optional file") }

/-- A file cannot be read. -/
def io (file cause : String) : Error :=
  { kind := .io, location := some { file }, cause := some cause }

/-- The library contradicts itself. -/
def internal (cause : String) : Error :=
  { kind := .internal
    help := some "This is likely a bug in plyconf. Please report it."
    cause := some cause }

/-- The error with its path replaced. -/
def withPath (error : Error) (path : String) : Error :=
  { error with path := some path }

/-- The error with its place replaced. -/
def withLocation (error : Error) (location : SourceLocation) : Error :=
  { error with location := some location }

/-- The error attributed to a named source; a line and a column stay as they are. -/
def inFile (error : Error) (file : String) : Error :=
  match error.location with
  | some location => { error with location := some { location with file } }
  | none => { error with location := some { file } }

/-- The error with its help replaced. -/
def withHelp (error : Error) (help : String) : Error :=
  { error with help := some help }

/-- The lines below the first one: path, place, cause and help, each only if known. -/
def details (error : Error) : List String :=
  (error.path.map ("Path: " ++ ·)).toList ++
    (error.location.map fun location => "File: " ++ location.message).toList ++
    error.cause.toList ++
    (error.help.map ("Help: " ++ ·)).toList

/-- The full text of an error. -/
def message (error : Error) : String :=
  error.details.foldl (fun text line => text ++ "\n  " ++ line) error.kind.message

end Error

end LayeredConfig
