import LayeredConfig.Text.Split

/-!
# Command line arguments

`Arguments.parse` reads the arguments of the program as a `Request`: a command with its options, the
wish to see the version or help, or nothing at all. A `UsageFault` says why arguments are rejected.

Options are written `--name value`, `--name=value`, `-nvalue`, `-n=value` or `-n value`; a value on
its own does not begin with a hyphen, unless it is nothing but one. Behind `--` no argument is an
option.
-/

namespace LayeredConfig.CommandLine

/-- What the commands that assemble a configuration add to its files. -/
structure Layers where
  /-- Assignments `path=value`, the last one with the highest precedence. -/
  assignments : List String
  /-- Whether the environment variables belong to the configuration. -/
  environment : Bool
  deriving DecidableEq, Repr

/-- What the program is to do. -/
inductive Command where
  /-- Print the tree at a path. -/
  | get (files : List String) (path format : String) (default : Option String) (layers : Layers)
  /-- Print or write a whole configuration, or the part of it at a path. -/
  | dump (files : List String) (path : Option String) (format : String) (output : Option String)
      (layers : Layers)
  /-- Check the syntax of files. -/
  | check (files : List String)
  /-- Print the tokens of a file. -/
  | tokens (file : String)
  deriving DecidableEq, Repr

/-- What the program is asked for. -/
inductive Request where
  /-- A command. -/
  | run (command : Command)
  /-- The version of the program. -/
  | version
  /-- Help. -/
  | help
  /-- Nothing: there is not even a command. -/
  | nothing
  deriving DecidableEq, Repr

/-- The commands. -/
inductive CommandName where
  | get
  | dump
  | check
  | tokens
  deriving DecidableEq, Repr

/-- The options of the commands. -/
inductive OptionName where
  | set
  | noEnv
  | format
  | default
  | path
  | output
  deriving DecidableEq, Repr

/-- Why arguments are rejected. -/
inductive UsageFault where
  /-- The argument is not an option of the command, or one too many. -/
  | unexpected (argument : String)
  /-- The first argument is not a command. -/
  | unknownCommand (argument : String)
  /-- An option comes without its value. -/
  | missingValue (option : OptionName)
  /-- A value is attached to an option without one. -/
  | needlessValue (option : String)
  /-- An option is given twice. -/
  | repeated (option : OptionName)
  /-- A file has no name. -/
  | emptyFileName
  /-- Something that the command needs is not given. -/
  | missing (what : String)
  deriving DecidableEq, Repr

namespace OptionName

/-- The name of an option behind two hyphens. -/
def long : OptionName → String
  | set => "set"
  | noEnv => "no-env"
  | format => "format"
  | default => "default"
  | path => "path"
  | output => "output"

/-- The name of an option behind one hyphen. -/
def short? : OptionName → Option Char
  | format => some 'f'
  | default => some 'd'
  | path => some 'p'
  | output => some 'o'
  | set | noEnv => none

/-- The option has a value. -/
def takesValue : OptionName → Bool
  | noEnv => false
  | _ => true

end OptionName

/-- The text of a fault. -/
def UsageFault.message : UsageFault → String
  | unexpected argument => "unexpected argument '" ++ argument ++ "' found"
  | unknownCommand argument => "unrecognized subcommand '" ++ argument ++ "'"
  | missingValue option => "a value is required for '--" ++ option.long ++ "' but none was supplied"
  | needlessValue option => "unexpected value for '--" ++ option ++ "' found; no more were expected"
  | repeated option => "the argument '--" ++ option.long ++ "' cannot be used multiple times"
  | emptyFileName => "a value is required for a file but none was supplied"
  | missing what => "the following required arguments were not provided: " ++ what

namespace CommandName

/-- The command of a name. -/
def ofText? : String → Option CommandName
  | "get" => some get
  | "dump" => some dump
  | "check" => some check
  | "tokens" => some tokens
  | _ => none

/-- The options of a command. -/
def options : CommandName → List OptionName
  | get => [.format, .default, .set, .noEnv]
  | dump => [.path, .format, .output, .set, .noEnv]
  | check => []
  | tokens => []

end CommandName

namespace Arguments

/-- An argument by its form. -/
inductive Form where
  /-- Behind two hyphens, with what follows the first equals sign. -/
  | long (name : String) (attached : Option String)
  /-- Behind one hyphen a character and what follows it. -/
  | short (name : Char) (attached : String)
  /-- Anything else. -/
  | plain
  deriving DecidableEq, Repr

/-- The form of an argument in front of `--`. -/
def formOf (argument : String) : Form :=
  match argument.toList with
  | '-' :: '-' :: body =>
    let (name, attached) := Text.cut '=' body
    .long (String.ofList name) (attached.map String.ofList)
  | '-' :: c :: rest => .short c (String.ofList rest)
  | _ => .plain

/-- The argument begins like an option; `-` and `--` do not. -/
def isOptionLike (argument : String) : Bool := formOf argument ≠ .plain && argument ≠ "--"

/-- What has been read of the arguments of a command. -/
structure Collected where
  /-- The options in order. -/
  options : List (OptionName × String) := []
  /-- The files in order. -/
  files : List String := []
  /-- The path behind the files. -/
  path : Option String := none
  deriving DecidableEq, Repr

namespace Collected

/-- The values of an option. -/
def values (collected : Collected) (option : OptionName) : List String :=
  (collected.options.filter (·.1 = option)).map Prod.snd

/-- With one more option. -/
def addOption (collected : Collected) (option : OptionName) (value : String) :
    Except UsageFault Collected :=
  if option ≠ .set ∧ collected.values option ≠ [] then .error (.repeated option)
  else if option = .output ∧ value = "" then .error .emptyFileName
  else .ok { collected with options := collected.options ++ [(option, value)] }

/-- With one more file. -/
def addFile (collected : Collected) (file : String) : Except UsageFault Collected :=
  if file = "" then .error .emptyFileName
  else .ok { collected with files := collected.files ++ [file] }

/-- With one more argument that is not an option; `isLast` tells that no other such argument
follows directly. For `get` that one is the path, and nothing may come behind it. -/
def addPlain (command : CommandName) (collected : Collected) (argument : String) (isLast : Bool) :
    Except UsageFault Collected :=
  match command with
  | .get =>
    if collected.path.isSome then .error (.unexpected argument)
    else if isLast then .ok { collected with path := some argument }
    else collected.addFile argument
  | .dump | .check => collected.addFile argument
  | .tokens =>
    if collected.files ≠ [] then .error (.unexpected argument) else collected.addFile argument

/-- The layers that the options ask for. -/
def layers (collected : Collected) : Layers where
  assignments := collected.values .set
  environment := collected.values .noEnv = []

/-- The command, once everything has been read. -/
def toCommand (name : CommandName) (collected : Collected) : Except UsageFault Command :=
  let value? := fun option => (collected.values option).head?
  if collected.files = [] then
    .error (.missing "<FILES>")
  else
    match name, collected.path, collected.files with
    | .get, none, _ => .error (.missing "<PATH>")
    | .get, some path, files =>
      .ok (.get files path ((value? .format).getD "text") (value? .default) collected.layers)
    | .dump, _, files =>
      .ok (.dump files (value? .path) ((value? .format).getD "yaml") (value? .output)
        collected.layers)
    | .check, _, files => .ok (.check files)
    | .tokens, _, files => .ok (.tokens (files.head?.getD ""))

end Collected

/-- The arguments behind `--`. -/
def collectPlain (command : CommandName) (collected : Collected) :
    List String → Except UsageFault Collected
  | [] => .ok collected
  | argument :: rest => do
    collectPlain command (← collected.addPlain command argument (rest.head?.all isOptionLike)) rest

/-- The value of an option that is not attached to it, and the arguments behind it. -/
def takeValue (option : OptionName) : List String → Except UsageFault (String × List String)
  | [] => .error (.missingValue option)
  | value :: rest =>
    if value = "--" ∨ isOptionLike value then .error (.missingValue option) else .ok (value, rest)

theorem length_lt_of_takeValue {option : OptionName} {arguments rest : List String} {value : String}
    (h : takeValue option arguments = .ok (value, rest)) : rest.length < arguments.length := by
  unfold takeValue at h
  split at h
  · exact absurd h (by simp)
  · split at h
    · exact absurd h (by simp)
    · simp only [Except.ok.injEq, Prod.mk.injEq] at h
      rw [h.2, List.length_cons]
      exact Nat.lt_succ_self _

/-- The value behind the character of an option: an equals sign in front of it is dropped, and
nothing at all means that the value is an argument of its own. -/
def attachedValue (attached : String) : Option String :=
  match attached.toList with
  | [] => none
  | '=' :: rest => some (String.ofList rest)
  | chars => some (String.ofList chars)

/-- The arguments of a command; `none` is a request for help, which ends the reading. -/
def collect (command : CommandName) (collected : Collected) (arguments : List String) :
    Except UsageFault (Option Collected) :=
  match arguments with
  | [] => .ok (some collected)
  | argument :: rest =>
    if argument = "--" then
      (collectPlain command collected rest).map some
    else
      let proceed (option? : Option OptionName) (attached : Option String) :
          Except UsageFault (Option Collected) :=
        match option?, attached with
        | none, _ => .error (.unexpected argument)
        | some option, some value =>
          if option.takesValue then do
            collect command (← collected.addOption option value) rest
          else
            .error (.needlessValue option.long)
        | some option, none =>
          if option.takesValue then
            match h : takeValue option rest with
            | .error fault => .error fault
            | .ok (value, rest') =>
              have := length_lt_of_takeValue h
              match collected.addOption option value with
              | .error fault => .error fault
              | .ok more => collect command more rest'
          else do
            collect command (← collected.addOption option "") rest
      match formOf argument with
      | .long "help" none => .ok none
      | .long name attached => proceed (command.options.find? (·.long = name)) attached
      | .short 'h' _ => .ok none
      | .short name attached =>
        proceed (command.options.find? (·.short? = some name)) (attachedValue attached)
      | .plain => do
        collect command
          (← collected.addPlain command argument (rest.head?.all isOptionLike)) rest
termination_by arguments.length

/-- Read the arguments of the program. -/
def parse : List String → Except UsageFault Request
  | [] => .ok .nothing
  | ["--"] => .ok .nothing
  | "--" :: argument :: _ => .error (.unknownCommand argument)
  | argument :: rest =>
    match formOf argument with
    | .long "help" none => .ok .help
    | .long "version" none => .ok .version
    | .long _ _ => .error (.unexpected argument)
    | .short 'h' _ => .ok .help
    | .short 'V' _ => .ok .version
    | .short _ _ => .error (.unexpected argument)
    | .plain =>
      match CommandName.ofText? argument, rest with
      | some command, _ => do
        match ← collect command {} rest with
        | none => .ok .help
        | some collected => (collected.toCommand command).map .run
      | none, [] => if argument = "help" then .ok .help else .error (.unknownCommand argument)
      | none, topic :: more =>
        if argument ≠ "help" then .error (.unknownCommand argument)
        else if (CommandName.ofText? topic).isNone ∧ topic ≠ "help" then
          .error (.unknownCommand topic)
        else more.head?.elim (.ok .help) (.error <| .unknownCommand ·)

end Arguments

end LayeredConfig.CommandLine
