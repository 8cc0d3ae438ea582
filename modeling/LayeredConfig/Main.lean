import LayeredConfig.CommandLine.Run

/-!
# The program

The outer layer of the command line program: it takes a snapshot of the files that the arguments
name and of the environment variables, has the request carried out on them, and then writes what
the outcome holds.
-/

namespace LayeredConfig.CommandLine

/-- The files that a command reads or writes. -/
def Command.touchedPaths : Command → List String
  | get files _ _ _ _ => files
  | dump files _ _ output _ => files ++ output.toList
  | check files => files
  | tokens file => [file]

/-- The locations that the pieces of a path lead through. -/
def visitedLocations (location : List String) : List String → List (List String)
  | [] => []
  | piece :: rest =>
    let next :=
      if piece = "" ∨ piece = "." then location
      else if piece = ".." then location.dropLast
      else location ++ [piece]
    next :: visitedLocations next rest

/-- The error code of an attempt to read a directory. -/
def directoryCode : UInt32 := 21

/-- The file or the directory, without its entries, at a location. -/
def readLocation (location : List String) : IO (Option FileTree) := do
  match ← (IO.FS.readBinFile ("/" ++ String.intercalate "/" location)).toBaseIO with
  | .ok content => pure (some (.file content))
  | .error (.inappropriateType _ code _) =>
    pure (if code = directoryCode then some (.directory []) else none)
  | .error _ => pure none

/-- The disk with what is at a location. -/
def addLocation (disk : Disk) (location : List String) : IO Disk := do
  if (disk.root.find? location).isSome then
    pure disk
  else
    match ← readLocation location with
    | some tree => pure { disk with root := disk.root.insert location tree }
    | none => pure disk

/-- The files that a command touches and all directories on the way to them. -/
def readDisk (command : Command) : IO Disk := do
  let workingDirectory := Disk.properPieces (← IO.currentDir).toString
  let root := (FileTree.directory []).insert workingDirectory (.directory [])
  let disk : Disk := ⟨root, workingDirectory⟩
  let locations := command.touchedPaths.flatMap fun path =>
    visitedLocations (disk.start path) (FilePath.pieces path)
  locations.foldlM addLocation disk

/-- The file that holds the environment variables of the running program. -/
def environmentFile : String := "/proc/self/environ"

/-- The entries of the environment that are texts. -/
def readEntries : IO (List String) := do
  match ← (IO.FS.readBinFile environmentFile).toBaseIO with
  | .error _ => pure []
  | .ok content =>
    pure ((Text.splitList 0 content.toList).filterMap fun bytes =>
      String.fromUTF8? ⟨bytes.toArray⟩)

/-- The disk that a request is carried out on. -/
def diskFor : Request → IO Disk
  | .run command => readDisk command
  | .version | .help | .nothing => pure .empty

/-- Write what an outcome holds and return its exit code. -/
def finish (outcome : Outcome) : IO UInt32 := do
  match outcome.written with
  | some (path, content) => IO.FS.writeFile path content
  | none => pure ()
  IO.print outcome.stdout
  IO.eprint outcome.stderr
  pure (UInt32.ofNat outcome.exitCode)

end LayeredConfig.CommandLine

open LayeredConfig.CommandLine in
/-- Run the program. -/
def main (arguments : List String) : IO UInt32 := do
  match Arguments.parse arguments with
  | .error fault => finish (usageOutcome fault)
  | .ok request => do
    let setting := Setting.ofEntries (← diskFor request) (← readEntries)
    finish (run setting request)
