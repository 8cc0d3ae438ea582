import LayeredConfig.FilePath
import LayeredConfig.OrderedMap

/-!
# Files

A `FileTree` is a file or a directory with everything in it, and a `Disk` is a tree together with
the directory in which relative paths begin. A location is the list of names that leads to a place
in the tree.

* `Disk.locate` follows a path and says why it leads nowhere (`FileFault`).
* `Disk.readText` and `Disk.writeText` read and write whole files of text.
-/

namespace LayeredConfig

/-- Why a file cannot be read or written. -/
inductive FileFault where
  /-- There is nothing at the path. -/
  | notFound
  /-- The path leads through a file. -/
  | notDirectory
  /-- The path leads to a directory. -/
  | isDirectory
  /-- A name is longer than 255 bytes, or the path than 4095. -/
  | nameTooLong
  /-- The path contains the character zero. -/
  | zeroInName
  /-- The content of the file is not a text. -/
  | notText
  deriving DecidableEq, Repr

/-- The text of a fault. -/
def FileFault.message : FileFault → String
  | notFound => "No such file or directory (os error 2)"
  | notDirectory => "Not a directory (os error 20)"
  | isDirectory => "Is a directory (os error 21)"
  | nameTooLong => "File name too long (os error 36)"
  | zeroInName => "file name contained an unexpected NUL byte"
  | notText => "stream did not contain valid UTF-8"

/-- A file or a directory with everything in it. -/
inductive FileTree where
  /-- A file. -/
  | file (content : ByteArray)
  /-- A directory; its entries are in the order of their names. -/
  | directory (entries : List (String × FileTree))

namespace FileTree

/-- The tree is a directory. -/
def isDirectory : FileTree → Bool
  | directory _ => true
  | file _ => false

/-- The entries of a directory. -/
def entries : FileTree → OrderedMap FileTree
  | directory entries => entries
  | file _ => []

/-- The tree at a location. -/
def find? (tree : FileTree) : List String → Option FileTree
  | [] => some tree
  | name :: rest => do (← OrderedMap.get? tree.entries name).find? rest

/-- Entries in the order of their names with a tree put under a name. -/
def setEntry (entries : OrderedMap FileTree) (name : String) (tree : FileTree) :
    OrderedMap FileTree :=
  match entries with
  | [] => [(name, tree)]
  | (name', tree') :: rest =>
    if name = name' then (name, tree) :: rest
    else if name < name' then (name, tree) :: (name', tree') :: rest
    else (name', tree') :: setEntry rest name tree

/-- The tree with another one put at a location, in directories that are made where needed. -/
def insert (tree : FileTree) (location : List String) (leaf : FileTree) : FileTree :=
  match location with
  | [] => leaf
  | name :: rest =>
    let child := (OrderedMap.get? tree.entries name).getD (directory [])
    directory (setEntry tree.entries name (child.insert rest leaf))

end FileTree

/-- All files and the directory in which relative paths begin. -/
structure Disk where
  /-- The root of all files. -/
  root : FileTree
  /-- The location of the directory in which relative paths begin. -/
  workingDirectory : List String

namespace Disk

/-- The longest name of a directory entry in bytes. -/
def maxNameLength : Nat := 255

/-- The longest path in bytes. -/
def maxPathLength : Nat := 4095

/-- A disk with nothing but an empty working directory. -/
def empty : Disk := ⟨.directory [("work", .directory [])], ["work"]⟩

/-- Follow the pieces of a path from a location. -/
def follow (root : FileTree) (location : List String) :
    List String → Except FileFault (List String)
  | [] => .ok location
  | piece :: rest =>
    match root.find? location with
    | none => .error .notFound
    | some (.file _) => .error .notDirectory
    | some (.directory _) =>
      if piece = "" ∨ piece = "." then follow root location rest
      else if piece = ".." then follow root location.dropLast rest
      else if maxNameLength < piece.utf8ByteSize then .error .nameTooLong
      else if (root.find? (location ++ [piece])).isSome then follow root (location ++ [piece]) rest
      else .error .notFound

/-- The location at which a path begins. -/
def start (disk : Disk) (path : String) : List String :=
  if FilePath.isAbsolute path then [] else disk.workingDirectory

/-- Every operation refuses a path that is empty, too long or contains the character zero. -/
def checkPath (path : String) : Except FileFault Unit :=
  if '\x00' ∈ path.toList then .error .zeroInName
  else if path = "" then .error .notFound
  else if maxPathLength < path.utf8ByteSize then .error .nameTooLong
  else .ok ()

/-- The location that a path leads to. -/
def locate (disk : Disk) (path : String) : Except FileFault (List String) := do
  checkPath path
  follow disk.root (disk.start path) (FilePath.pieces path)

/-- The tree that a path leads to. -/
def find? (disk : Disk) (path : String) : Option FileTree :=
  match disk.locate path with
  | .ok location => disk.root.find? location
  | .error _ => none

/-- The path leads to a file or a directory. -/
def contains (disk : Disk) (path : String) : Bool := (disk.find? path).isSome

/-- The path leads to a file. -/
def isFile (disk : Disk) (path : String) : Bool := (disk.find? path).any (!·.isDirectory)

/-- The path leads to a directory. -/
def isDirectory (disk : Disk) (path : String) : Bool := (disk.find? path).any (·.isDirectory)

/-- The content of a file. -/
def read (disk : Disk) (path : String) : Except FileFault ByteArray := do
  let location ← disk.locate path
  match disk.root.find? location with
  | some (.file content) => .ok content
  | some (.directory _) => .error .isDirectory
  | none => .error .notFound

/-- The text in a file. -/
def readText (disk : Disk) (path : String) : Except FileFault String := do
  match String.fromUTF8? (← disk.read path) with
  | some text => .ok text
  | none => .error .notText

/-- The pieces of a path that lead anywhere. -/
def properPieces (path : String) : List String :=
  (FilePath.pieces path).filter fun piece => piece ≠ "" ∧ piece ≠ "."

/-- The disk with a file put into the working directory or below it. -/
def addFile (disk : Disk) (path : String) (content : ByteArray) : Disk :=
  { disk with
    root := disk.root.insert (disk.workingDirectory ++ properPieces path) (.file content) }

/-- The disk with a directory put into the working directory or below it, unless there is something
already. -/
def addDirectory (disk : Disk) (path : String) : Disk :=
  let location := disk.workingDirectory ++ properPieces path
  if (disk.root.find? location).isSome then disk
  else { disk with root := disk.root.insert location (.directory []) }

/-- The disk after a text has been written to a file, which is made or replaced. Its directory has
to be there. -/
def writeText (disk : Disk) (path text : String) : Except FileFault Disk := do
  checkPath path
  let pieces := (FilePath.pieces path).reverse.dropWhile (· = "")
  let directory ← follow disk.root (disk.start path) pieces.tail.reverse
  match disk.root.find? directory, pieces with
  | none, _ => .error .notFound
  | some (.file _), _ => .error .notDirectory
  | some (.directory _), [] => .error .isDirectory
  | some (.directory _), name :: _ =>
    if name = "." ∨ name = ".." ∨ path.toList.getLast? = some '/' then .error .isDirectory
    else if maxNameLength < name.utf8ByteSize then .error .nameTooLong
    else
      let location := directory ++ [name]
      if (disk.root.find? location).any (·.isDirectory) then .error .isDirectory
      else .ok { disk with root := disk.root.insert location (.file text.toUTF8) }

end Disk

end LayeredConfig
