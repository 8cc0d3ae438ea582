import LayeredConfig.FileTree
import LayeredConfig.Glob.Pattern

/-!
# Expanding wildcard patterns

A pattern for paths has a wildcard pattern in each of its components. `expand` lists the paths of a
disk that it stands for, and `matchingFiles` those that lead to files, in the order of paths.

Hidden files count like others. The directories `.` and `..` are entered only by their names, or by
a pattern that begins with a point.

The order of paths does not tell spellings of one path apart (`a/./b` and `a/b/.`), and these stay
in the order in which they are found: in every directory `..` first, then `.`, then its entries by
name, each one before what is below it.
-/

namespace LayeredConfig.Glob

/-- A path below a directory. The directory in which relative paths begin is not written. -/
def step (directory name : String) : String :=
  if FilePath.isCurrent directory then name else FilePath.join directory name

/-- Something found in a directory. -/
structure Found where
  /-- The path to it. -/
  path : String
  /-- The last component of the path. -/
  name : String
  /-- Whether it is a directory. -/
  isDirectory : Bool

/-- The entries of a directory. -/
def children (directory : String) (entries : OrderedMap FileTree) : List Found :=
  entries.map fun (name, tree) => ⟨step directory name, name, tree.isDirectory⟩

mutual

/-- The entries of a tree, their entries and so on. -/
def descendants (path : String) : FileTree → List Found
  | .file _ => []
  | .directory entries => entryDescendants path entries

/-- The entries of a list, their entries and so on. -/
def entryDescendants (path : String) : List (String × FileTree) → List Found
  | [] => []
  | (name, tree) :: rest =>
    ⟨step path name, name, tree.isDirectory⟩ ::
      (descendants (step path name) tree ++ entryDescendants path rest)

end

/-- The special names that a pattern stands for. -/
def specialNames (pattern : Pattern) : List String :=
  if pattern.head? = some (.char '.') then ["..", "."].filter pattern.accepts else []

/-- The name is one of the special names that every directory has. -/
def isSpecial (name : String) : Bool := name = "." || name = ".."

/-- The paths below a path for a list of component patterns. -/
def expandFrom (disk : Disk) (path : String) : List Pattern → List String
  | [] => [path]
  | pattern :: rest =>
    match pattern.literal? with
    | some name =>
      let next := if FilePath.isCurrent path then name else FilePath.join path name
      if if isSpecial name then disk.isDirectory path else disk.contains next then
        expandFrom disk next rest
      else
        []
    | none =>
      match disk.find? path with
      | some (.directory entries) =>
        if pattern.isAnyDirectories then
          let found := descendants path (.directory entries)
          match h : rest.dropWhile (·.isAnyDirectories) with
          | [] => (found.filter (·.isDirectory)).map (·.path)
          | named :: rest' =>
            have : rest'.length < rest.length + 1 := by
              have := (List.dropWhile_suffix Pattern.isAnyDirectories (l := rest)).length_le
              rw [h, List.length_cons] at this
              omega
            (found.filter (named.accepts ·.name)).flatMap fun item =>
              expandFrom disk item.path rest'
        else
          (specialNames pattern).flatMap (fun name =>
              expandFrom disk (FilePath.join path name) rest) ++
            ((children path entries).filter (pattern.accepts ·.name)).flatMap fun item =>
              expandFrom disk item.path rest
      | _ => []
termination_by patterns => patterns.length

/-- The component patterns of a path pattern behind its root. -/
def componentTexts (pattern : String) : List String :=
  let pieces := FilePath.pieces pattern
  let pieces := if FilePath.isAbsolute pattern then pieces.drop 1 else pieces
  if pieces.length = 1 then pieces
  else if pieces.getLast? = some "" then pieces.dropLast
  else pieces

/-- The paths that a pattern stands for. A pattern that ends in a separator stands for directories
only. -/
def expand (disk : Disk) (pattern : String) : Except PatternFault (List String) := do
  let _ ← Pattern.parse pattern
  let components ← (componentTexts pattern).mapM Pattern.parse
  let found := expandFrom disk (if FilePath.isAbsolute pattern then "/" else ".") components
  .ok (if pattern.toList.getLast? = some '/' then found.filter disk.isDirectory else found)

/-- The paths of files that a pattern stands for, in the order of paths. -/
def matchingFiles (disk : Disk) (pattern : String) : Except PatternFault (List String) := do
  .ok (((← expand disk pattern).filter disk.isFile).mergeSort FilePath.lessEq)

end LayeredConfig.Glob
