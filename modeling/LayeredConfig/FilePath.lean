import LayeredConfig.Text.Split

/-!
# Paths of files

A path of a file is a text whose pieces are separated by `/`. Empty pieces and pieces `.` do not
lead anywhere, except that a path may begin with `.`; what is left are its components.

* `components` and `lessEq` order paths component by component.
* `parent?` and `join` work on the text and keep its spelling.
-/

namespace LayeredConfig.FilePath

/-- The pieces of a path between separators, empty ones included. -/
def pieces (path : String) : List String := Text.split '/' path

/-- The path starts at the root of all files. -/
def isAbsolute (path : String) : Bool := path.toList.head? = some '/'

/-- What a piece of a path leads to. -/
inductive Component where
  /-- The root of all files. -/
  | root
  /-- The directory itself. -/
  | current
  /-- The directory above. -/
  | parent
  /-- The entry of a name. -/
  | name (text : String)
  deriving DecidableEq, Repr

namespace Component

/-- The component that a piece stands for behind the beginning of a path. -/
def ofPiece? (piece : String) : Option Component :=
  if piece = "" ∨ piece = "." then none
  else if piece = ".." then some parent
  else some (name piece)

/-- The place of a component among components of other kinds. -/
def rank : Component → Nat
  | root => 0
  | current => 1
  | parent => 2
  | name _ => 3

/-- The order of components: by kind and among names by the code points of their characters. -/
def lt : Component → Component → Bool
  | name left, name right => left < right
  | left, right => left.rank < right.rank

end Component

/-- The components of a path. -/
def components (path : String) : List Component :=
  let rest := (pieces path).filterMap Component.ofPiece?
  if isAbsolute path then .root :: rest
  else if (pieces path).head? = some "." then .current :: rest
  else rest

/-- The order of lists of components. -/
def componentsLessEq : List Component → List Component → Bool
  | [], _ => true
  | _ :: _, [] => false
  | left :: lefts, right :: rights =>
    if left = right then componentsLessEq lefts rights else left.lt right

/-- The order of paths. -/
def lessEq (left right : String) : Bool :=
  componentsLessEq (components left) (components right)

/-- The path is a spelling of the directory itself. -/
def isCurrent (path : String) : Bool := components path = [.current]

/-- A path below another one; an absolute path stays as it is. -/
def join (parent path : String) : String :=
  if isAbsolute path ∨ parent = "" then path
  else if parent.toList.getLast? = some '/' then parent ++ path
  else parent ++ "/" ++ path

/-- The pieces without those at the end that lead nowhere. -/
def dropTrailing (pieces : List String) : List String :=
  (pieces.reverse.dropWhile fun piece => piece = "" || piece = ".").reverse

/-- The first piece of a path if it stands for the root or the directory itself, and the other
pieces. -/
def splitStart (path : String) : List String × List String :=
  match pieces path with
  | "" :: body => if isAbsolute path then ([""], body) else ([], [])
  | "." :: body => (["."], body)
  | body => ([], body)

/-- The path of pieces, the first of which may stand for the root. -/
def ofPieces (pieces : List String) : String :=
  if pieces = [""] then "/" else String.intercalate "/" pieces

/-- The directory that a path lies in, unless the path is empty or the root. -/
def parent? (path : String) : Option String :=
  let (start, body) := splitStart path
  match dropTrailing body with
  | [] => if start = ["."] then some "" else none
  | kept => some (ofPieces (start ++ dropTrailing kept.dropLast))

end LayeredConfig.FilePath
