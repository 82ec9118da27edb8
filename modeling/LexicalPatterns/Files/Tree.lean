import LexicalPatterns.Files.Path

/-!
# File trees

The files that a run can see are a tree of directories and a working directory in it. Looking up a
path walks through the tree segment by segment, so a path that goes on behind a file is refused.
-/

namespace LexicalPatterns

inductive FileTree where
  | file (content : ByteArray)
  | directory (entries : List (String × FileTree))

namespace FileTree

def empty : FileTree := directory []

def isFile : FileTree → Bool
  | file _ => true
  | directory _ => false

def isDirectory : FileTree → Bool
  | file _ => false
  | directory _ => true

def entries : FileTree → List (String × FileTree)
  | file _ => []
  | directory es => es

def child? (t : FileTree) (name : String) : Option FileTree := t.entries.lookup name

def setChild (t : FileTree) (name : String) (child : FileTree) : FileTree :=
  if (t.child? name).isSome then
    directory (t.entries.map fun (n, c) => if n == name then (n, child) else (n, c))
  else directory (t.entries ++ [(name, child)])

/-- Puts something at a path of names and makes the directories on the way. Directories that are
there already keep their entries. -/
def put : FileTree → List String → FileTree → FileTree
  | directory es, [], directory [] => directory es
  | _, [], leaf => leaf
  | t, name :: names, leaf => t.setChild name (put ((t.child? name).getD empty) names leaf)

end FileTree

inductive FileError where
  | notFound
  | notADirectory
  | isADirectory
  | nameTooLong
  /-- No path may hold a null character. -/
  | nullInPath
  deriving DecidableEq, Repr

def FileError.message : FileError → String
  | notFound => "No such file or directory (os error 2)"
  | notADirectory => "Not a directory (os error 20)"
  | isADirectory => "Is a directory (os error 21)"
  | nameTooLong => "File name too long (os error 36)"
  | nullInPath => "file name contained an unexpected NUL byte"

def maxNameSize : Nat := 255

def maxPathSize : Nat := 4095

/-- All files, and the names on the way from the root to the working directory. -/
structure FileSystem where
  root : FileTree
  workingDirectory : List String

namespace FileSystem

/-- A place in the tree: what is there, its name, and the directories above it with their names,
the nearest first. -/
structure Place where
  tree : FileTree
  name : String
  above : List (FileTree × String)

def Place.step (p : Place) (segment : String) : Except FileError Place :=
  if p.tree.isFile then .error .notADirectory
  else if segment = "" ∨ segment = "." then .ok p
  else if segment = ".." then
    match p.above with
    | [] => .ok p
    | (tree, name) :: above => .ok ⟨tree, name, above⟩
  else if segment.utf8ByteSize > maxNameSize then .error .nameTooLong
  else
    match p.tree.child? segment with
    | some child => .ok ⟨child, segment, (p.tree, p.name) :: p.above⟩
    | none => .error .notFound

def top (fs : FileSystem) : Place := ⟨fs.root, "", []⟩

def place (fs : FileSystem) (path : String) : Except FileError Place :=
  if path.contains '\x00' then .error .nullInPath
  else if path = "" then .error .notFound
  else if path.utf8ByteSize > maxPathSize then .error .nameTooLong
  else if Path.isAbsolute path then (Path.segments path).foldlM Place.step fs.top
  else do
    let here ← fs.workingDirectory.foldlM Place.step fs.top
    (Path.segments path).foldlM Place.step here

/-- The path from the root of all files to a place, for its name and those above it, the nearest
first. The name of the root itself is empty. -/
def absolutePath (names : List String) : String :=
  match names with
  | [_] => "/"
  | names => "/".intercalate names.reverse

def find? (fs : FileSystem) (path : String) : Option FileTree :=
  (fs.place path).toOption.map (·.tree)

def pathExists (fs : FileSystem) (path : String) : Bool := (fs.find? path).isSome

def isFile (fs : FileSystem) (path : String) : Bool := (fs.find? path).any FileTree.isFile

def isDirectory (fs : FileSystem) (path : String) : Bool := (fs.find? path).any FileTree.isDirectory

def read (fs : FileSystem) (path : String) : Except FileError ByteArray := do
  match (← fs.place path).tree with
  | .file content => return content
  | .directory _ => throw .isADirectory

end FileSystem
end LexicalPatterns
