import LexicalPatterns.Files.Discover
import LexicalPatterns.Files.IgnoreLevel

/-!
# Searches

The walker of the program goes through a directory in the order of its entries. It leaves out what
an exclude rule or an ignore file tells it to, and names that start with a dot unless an ignore file
takes them in.
-/

namespace LexicalPatterns

/-- A search below a directory. -/
structure Search where
  files : FileSystem
  /-- The path of the directory as it was given. -/
  root : String
  /-- The path of the directory from the root of all files. -/
  absoluteRoot : String
  exclude : List IgnoreRule
  /-- The levels above the directory, the nearest first. -/
  above : List IgnoreLevel

namespace Search

/-- The path of an entry from the root of all files, for a path without a dot at its start. -/
def absolutePath (s : Search) (path : String) : String :=
  let relative := if Path.parts s.root = [.current] then path
    else Path.withoutSlash ((Path.after? (Path.withoutDot s.root) path).getD path)
  Path.join s.absoluteRoot relative

/-- Whether an entry is left out. `levels` are those of the directories from the entry's to the root
of the search. -/
def skips (s : Search) (levels : List IgnoreLevel) (path name : String) (isDirectory : Bool) :
    Bool :=
  let path := Path.withoutDot path
  match IgnoreRule.decide s.exclude (Path.below s.root path) isDirectory with
  | some v => v = .ignored
  | none =>
    let views := levels.map (·, path) ++ s.above.map (·, s.absolutePath path)
    match IgnoreLevel.verdict views isDirectory with
    | some v => v = .ignored
    | none => name.startsWith "."

mutual

/-- The entry at a path that is not left out, and those below it. -/
def entriesOf (s : Search) (levels : List IgnoreLevel) (path : String) :
    FileTree → List WalkEntry
  | .file _ => [⟨path, true⟩]
  | .directory entries =>
    ⟨path, false⟩ ::
      s.entriesIn (.ofDirectory s.files path (.directory entries) :: levels) path entries

def entriesIn (s : Search) (levels : List IgnoreLevel) (path : String) :
    List (String × FileTree) → List WalkEntry
  | [] => []
  | (name, t) :: entries =>
    let entry := Path.join path name
    (if s.skips levels entry name t.isDirectory then [] else s.entriesOf levels entry t) ++
      s.entriesIn levels path entries

end

/-- All that the search comes to. Rule files above the directory have to be in order. -/
def run (s : Search) (directory : FileTree) : List (Except String WalkEntry) :=
  match s.above.reverse.flatMap (·.complaints) with
  | [] => (s.entriesOf [] s.root directory).map .ok
  | reasons => [.error ("\n".intercalate reasons)]

/-- The name of standard input. Nothing is found below it, even if there is a directory of that
name. -/
def standardInput : String := "-"

def below (fs : FileSystem) (exclude : List IgnoreRule) (path : String)
    (place : FileSystem.Place) : Search where
  files := fs
  root := path
  absoluteRoot := FileSystem.absolutePath (place.name :: place.above.map (·.2))
  exclude
  above := IgnoreLevel.above fs place.above

def walk (fs : FileSystem) (exclude : List IgnoreRule) (path : String) :
    List (Except String WalkEntry) :=
  if Path.same path standardInput then []
  else
    match fs.place path with
    | .ok place => (below fs exclude path place).run place.tree
    | .error e => [.error e.message]

def walker : Walker where
  Rule := IgnoreRule
  rule := IgnoreRule.ofExclude
  fault? rules := (Glob.fault? (rules.map (·.glob))).map (·.message)
  walk := walk

end Search

/-- The pattern files that a search finds for the paths, in their order. -/
def discover (fs : FileSystem) (paths : List String) (settings : Settings) :
    Except DiscoverError (List String) :=
  Search.walker.discover fs paths settings

end LexicalPatterns
