import LexicalPatterns.Files.Tree
import LexicalPatterns.Settings

/-!
# Discovering pattern files

Named files are taken as they are. Named directories are walked through for pattern files. The
result is ordered by path and names no path twice.

What a walk comes to and how it reads exclude globs is left to a walker.
-/

namespace LexicalPatterns

/-- Why the files to load cannot be told. The system's or the walker's reason comes last. -/
inductive DiscoverError where
  | missing (path : String)
  | invalidGlob (glob reason : String)
  | faultyGlobs (reason : String)
  | unwalked (path reason : String)
  deriving DecidableEq, Repr

namespace DiscoverError

def message : DiscoverError → String
  | missing path => "path does not exist: " ++ path
  | invalidGlob glob _ => "invalid exclude glob: " ++ glob
  | faultyGlobs _ => "failed to build exclude globs"
  | unwalked path _ => "failed to walk " ++ path

def reason? : DiscoverError → Option String
  | missing _ => none
  | invalidGlob _ reason | faultyGlobs reason | unwalked _ reason => some reason

end DiscoverError

def patternExtension : String := "pat"

/-- An entry that a walk comes to. -/
structure WalkEntry where
  path : String
  isFile : Bool
  deriving DecidableEq, Repr

def WalkEntry.isPatternFile (e : WalkEntry) : Bool :=
  e.isFile && (Path.fileName? e.path).bind Path.extension? = some patternExtension

/-- A way to walk through directories. -/
structure Walker where
  /-- What says which entries to leave out. -/
  Rule : Type
  /-- The rule of a line, or what is wrong with the line. -/
  rule : String → Except String Rule
  /-- What is wrong with some rules together. -/
  fault? : List Rule → Option String
  /-- The entries below a path, in the order in which the walk comes to them, and what keeps it from
  coming to some. -/
  walk : FileSystem → List Rule → String → List (Except String WalkEntry)

namespace Walker

variable (w : Walker)

/-- The rules of exclude globs. The mark turns a line that takes entries in into one that leaves
them out. -/
def excludeRules (globs : List String) : Except DiscoverError (List w.Rule) :=
  if globs.isEmpty then return []
  else do
    let rules ← globs.mapM fun g => (w.rule ("!" ++ g)).mapError (.invalidGlob g)
    match w.fault? rules with
    | some reason => throw (.faultyGlobs reason)
    | none => return rules

/-- The pattern files below a directory. The walk must not fail anywhere. -/
def patternFilesUnder (fs : FileSystem) (exclude : List String) (root : String) :
    Except DiscoverError (List String) := do
  let rules ← w.excludeRules exclude
  let entries ← (w.walk fs rules root).mapM (·.mapError (.unwalked root))
  return (entries.filter (·.isPatternFile)).map (·.path)

def filesOfPath (fs : FileSystem) (exclude : List String) (path : String) :
    Except DiscoverError (List String) :=
  if fs.isFile path then .ok [path]
  else if fs.isDirectory path then w.patternFilesUnder fs exclude path
  else .error (.missing path)

end Walker

/-- Drops each path that has the same parts as the one before it. -/
def dropRepeated : List String → List String
  | [] => []
  | p :: ps =>
    match dropRepeated ps with
    | [] => [p]
    | q :: qs => if Path.same p q then p :: qs else p :: q :: qs

def Walker.discover (w : Walker) (fs : FileSystem) (paths : List String) (settings : Settings) :
    Except DiscoverError (List String) := do
  let files ← paths.mapM (w.filesOfPath fs settings.exclude)
  return dropRepeated (files.flatten.mergeSort Path.precedes)

end LexicalPatterns
