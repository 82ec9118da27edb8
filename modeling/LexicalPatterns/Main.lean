import LexicalPatterns.CommandLine.Run

/-!
# The program

A run sees the part of the file system that its arguments name. The program takes a snapshot of that
part, executes the run on it and prints what the run leaves behind.
-/

namespace LexicalPatterns.Snapshot

/-- Whether a run may look into a file that it only comes across. -/
def isOfInterest (name : String) : Bool :=
  Path.extension? name = some patternExtension ||
    [".ignore", ".gitignore", ".git", "exclude", settingsFileName].contains name

/-- The names on the way from the root of all files to a part behind a place. -/
def enter (names : List String) : Path.Part → List String
  | .root | .current => names
  | .parent => names.dropLast
  | .name text => names ++ [text]

def placesOf (path : String) : List (List String) :=
  (List.range ((Path.parts path).length + 1)).map fun n => ((Path.parts path).take n).foldl enter []

def namesOf (path : String) : List String := (Path.parts path).foldl enter []

def entryAt (names : List String) : IO.FS.DirEntry := ⟨"/", "/".intercalate names⟩

/-- The paths that a run may look at besides the directories that it searches. -/
def namedPaths (a : Arguments) : List String :=
  let settings := a.paths.head?.map fun p => Path.join ((Path.parent? p).getD p) settingsFileName
  a.paths ++ a.inputFile.toList ++ a.config.toList ++ settingsFileName :: settings.toList

def ruleFiles (directory : List String) : List (List String) :=
  let names :=
    [[".ignore"], [".gitignore"], [".jj"], [".git"], [".git", "info"], [".git", "info", "exclude"]]
  names.map (directory ++ ·)

mutual

def linkedDirectories : FileTree → List String
  | .file _ => []
  | .directory entries => linkedDirectoriesIn entries

def linkedDirectoriesIn : List (String × FileTree) → List String
  | [] => []
  | (name, .file content) :: entries =>
    let line := (Repository.firstLine? content.toList).toOption.join
    let linked := if name = ".git" then (line.bind Repository.linked?).toList else []
    linked ++ linkedDirectoriesIn entries
  | (_, t) :: entries => linkedDirectories t ++ linkedDirectoriesIn entries

end

def linkedExclude? (fs : FileSystem) (linked : String) : Option String := do
  let line ← (Repository.firstLineAt? fs (Repository.commonFile linked)).toOption.join
  return Repository.excludeFile (Repository.commonDirectory linked line)

/-- What is below some entries of a directory. Links do not count. -/
partial def search (entries : List IO.FS.DirEntry) : IO (List (String × FileTree)) := do
  let found ← entries.mapM fun e => do
    match (← e.path.symlinkMetadata).type with
    | .dir => return some (e.fileName, .directory (← search (← e.path.readDir).toList))
    | .file =>
      let content ← if isOfInterest e.fileName then IO.FS.readBinFile e.path else pure .empty
      return some (e.fileName, .file content)
    | _ => return none
  return found.filterMap id

def addDirectory (tree : FileTree) (names : List String) : IO FileTree := do
  let path := (entryAt names).path
  if ← path.isDir then
    return tree.put names (.directory (← search (← path.readDir).toList))
  else return tree

/-- Adds a file with its content, or a directory without what is in it, if there is one. -/
def add (tree : FileTree) (names : List String) : IO FileTree := do
  let path := (entryAt names).path
  if ← path.isDir then return tree.put names .empty
  else if ← path.pathExists then return tree.put names (.file (← IO.FS.readBinFile path))
  else return tree

def addPaths (tree : FileTree) (here : String) (paths : List String) : IO FileTree :=
  ((paths.map (Path.join here)).flatMap placesOf).eraseDups.foldlM add tree

/-- The files that a run with the given arguments may look at. -/
def take (a : Arguments) : IO FileSystem := do
  let here := (← IO.currentDir).toString
  let resolve path := namesOf (Path.join here path)
  let tree ← (a.paths.map resolve).foldlM addDirectory .empty
  let places := (here :: (namedPaths a).map (Path.join here)).flatMap placesOf
  let tree ← (places ++ places.flatMap ruleFiles).eraseDups.foldlM add tree
  let linked := linkedDirectories tree
  let tree ← addPaths tree here (linked.map Repository.commonFile)
  let tree ← addPaths tree here (linked.filterMap (linkedExclude? ⟨tree, namesOf here⟩))
  return ⟨tree, namesOf here⟩

end LexicalPatterns.Snapshot

open LexicalPatterns in
def main (texts : List String) : IO UInt32 := do
  match Arguments.parse texts with
  | .error e =>
    if e.exitCode = 0 then IO.println e.message else IO.eprintln e.message
    return e.exitCode.toUInt32
  | .ok a =>
    try
      let fs ← Snapshot.take a
      let stdin ← if a.stdin then (← IO.getStdin).readBinToEnd else pure .empty
      let result := run fs stdin a
      IO.print result.output
      IO.eprint result.errors
      return result.exitCode.toUInt32
    catch e =>
      IO.eprintln s!"error: {e}"
      return 3
