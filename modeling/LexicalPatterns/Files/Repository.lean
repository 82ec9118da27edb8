import LexicalPatterns.Files.Ignore
import LexicalPatterns.Files.Read

/-!
# Repositories

A directory with `.git` or `.jj` in it is the top of a repository. The exclude file of a repository
is in `.git/info`. If `.git` is a file it links to another directory. A file there names the
directory that several repositories have in common, and the exclude file is in that one.
-/

namespace LexicalPatterns.Repository

def isTop (directory : FileTree) : Bool :=
  (directory.child? ".git").isSome || (directory.child? ".jj").isSome

def firstLine? (bytes : List UInt8) : Except Utf8.Error (Option String) := do
  let line := bytes.takeWhile (· ≠ 10)
  let text ← Utf8.decode ⟨line.toArray⟩
  if bytes.isEmpty then return none
  else if line.length < bytes.length then return some (withoutReturn text)
  else return some text

/-- The path of the directory that the first line of a `.git` file links to. -/
def linked? (line : String) : Option String := Path.after? "gitdir: " line

/-- The file in a linked directory that names the common one. -/
def commonFile (linked : String) : String := Path.join linked "commondir"

/-- The common directory that the first line of that file names. With a dot at its start it is
relative to the linked directory. -/
def commonDirectory (linked line : String) : String :=
  if line.startsWith "." then Path.join linked line else line

def excludeFile (common : String) : String := Path.join common "info/exclude"

/-- The first line of the file at a path. A path without a file has none. -/
def firstLineAt? (fs : FileSystem) (path : String) : Except String (Option String) :=
  match fs.find? path with
  | none => .ok none
  | some (.directory _) => .error (path ++ ": " ++ FileError.isADirectory.message)
  | some (.file content) =>
    (firstLine? content.toList).mapError fun _ => path ++ ": " ++ ReadError.notText.message

/-- The path of the exclude file of a repository whose `.git` is the file at a path. -/
def linkedExcludeFile? (fs : FileSystem) (path : String) : Except String (Option String) := do
  let some line ← firstLineAt? fs path | return none
  let some linked := linked? line | return none
  let some line ← firstLineAt? fs (commonFile linked) | return none
  return some (excludeFile (commonDirectory linked line))

def excludeFile? (fs : FileSystem) (path : String) (directory : FileTree) :
    Except String (Option String) :=
  let git := Path.join path ".git"
  match directory.child? ".git" with
  | some (.file _) => linkedExcludeFile? fs git
  | _ => .ok (some (excludeFile git))

end LexicalPatterns.Repository
