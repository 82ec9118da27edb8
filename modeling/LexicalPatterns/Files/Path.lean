/-!
# Paths

A path is a text in which slashes separate names. Empty names and dots in the middle do not count:
paths are compared by their parts. A path keeps the spelling in which it was given.
-/

namespace LexicalPatterns.Path

/-- A part of a path. -/
inductive Part where
  /-- The root of all files, at the start of an absolute path. -/
  | root
  /-- A dot at the start of a relative path. -/
  | current
  | parent
  | name (text : String)
  deriving DecidableEq, Repr

namespace Part

def rank : Part → Nat
  | root => 0
  | current => 1
  | parent => 2
  | name _ => 3

def compare (a b : Part) : Ordering :=
  match a, b with
  | name s, name t => Ord.compare s t
  | a, b => Ord.compare a.rank b.rank

end Part

def segments (path : String) : List String := path.splitOn "/"

def isAbsolute (path : String) : Bool := path.toList.head? == some '/'

/-- The part that a segment behind the first one is. -/
def part? (segment : String) : Option Part :=
  if segment = "" ∨ segment = "." then none
  else if segment = ".." then some .parent
  else some (.name segment)

def parts (path : String) : List Part :=
  match segments path with
  | [] => []
  | first :: rest =>
    let head := if isAbsolute path then [.root] else if first = "." then [.current]
      else (part? first).toList
    head ++ rest.filterMap part?

/-- The order of lists of parts, the shorter of two lists with a common start first. -/
def compareParts : List Part → List Part → Ordering
  | [], [] => .eq
  | [], _ :: _ => .lt
  | _ :: _, [] => .gt
  | a :: as, b :: bs => (a.compare b).then (compareParts as bs)

def precedes (a b : String) : Bool := compareParts (parts a) (parts b) != .gt

def same (a b : String) : Bool := parts a == parts b

/-- A path below a directory. An absolute path stands for itself. -/
def join (directory path : String) : String :=
  if directory = "" || isAbsolute path then path
  else if directory.toList.getLast? == some '/' then directory ++ path
  else directory ++ "/" ++ path

/-- Drops segments that are no parts from the end of reversed segments. The first segment of the
path counts also when it is a dot. -/
def dropIdle : List String → List String
  | [] => []
  | [first] => [first]
  | s :: ss => if (part? s).isSome then s :: ss else dropIdle ss

/-- The directory of a path: the text without the last part. The root and the empty path have
none. -/
def parent? (path : String) : Option String :=
  let kept := dropIdle (segments path).reverse
  match kept with
  | [] => none
  | [first] => if first = "" then none else some ""
  | _ :: rest =>
    match dropIdle rest with
    | [""] => some "/"
    | rest => some ("/".intercalate rest.reverse)

def after? (start path : String) : Option String :=
  if start.toList.isPrefixOf path.toList then
    some (String.ofList (path.toList.drop start.toList.length))
  else none

def withoutDot (path : String) : String := (after? "./" path).getD path

def withoutSlash (path : String) : String := (after? "/" path).getD path

/-- What a path is to rules that hold below a root. The root is compared by its spelling, so dots
that stand in the path and not in the root keep them apart. -/
def below (root path : String) : String :=
  let root := withoutDot root
  let path := withoutDot path
  if parts root = [.current] || !path.contains '/' then path
  else ((after? root path).map withoutSlash).getD path

def fileName? (path : String) : Option String :=
  match (parts path).getLast? with
  | some (.name text) => some text
  | _ => none

/-- What stands behind the last dot of a name, unless that is its first character. -/
def extension? (name : String) : Option String :=
  let cs := name.toList.reverse
  let after := cs.takeWhile (· ≠ '.')
  if after.length + 1 < cs.length then some (String.ofList after.reverse) else none

end LexicalPatterns.Path
