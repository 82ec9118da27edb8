import LexicalPatterns.Files.Glob.Expression
import LexicalPatterns.Files.Glob.Match
import LexicalPatterns.Text.Lines
import LexicalPatterns.Text.Utf8
import LexicalPatterns.Text.WhiteSpace

/-!
# Ignore rules

A rule file has one glob in a line. An exclamation mark before it takes a path back in, a slash
behind it confines it to directories, and a slash elsewhere ties it to the directory of the file;
without one it fits names at any depth. The last rule that matches decides.
-/

namespace LexicalPatterns

/-- What a rule says about a path. -/
inductive Verdict where
  | ignored
  | included
  deriving DecidableEq, Repr

structure IgnoreRule where
  glob : List Glob.Piece
  verdict : Verdict
  onlyDirectories : Bool

namespace IgnoreRule

/-- The glob behind the marks at the start of a line: the glob, its verdict, and whether a slash at
its start ties it to the directory. -/
def unmarked (line : List Char) : List Char × Verdict × Bool :=
  match line with
  | '\\' :: '!' :: cs => ('!' :: cs, .ignored, false)
  | '\\' :: '#' :: cs => ('#' :: cs, .ignored, false)
  | '!' :: '/' :: cs => (cs, .included, true)
  | '!' :: cs => (cs, .included, false)
  | '/' :: cs => (cs, .ignored, true)
  | cs => (cs, .ignored, false)

/-- Drops a slash at the end, and a backslash before it. Tells whether there was a slash. -/
def withoutSlash (cs : List Char) : List Char × Bool :=
  match cs.reverse with
  | '/' :: '\\' :: rest => (rest.reverse, true)
  | '/' :: rest => (rest.reverse, true)
  | _ => (cs, false)

/-- The glob for whole paths: one without a slash fits at any depth, and one for all that is in a
directory does not fit the directory. -/
def anchored (tied : Bool) (cs : List Char) : String :=
  let glob := String.ofList cs
  let deep := if tied || cs.contains '/' || glob.startsWith "**/" || glob == "**" then glob
    else "**/" ++ glob
  if deep.endsWith "/**" then deep ++ "/*" else deep

def ofGlob (lenient : Bool) (line : List Char) : Except Glob.Error IgnoreRule := do
  let (cs, verdict, tied) := unmarked line
  let (cs, onlyDirectories) := withoutSlash cs
  let glob ← Glob.parse lenient (anchored tied cs)
  return { glob, verdict, onlyDirectories }

/-- A line without the white space at its end, unless a backslash keeps it. -/
def trimmed (line : List Char) : List Char :=
  match line.reverse with
  | ' ' :: '\\' :: _ => line
  | _ => trimEnd line

def complaint (line : String) (e : Glob.Error) : String :=
  "error parsing glob '" ++ line ++ "': " ++ e.message

/-- The rule of a line for a search, which starts with a mark: it ignores what matches. -/
def ofExclude (line : String) : Except String IgnoreRule :=
  let line := trimmed line.toList
  match ofGlob false line with
  | .ok r => .ok { r with verdict := .ignored }
  | .error e => .error (complaint (String.ofList line) e)

def decide (rules : List IgnoreRule) (path : String) (isDirectory : Bool) : Option Verdict :=
  (rules.reverse.find? fun r =>
    (isDirectory || !r.onlyDirectories) && Glob.isMatch r.glob path).map (·.verdict)

end IgnoreRule

/-- A line of a rule file. -/
inductive RuleLine where
  /-- A comment, or white space alone. -/
  | idle
  | rule (r : IgnoreRule)
  /-- A line with this text that is no glob. -/
  | invalid (text : String) (e : Glob.Error)

namespace RuleLine

def ofString (line : String) : RuleLine :=
  let cs := IgnoreRule.trimmed line.toList
  if line.startsWith "#" || cs.isEmpty then idle
  else
    match IgnoreRule.ofGlob true cs with
    | .ok r => rule r
    | .error e => invalid (String.ofList cs) e

def rule? : RuleLine → Option IgnoreRule
  | rule r => some r
  | _ => none

end RuleLine

structure RuleFile where
  lines : List RuleLine
  /-- Whether the lines end before one that is no text. -/
  isCut : Bool := false

namespace RuleFile

def empty : RuleFile := ⟨[], false⟩

/-- The lines of some text. The first may start with byte order marks. -/
def linesOfText (lines : List String) : List RuleLine :=
  match lines with
  | [] => []
  | first :: lines =>
    (String.ofList (first.toList.dropWhile (· = '\uFEFF')) :: lines).map RuleLine.ofString

/-- The rule file with some content. It is read up to the first line that is no text. -/
def ofContent (content : ByteArray) : RuleFile :=
  match Utf8.decode content with
  | .ok text => ⟨linesOfText (linesOf text), false⟩
  | .error e =>
    match Utf8.decode (content.extract 0 e.index) with
    | .ok text => ⟨linesOfText ((text.splitOn "\n").dropLast.map withoutReturn), true⟩
    | .error _ => ⟨[], true⟩

def written (f : RuleFile) : List IgnoreRule := f.lines.filterMap RuleLine.rule?

def fault? (f : RuleFile) : Option Glob.Fault := Glob.fault? (f.written.map (·.glob))

/-- The rules that count. They stand or fall together. -/
def rules (f : RuleFile) : List IgnoreRule := if f.fault?.isSome then [] else f.written

/-- What is wrong with the lines, one by one. A line that is no text is wrong only beside one that
is no glob. -/
def complaints (f : RuleFile) : List String :=
  let globs := f.lines.zipIdx.filterMap fun (line, i) =>
    match line with
    | .invalid text e => some (lineNumber i ++ IgnoreRule.complaint text e)
    | _ => none
  if f.isCut && !globs.isEmpty then
    globs ++ [lineNumber f.lines.length ++ "stream did not contain valid UTF-8"]
  else globs
where
  lineNumber (i : Nat) : String := "line " ++ toString (i + 1) ++ ": "

end RuleFile
end LexicalPatterns
