import LexicalPatterns.Batch
import LexicalPatterns.Document

/-!
# Diagnostics

A diagnostic is a problem with a document, pointed at by a line, a column and the line's text.
-/

namespace LexicalPatterns

inductive Severity where
  | warning
  | error
  deriving DecidableEq, Repr

namespace Severity

def letter : Severity → Char
  | warning => 'W'
  | error => 'E'

def label : Severity → String
  | warning => "warning"
  | error => "error"

end Severity

structure Diagnostic where
  path : String
  position : Position
  severity : Severity
  message : String
  /-- The line with the problem, where it is known. -/
  snippet : Option String
  deriving DecidableEq, Repr

namespace Diagnostic

/-- The problem `message` at the start of a span of a document. -/
def atSpan (d : Document) (span : Span) (severity : Severity) (message : String) : Diagnostic where
  path := d.path
  position := d.position span.start
  severity := severity
  message := message
  snippet := some (d.lineText span.start)

def ofError (d : Document) (e : PatternError) : Diagnostic := atSpan d e.span .error e.message

def ofDangling (d : Document) (r : Dangling) : Diagnostic :=
  atSpan d r.span .warning ("reference to undefined pattern `" ++ r.name ++ "`")

def display (d : Diagnostic) : String :=
  d.path ++ ":" ++ toString d.position.line ++ ":" ++ toString d.position.column ++ ": " ++
    d.severity.label ++ ": " ++ d.message

/-- The order of diagnostics: by path, then by line, then by column. -/
def precedes (a b : Diagnostic) : Bool :=
  if a.path = b.path then
    if a.position.line = b.position.line then a.position.column ≤ b.position.column
    else a.position.line < b.position.line
  else a.path < b.path

end Diagnostic
end LexicalPatterns
