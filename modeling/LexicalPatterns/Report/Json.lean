import LexicalPatterns.Report.Basic
import LexicalPatterns.Text.Json

/-!
# Reports as JSON

One object with the counts, the diagnostics and the results. A result without an error has no
member for it.
-/

namespace LexicalPatterns

def Diagnostic.json (d : Diagnostic) : JsonValue :=
  .object [("path", .string d.path), ("line", .number d.position.line),
    ("column", .number d.position.column), ("severity", .string d.severity.label),
    ("message", .string d.message)]

def Outcome.json (o : Outcome) : JsonValue :=
  let error := match o.error with
    | some e => [("error", .string e)]
    | none => []
  .object ([("pattern", .string o.pattern), ("input", .string o.input),
    ("offset", .number o.offset),
    ("matched", (o.matched.map JsonValue.string).getD .null)] ++ error)

def Report.json (r : Report) : JsonValue :=
  .object [
    ("metadata", .object [("files_loaded", .number r.files.length),
      ("pattern_count", .number r.patternCount), ("input_count", .number r.outcomes.length),
      ("matched_count", .number r.matchedCount)]),
    ("diagnostics", .array (r.diagnostics.map Diagnostic.json)),
    ("results", .array (r.outcomes.map Outcome.json))]

end LexicalPatterns
