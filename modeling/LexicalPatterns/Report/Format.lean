import LexicalPatterns.Report.Json
import LexicalPatterns.Report.Text

/-!
# Report formats
-/

namespace LexicalPatterns

inductive ReportFormat where
  | text
  | json
  deriving DecidableEq, Repr

/-- The format of a name; names without a format of their own mean text. -/
def ReportFormat.ofName (name : String) : ReportFormat := if name = "json" then json else text

def Report.render (r : Report) : ReportFormat → String
  | .text => r.text
  | .json => r.json.pretty ++ "\n"

end LexicalPatterns
