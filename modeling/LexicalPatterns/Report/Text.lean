import LexicalPatterns.Report.Basic
import LexicalPatterns.Text.Quoted

/-!
# Reports as text

The diagnostics come first, then one line for each input, an empty line and the counts.
-/

namespace LexicalPatterns

/-- The result of an input. An offset is only told where it is not zero. -/
def Outcome.result (o : Outcome) : String :=
  match o.error, o.matched with
  | some e, _ => "error: " ++ e
  | none, some text =>
    if o.offset > 0 then quoted text ++ " at " ++ toString o.offset else quoted text
  | none, none => "no match"

def Outcome.line (o : Outcome) : String :=
  o.pattern ++ ": " ++ quoted o.input ++ " -> " ++ o.result

def unlines (lines : List String) : String := String.join (lines.map (· ++ "\n"))

namespace Report

def countLine (r : Report) : String :=
  let total := r.outcomes.length
  toString total ++ (if total = 1 then " input" else " inputs") ++ " checked, " ++
    toString r.matchedCount ++ " matched"

def text (r : Report) : String :=
  unlines (r.diagnostics.map Diagnostic.display ++ r.outcomes.map Outcome.line ++ ["", r.countLine])

end Report
end LexicalPatterns
