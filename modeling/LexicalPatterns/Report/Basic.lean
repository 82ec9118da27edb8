import LexicalPatterns.Diagnostic
import LexicalPatterns.Text.Utf8

/-!
# Reports

A report tells what was loaded and how each input fared.
-/

namespace LexicalPatterns

/-- How one input fared against one pattern. -/
structure Outcome where
  pattern : String
  input : String
  /-- The byte offset where the match starts. -/
  offset : Nat
  /-- The matched text. -/
  matched : Option String
  /-- Why matching was given up. -/
  error : Option String
  deriving DecidableEq, Repr

namespace Outcome

def isMatch (o : Outcome) : Bool := o.matched.isSome

/-- Matches the suffixes of an input in order, of which the first starts at `offset` and `more`
follow, until one matches or the match is given up. -/
def ofSuffixes (p : Program) (pattern input : String) :
    (offset more : Nat) → List UInt8 → Outcome
  | offset, more, bytes =>
    match p.matchLength pattern bytes with
    | .ok (some length) =>
      ⟨pattern, input, offset, some (Utf8.lossy (bytes.take length)), none⟩
    | .error e => ⟨pattern, input, offset, none, some e.message⟩
    | .ok none =>
      match more with
      | 0 => ⟨pattern, input, 0, none, none⟩
      | more + 1 => ofSuffixes p pattern input (offset + 1) more (bytes.drop 1)
termination_by _ more => more

/-- Matches an input at its start or, to `search`, at the first place where it matches. -/
def ofInput (p : Program) (pattern input : String) (search : Bool) : Outcome :=
  ofSuffixes p pattern input 0 (if search then input.utf8ByteSize else 0) input.toUTF8.toList

end Outcome

structure Report where
  files : List String
  patternCount : Nat
  diagnostics : List Diagnostic
  outcomes : List Outcome

namespace Report

def matchedCount (r : Report) : Nat := r.outcomes.countP Outcome.isMatch

def allMatched (r : Report) : Bool := r.outcomes.all Outcome.isMatch

end Report
end LexicalPatterns
