import LexicalPatterns.Machine.Instruction
import LexicalPatterns.Syntax.Tree

/-!
# Refused definitions

A definition is refused for a repetition or a range that is not one, for its size, or for its name.
-/

namespace LexicalPatterns

def maxRepeat : Nat := 4096

/-- The largest size to which copying may grow one definition. Nested repetitions multiply, so this
bounds the product and not each bound. -/
def maxPatternSize : Nat := 1048576

/-- Why a definition is refused. -/
inductive CompileError where
  /-- Only when references have to be resolved. `origin` tells the source of the reference. -/
  | unknownPattern (name : String) (span : Span) (origin : Nat)
  | malformedRepetition (min max : Nat) (span : Span)
  | repetitionLimit (count : Nat) (span : Span)
  | patternTooLarge (span : Span)
  | invertedRange (low high : UInt8) (span : Span)
  | duplicatePattern (name : String) (span : Span)
  | notADefinition (span : Span)
  deriving DecidableEq, Repr

namespace CompileError

def span : CompileError → Span
  | unknownPattern _ s _ => s
  | malformedRepetition _ _ s => s
  | repetitionLimit _ s => s
  | patternTooLarge s => s
  | invertedRange _ _ s => s
  | duplicatePattern _ s => s
  | notADefinition s => s

/-- The source that the error is in, where others than the one that is added may be. -/
def origin : CompileError → Nat
  | unknownPattern _ _ origin => origin
  | _ => 0

def message : CompileError → String
  | unknownPattern name _ _ => "reference to undefined pattern `" ++ name ++ "`"
  | malformedRepetition min max _ =>
    "repetition \x7b" ++ toString min ++ "," ++ toString max ++
      "\x7d has a minimum larger than its maximum"
  | repetitionLimit count _ =>
    "repetition count " ++ toString count ++ " exceeds the limit of " ++ toString maxRepeat
  | patternTooLarge _ =>
    "pattern expands to more than " ++ toString maxPatternSize ++ " instructions"
  | invertedRange low high _ =>
    "range " ++ quoteByte low ++ ".." ++ quoteByte high ++
      " has its lower bound above its upper bound"
  | duplicatePattern name _ => "pattern `" ++ name ++ "` is already defined"
  | notADefinition _ => "syntax tree is not a pattern definition"

end CompileError

def checkRepeat (count : Nat) (span : Span) : Except CompileError Unit :=
  if count > maxRepeat then .error (.repetitionLimit count span) else .ok ()

end LexicalPatterns
