import LexicalPatterns.Machine.Run
import LexicalPatterns.NameTable
import LexicalPatterns.Text.Span

/-!
# Programs

A program is a finished batch of patterns: their code, the index where each name starts, and the
references that no definition answers.
-/

namespace LexicalPatterns

/-- A reference to a name that is not defined. -/
structure Dangling where
  name : String
  span : Span
  /-- The source that the reference comes from. -/
  origin : Nat
  deriving DecidableEq, Repr

structure Program where
  code : Array Instruction
  names : NameTable
  dangling : List Dangling
  recursionLimit : Nat := defaultRecursionLimit

namespace Program

/-- The program with a limit for the nesting of references, at most `maxRecursionLimit`. -/
def withRecursionLimit (p : Program) (limit : Nat) : Program :=
  { p with recursionLimit := min limit maxRecursionLimit }

def machine (p : Program) : Machine := .withLimit p.code p.recursionLimit

/-- Matches a pattern against a prefix of the input: the length of the prefix. A name that is not
defined matches nothing. -/
def matchLength (p : Program) (name : String) (input : List UInt8) :
    Except MatchError (Option Nat) :=
  match p.names.lookup name with
  | some start => p.machine.run start input
  | none => .ok none

end Program
end LexicalPatterns
