import LexicalPatterns.Text.Escaped

/-!
# Instructions

Every pattern compiles into a run of instructions in one shared list. After an instruction succeeds
the machine goes on `movement` instructions further, which is 1 for the next one.
-/

namespace LexicalPatterns

/-- What an instruction does. -/
inductive Action where
  /-- Consumes nothing and succeeds. -/
  | empty
  | literal (byte : UInt8)
  /-- Consumes a byte between two bounds, which belong to the range. -/
  | range (low high : UInt8)
  /-- Runs the pattern that starts at an index. Without one it never matches. -/
  | reference (target : Option Nat)
  /-- Goes on with each of the next `count` instructions, the first one preferred. -/
  | branch (count : Nat)
  /-- The pattern matches. -/
  | terminal
  deriving DecidableEq, Repr

structure Instruction where
  action : Action
  movement : Int
  deriving DecidableEq, Repr

def Action.display : Action → String
  | empty => "empty"
  | literal b => "literal " ++ quoteByte b
  | range low high => "range " ++ quoteByte low ++ ".." ++ quoteByte high
  | reference (some target) => "reference @" ++ toString target
  | reference none => "reference <unresolved>"
  | branch count => "branch " ++ toString count
  | terminal => "terminal"

/-- An integer with its sign, also when it is positive. -/
def signed (n : Int) : String := if n < 0 then toString n else "+" ++ toString n

def padRight (width : Nat) (s : String) : String := s ++ "".pushn ' ' (width - s.length)

def padLeft (width : Nat) (s : String) : String := "".pushn ' ' (width - s.length) ++ s

namespace Instruction

/-- An instruction that the next one follows. -/
def next (action : Action) : Instruction := ⟨action, 1⟩

/-- A jump that consumes nothing. -/
def jump (movement : Int) : Instruction := ⟨.empty, movement⟩

def accepts (i : Instruction) (b : UInt8) : Bool :=
  match i.action with
  | .literal expected => b == expected
  | .range low high => low ≤ b && b ≤ high
  | _ => false

def display (i : Instruction) : String :=
  match i.action with
  | .terminal => i.action.display
  | action => padRight 24 action.display ++ " " ++ signed i.movement

end Instruction
end LexicalPatterns
