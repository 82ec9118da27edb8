import Std.Data.HashSet
import LexicalPatterns.Machine.Instruction

/-!
# Running code

A run matches code against a prefix of an input by ordered choice. It keeps threads in the order of
their preference and advances each by one instruction per generation. The thread that reaches a
terminal sets the match and ends all threads after it; the threads before it go on and may replace
the match.

Two threads of a generation at the same instruction and the same place of the input would do the
same, so only the first is kept. A thread that makes more steps than there are instructions without
consuming a byte repeats itself, and is given up. So a run ends on every code.
-/

namespace LexicalPatterns

inductive MatchError where
  | recursionLimit (limit : Nat)
  deriving DecidableEq, Repr

def MatchError.message : MatchError → String
  | recursionLimit limit =>
    "pattern references nest deeper than the limit of " ++ toString limit

def defaultRecursionLimit : Nat := 128

def maxRecursionLimit : Nat := 512

/-- One way to go on with a match. -/
structure Thread where
  index : Nat
  /-- The bytes consumed so far. -/
  consumed : Nat
  rest : List UInt8
  /-- The steps since a byte was last consumed. -/
  stalled : Nat
  deriving DecidableEq, Repr

namespace Thread

/-- The thread that starts at an index before the whole input. -/
def start (index : Nat) (input : List UInt8) : Thread := ⟨index, 0, input, 0⟩

/-- The index `movement` away from `index`; indices wrap at 64 bits. -/
def moved (index : Nat) (movement : Int) : Nat := ((index + movement) % UInt64.size).toNat

/-- The thread after it consumed `taken` bytes and moved on. -/
def advance (t : Thread) (taken : Nat) (movement : Int) : Thread where
  index := moved t.index movement
  consumed := t.consumed + taken
  rest := t.rest.drop taken
  stalled := if taken = 0 then t.stalled + 1 else 0

/-- The `offset`-th alternative of a branch. -/
def fork (t : Thread) (offset : Nat) : Thread :=
  { t with index := t.index + offset, stalled := t.stalled + 1 }

end Thread

/-- The threads of the next generation, and where they stand. -/
structure Queue where
  threads : Array Thread
  places : Std.HashSet (Nat × Nat)

namespace Queue

def empty : Queue := ⟨#[], ∅⟩

/-- Adds a thread behind the others, unless it is given up or one stands where it does. -/
def schedule (maxStalled : Nat) (q : Queue) (t : Thread) : Queue :=
  if t.stalled > maxStalled then q
  else if q.places.contains (t.index, t.consumed) then q
  else ⟨q.threads.push t, q.places.insert (t.index, t.consumed)⟩

end Queue

/-- What one instruction makes of a thread. -/
inductive Step where
  | matched
  | threads (next : List Thread)

/-- Code with a limit for the nesting of references. -/
structure Machine where
  code : Array Instruction
  recursionLimit : Nat

namespace Machine

def withLimit (code : Array Instruction) (limit : Nat) : Machine :=
  ⟨code, min limit maxRecursionLimit⟩

/-- Advances a thread by one instruction. `runAt` runs the target of a reference. -/
def step (m : Machine) (runAt : Nat → List UInt8 → Except MatchError (Option Nat)) (t : Thread) :
    Except MatchError Step :=
  match m.code[t.index]? with
  | none => .ok (.threads [])
  | some i =>
    match i.action with
    | .terminal => .ok .matched
    | .branch count => .ok (.threads ((List.range' 1 count).map t.fork))
    | .empty => .ok (.threads [t.advance 0 i.movement])
    | .literal _ | .range _ _ =>
      match t.rest with
      | b :: _ => .ok (.threads (if i.accepts b then [t.advance 1 i.movement] else []))
      | [] => .ok (.threads [])
    | .reference none => .ok (.threads [])
    | .reference (some target) => do
      match ← runAt target t.rest with
      | some taken => return .threads [t.advance taken i.movement]
      | none => return .threads []

/-- Advances the threads of a generation, up to the first that matches. -/
def generation (m : Machine) (runAt : Nat → List UInt8 → Except MatchError (Option Nat)) :
    List Thread → Queue → Except MatchError (Option Nat × Queue)
  | [], q => .ok (none, q)
  | t :: ts, q => do
    match ← m.step runAt t with
    | .matched => return (some t.consumed, q)
    | .threads next => generation m runAt ts (next.foldl (Queue.schedule m.code.size) q)

/-- Runs generations until no thread is left, `fuel` at most. `found` is the match so far. -/
def generations (m : Machine) (runAt : Nat → List UInt8 → Except MatchError (Option Nat)) :
    (fuel : Nat) → List Thread → (found : Option Nat) → Except MatchError (Option Nat)
  | 0, _, found => .ok found
  | fuel + 1, active, found =>
    if active.isEmpty then .ok found
    else do
      let (matched, q) ← m.generation runAt active .empty
      generations m runAt fuel q.threads.toList (matched.or found)

def maxGenerations (m : Machine) (input : List UInt8) : Nat :=
  (m.code.size + 1) * (input.length + 1)

/-- Runs the pattern at an index with `levels` levels of nesting left. -/
def runAt (m : Machine) : (levels : Nat) → Nat → List UInt8 → Except MatchError (Option Nat)
  | 0, _, _ => .error (.recursionLimit m.recursionLimit)
  | levels + 1, start, input =>
    m.generations (runAt m levels) (m.maxGenerations input) [Thread.start start input] none

/-- Matches the pattern at an index against a prefix of the input: the length of the prefix. -/
def run (m : Machine) (start : Nat) (input : List UInt8) : Except MatchError (Option Nat) :=
  m.runAt (m.recursionLimit + 1) start input

end Machine
end LexicalPatterns
