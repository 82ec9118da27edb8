import LexicalPatterns.Machine.CodeBuffer
import LexicalPatterns.Machine.CompileError

/-!
# Emitting code

The code of a definition is written in place, behind all other code of the buffer. Jumps over code
that is still to come are written first and patched when its end is known. Of the copies that a
repetition asks for, the first is compiled from its tree; the others duplicate its code, with the
references in it. What has been written when a definition is refused stays until it is cut off.
-/

namespace LexicalPatterns

/-- A reference in the code that waits for its target. -/
structure Fixup where
  index : Nat
  name : String
  span : Span
  origin : Nat
  deriving DecidableEq, Repr

/-- The code and the references while a definition is added that starts at `start`. -/
structure Emitter where
  buffer : CodeBuffer
  fixups : Array Fixup
  /-- The source that references come from. -/
  origin : Nat
  start : Nat

/-- A step that writes, and keeps what it has written when it refuses to go on. -/
abbrev Emit := ExceptT CompileError (StateM Emitter)

namespace Emit

def size : Emit Nat := return (← get).buffer.size

def push (i : Instruction) : Emit Nat := do
  let index ← size
  modify fun e => { e with buffer := e.buffer.push i }
  return index

def pushReference (name : String) (span : Span) : Emit Unit := do
  let index ← push (.next (.reference none))
  modify fun e => { e with fixups := e.fixups.push ⟨index, name, span, e.origin⟩ }

def patchJump (index target : Nat) : Emit Unit :=
  modify fun e => { e with buffer := e.buffer.setMovement index (target - index : Int) }

/-- Writes a choice between going on behind it and a jump that is still to be patched, and tells
the index of the jump. -/
def guard : Emit Nat := do
  let _ ← push (.next (.branch 2))
  let _ ← push (.jump 2)
  push (.jump 0)

/-- Writes a copy of the code between two indices, with the references in it. -/
def duplicate (start stop : Nat) : Emit Unit :=
  modify fun e =>
    let offset := e.buffer.size - start
    let inside := e.fixups.filter fun f => start ≤ f.index ∧ f.index < stop
    { e with
      buffer := e.buffer.duplicate start stop
      fixups := e.fixups ++ inside.map fun f => { f with index := f.index + offset } }

def checkBudget (more : Nat) (span : Span) : Emit Unit := do
  let e ← get
  if e.buffer.size - e.start + more > maxPatternSize then throw (.patternTooLarge span)

/-- Where the first copy of the operand of a repetition stands, if it is written. -/
abbrev Template := Option (Nat × Nat)

/-- Writes a copy of an operand: the first one itself, the others from the template. -/
def copy (operand : Emit Unit) (span : Span) : Template → Emit Template
  | some (start, stop) => do
    checkBudget (stop - start) span
    duplicate start stop
    return some (start, stop)
  | none => do
    let start ← size
    operand
    return some (start, ← size)

def copies (operand : Emit Unit) (span : Span) : (count : Nat) → Template → Emit Template
  | 0, template => return template
  | count + 1, template => do
    let template ← copy operand span template
    copies operand span count template

/-- Writes copies of an operand, each behind a guard, and tells the jumps of the guards. -/
def guarded (operand : Emit Unit) (span : Span) : (count : Nat) → Template → Emit (List Nat)
  | 0, _ => return []
  | count + 1, template => do
    let skip ← guard
    let template ← copy operand span template
    let skips ← guarded operand span count template
    return skip :: skips

def pushJumps : (count : Nat) → Emit Unit
  | 0 => return
  | count + 1 => do
    let _ ← push (.jump 0)
    pushJumps count

def pushLiterals : List UInt8 → Emit Unit
  | [] => return
  | b :: bs => do
    let _ ← push (.next (.literal b))
    pushLiterals bs

def patchJumps (target : Nat) : List Nat → Emit Unit
  | [] => return
  | index :: indices => do
    patchJump index target
    patchJumps target indices

def exactly (operand : Emit Unit) (span : Span) (count : Nat) : Emit Unit := do
  liftM (checkRepeat count span)
  let _ ← copies operand span count none

def between (operand : Emit Unit) (span : Span) (min max : Nat) : Emit Unit := do
  if min > max then throw (.malformedRepetition min max span)
  liftM (checkRepeat max span)
  let template ← copies operand span min none
  let skips ← guarded operand span (max - min) template
  patchJumps (← size) skips

def atLeast (operand : Emit Unit) (span : Span) (min : Nat) : Emit Unit := do
  liftM (checkRepeat min span)
  let template ← copies operand span min none
  let head ← size
  let exit ← guard
  let _ ← copy operand span template
  let back ← push (.jump 0)
  patchJump back head
  patchJump exit (← size)

mutual

def tree (source : String) : Tree → Emit Unit
  | .node kind span children =>
    match kind with
    | .character b => do let _ ← push (.next (.literal b))
    | .string bs => pushLiterals bs
    | .range low high => do
      if low > high then throw (.invertedRange low high span)
      let _ ← push (.next (.range low high))
    | .wildcard => do let _ ← push (.next (.range 0 255))
    | .reference => pushReference (span.text source) span
    | .declaration => return
    | .definition | .group => trees source children
    | .choice => do
      let first ← push (.next (.branch children.length))
      pushJumps children.length
      let exits ← branches source (first + 1) children
      patchJumps (← size) exits
    | .exactly count => exactly (operand source children) span count
    | .between min max => between (operand source children) span min max
    | .atLeast min => atLeast (operand source children) span min

def trees (source : String) : List Tree → Emit Unit
  | [] => return
  | t :: ts => do
    tree source t
    trees source ts

/-- Writes the branches of a choice. The jump to the first of them stands at `entry`, those to the
others behind it. All branches but the last end with a jump that is still to be patched, and these
jumps are told. -/
def branches (source : String) (entry : Nat) : List Tree → Emit (List Nat)
  | [] => return []
  | t :: ts => do
    patchJump entry (← size)
    tree source t
    if ts.isEmpty then return []
    else
      let exit ← push (.jump 0)
      let exits ← branches source (entry + 1) ts
      return exit :: exits

def operand (source : String) : List Tree → Emit Unit
  | [] => return
  | t :: _ => tree source t

end

def body (source : String) (items : List Tree) : Emit Unit := do
  trees source items
  let _ ← push (.next .terminal)

end Emit
end LexicalPatterns
