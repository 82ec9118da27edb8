import LexicalPatterns.Machine.Instruction

/-!
# Code buffers

A code buffer is the instruction list that all patterns of a batch share. It only grows at its end
or is cut off there, and keeps account of the capacity that it has reserved.
-/

namespace LexicalPatterns

/-- The capacity to grow to when `required` instructions do not fit in `current`. Doubling keeps
the cost of an append constant on average; half as much again as required leaves room after a large
append. -/
def grownCapacity (current required : Nat) : Nat :=
  max (max (current * 2) (required + required / 2)) 16

structure CodeBuffer where
  code : Array Instruction
  capacity : Nat
  deriving DecidableEq, Repr

namespace CodeBuffer

def empty : CodeBuffer := ⟨#[], 0⟩

def size (b : CodeBuffer) : Nat := b.code.size

def isEmpty (b : CodeBuffer) : Bool := b.code.isEmpty

def reserved (b : CodeBuffer) (additional : Nat) : Nat :=
  let required := b.size + additional
  if required > b.capacity then grownCapacity b.capacity required else b.capacity

def append (b : CodeBuffer) (more : Array Instruction) : CodeBuffer :=
  let capacity := b.reserved more.size
  ⟨b.code ++ more, capacity⟩

def push (b : CodeBuffer) (i : Instruction) : CodeBuffer :=
  let capacity := b.reserved 1
  ⟨b.code.push i, capacity⟩

/-- Appends a copy of the instructions from `start` up to, and without, `stop`. -/
def duplicate (b : CodeBuffer) (start stop : Nat) : CodeBuffer :=
  b.append (b.code.extract start stop)

def truncate (b : CodeBuffer) (size : Nat) : CodeBuffer := ⟨b.code.take size, b.capacity⟩

def modify (b : CodeBuffer) (i : Nat) (f : Instruction → Instruction) : CodeBuffer :=
  { b with code := b.code.modify i f }

def setMovement (b : CodeBuffer) (i : Nat) (movement : Int) : CodeBuffer :=
  b.modify i fun c => { c with movement }

@[simp] theorem size_append (b : CodeBuffer) (more : Array Instruction) :
    (b.append more).size = b.size + more.size := by simp [append, size]

@[simp] theorem size_push (b : CodeBuffer) (i : Instruction) : (b.push i).size = b.size + 1 := by
  simp [push, size]

@[simp] theorem size_truncate (b : CodeBuffer) (size : Nat) :
    (b.truncate size).size = min size b.size := by simp [truncate, CodeBuffer.size]

@[simp] theorem size_modify (b : CodeBuffer) (i : Nat) (f : Instruction → Instruction) :
    (b.modify i f).size = b.size := by simp [modify, size]

theorem grownCapacity_ge (current required : Nat) : required ≤ grownCapacity current required := by
  simp only [grownCapacity]
  omega

end CodeBuffer
end LexicalPatterns
