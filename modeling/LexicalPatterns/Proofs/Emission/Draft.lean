import LexicalPatterns.Machine.CompileError

/-!
# Drafts

The code of a definition is drafted as a list of instructions in which a reference still carries
its name and span. All movements are relative, so a draft means the same at every place, and the
copies that a repetition asks for are copies of one list.

Layouts, with jumps to the marked instruction:

    a | b | c      branch 3; jump A; jump B; jump C; A: a; jump J; B: b; jump J; C: c; J:
    x{1,3}         x; branch 2; jump X; jump E; X: x; branch 2; jump Y; jump E; Y: x; E:
    x{1,}          x; L: branch 2; jump X; jump E; X: x; jump L; E:
-/

namespace LexicalPatterns

/-- An instruction, or a reference that is not resolved. -/
inductive Draft where
  | code (instruction : Instruction)
  | use (name : String) (span : Span)
  deriving DecidableEq, Repr

namespace Draft

def instruction : Draft → Instruction
  | code i => i
  | use _ _ => .next (.reference none)

def emit (action : Action) : Draft := code (.next action)

def jump (movement : Int) : Draft := code (.jump movement)

/-- A choice between going on behind these three instructions and jumping over `skipped` more. -/
def guard (skipped : Nat) : List Draft := [emit (.branch 2), jump 2, jump (skipped + 1)]

def copies (count : Nat) (body : List Draft) : List Draft := (List.replicate count body).flatten

def optional (body : List Draft) : (count : Nat) → List Draft
  | 0 => []
  | count + 1 =>
    guard (body.length + count * (body.length + 3)) ++ body ++ optional body count

def loop (body : List Draft) : List Draft :=
  guard (body.length + 1) ++ body ++ [jump (-(body.length + 3 : Int))]

/-- One jump to each branch, where the first branch stands `distance` behind the first jump. -/
def entries (distance : Nat) : List (List Draft) → List Draft
  | [] => []
  | b :: bs => jump distance :: entries (distance + b.length - 1) bs

/-- The branches of a choice, each but the last with a jump behind the last. -/
def withExits : List (List Draft) → List (List Draft)
  | [] => []
  | [b] => [b]
  | b :: bs =>
    let rest := withExits bs
    (b ++ [jump (rest.flatten.length + 1)]) :: rest

/-- A choice between branches, earlier ones preferred. -/
def choice (branches : List (List Draft)) : List Draft :=
  let bodies := withExits branches
  emit (.branch bodies.length) :: entries bodies.length bodies ++ bodies.flatten

/-- Refuses copies of which the last would end at `stop`, too far from the start of the definition.
A single copy is always accepted. -/
def checkSize (copies stop : Nat) (span : Span) : Except CompileError Unit :=
  if 2 ≤ copies ∧ stop > maxPatternSize then .error (.patternTooLarge span) else .ok ()

mutual

/-- The code of a tree that is to stand `start` instructions behind the start of its definition. -/
def ofTree (source : String) (start : Nat) : Tree → Except CompileError (List Draft)
  | .node kind span children =>
    match kind with
    | .character b => .ok [emit (.literal b)]
    | .string bs => .ok (bs.map fun b => emit (.literal b))
    | .range low high =>
      if low > high then .error (.invertedRange low high span) else .ok [emit (.range low high)]
    | .wildcard => .ok [emit (.range 0 255)]
    | .reference => .ok [use (span.text source) span]
    | .declaration => .ok []
    | .definition | .group => ofTrees source start children
    | .choice => do
      let branches ← ofBranches source (start + 1 + children.length) children
      return choice branches
    | .exactly count => do
      checkRepeat count span
      if count = 0 then return []
      let body ← ofOperand source start children
      checkSize count (start + count * body.length) span
      return copies count body
    | .between min max => do
      if min > max then throw (.malformedRepetition min max span)
      checkRepeat max span
      if max = 0 then return []
      let body ← ofOperand source (if min = 0 then start + 3 else start) children
      checkSize max (start + max * body.length + (max - min) * 3) span
      return copies min body ++ optional body (max - min)
    | .atLeast min => do
      checkRepeat min span
      let body ← ofOperand source (if min = 0 then start + 3 else start) children
      checkSize (min + 1) (start + (min + 1) * body.length + 3) span
      return copies min body ++ loop body

def ofTrees (source : String) (start : Nat) : List Tree → Except CompileError (List Draft)
  | [] => .ok []
  | t :: ts => do
    let first ← ofTree source start t
    let rest ← ofTrees source (start + first.length) ts
    return first ++ rest

/-- The code of the branches of a choice; all but the last are followed by one jump. -/
def ofBranches (source : String) (start : Nat) : List Tree → Except CompileError (List (List Draft))
  | [] => .ok []
  | t :: ts => do
    let first ← ofTree source start t
    let rest ← ofBranches source (start + first.length + 1) ts
    return first :: rest

def ofOperand (source : String) (start : Nat) : List Tree → Except CompileError (List Draft)
  | [] => .ok []
  | t :: _ => ofTree source start t

end

end Draft
end LexicalPatterns
