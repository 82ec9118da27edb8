import LexicalPatterns.Machine.Emitter
import LexicalPatterns.NameTable
import LexicalPatterns.Program
import LexicalPatterns.Syntax.Parse

/-!
# Batches

A batch collects the code of definitions that may refer to each other, also to names that are
defined later. Each definition becomes a run of instructions that ends with the only terminal in
it. A refused definition leaves the batch as it was. `finish` resolves the references and freezes
the batch into a program.
-/

namespace LexicalPatterns

inductive PatternError where
  | scan (e : ScanError)
  | parse (e : ParseError)
  | compile (e : CompileError)
  deriving DecidableEq, Repr

namespace PatternError

def span : PatternError → Span
  | scan e => e.span
  | parse e => e.span
  | compile e => e.span

def message : PatternError → String
  | scan e => e.message
  | parse e => e.message
  | compile e => e.message

end PatternError

/-- A defined pattern: its name and the instructions from `start` up to, and without, `stop`. -/
structure Placed where
  name : String
  start : Nat
  stop : Nat
  deriving DecidableEq, Repr

structure Batch where
  buffer : CodeBuffer
  names : NameTable
  fixups : Array Fixup
  /-- The source that references come from. -/
  origin : Nat
  deriving Repr

namespace Batch

def empty : Batch := ⟨.empty, .empty, #[], 0⟩

def withOrigin (b : Batch) (origin : Nat) : Batch := { b with origin }

def code (b : Batch) : Array Instruction := b.buffer.code

/-- Compiles the definition that is the first tree of a forest over `source`. If it is refused, the
code and the references that it has added are cut off. -/
def compile (b : Batch) (source : String) (f : Forest) : Except CompileError Placed × Batch :=
  match f.nodes, f.name source with
  | _ :: d :: _, some name =>
    if (b.names.lookup name).isSome then (.error (.duplicatePattern name d.span), b)
    else
      let start := b.buffer.size
      match (Emit.body source f.items).run ⟨b.buffer, b.fixups, b.origin, start⟩ with
      | (.error refusal, e) =>
        (.error refusal,
          { b with buffer := e.buffer.truncate start, fixups := e.fixups.take b.fixups.size })
      | (.ok _, e) =>
        let b := { b with buffer := e.buffer, fixups := e.fixups }
        match b.names.register name start with
        | .error _ => (.error (.duplicatePattern name d.span), b)
        | .ok names => (.ok ⟨name, start, e.buffer.size⟩, { b with names })
  | root :: _, _ => (.error (.notADefinition root.span), b)
  | [], _ => (.error (.notADefinition (.empty 0)), b)

def define (b : Batch) (source : String) (f : Forest) : Except CompileError (Placed × Batch) :=
  match b.compile source f with
  | (.error e, _) => .error e
  | (.ok p, b) => .ok (p, b)

def defineAll (source : String) : List Forest → Batch → Except CompileError (List Placed) × Batch
  | [], b => (.ok [], b)
  | f :: fs, b =>
    match b.compile source f with
    | (.error e, b) => (.error e, b)
    | (.ok p, b) =>
      let (placed, b) := defineAll source fs b
      (placed.map (p :: ·), b)

def definitions (source : String) : Except PatternError (List Forest) := do
  let tokens ← (tokenize source).mapError .scan
  let forest ← (Forest.ofTokens? source tokens).mapError fun f => .parse f.error
  return forest.split

/-- Adds the definitions of a source. Those before the first refused one stay. -/
def defineSource (b : Batch) (source : String) : Except PatternError (List Placed) × Batch :=
  match definitions source with
  | .error e => (.error e, b)
  | .ok fs =>
    let (placed, b) := b.defineAll source fs
    (placed.mapError .compile, b)

def isDangling (names : NameTable) (f : Fixup) : Bool := (names.lookup f.name).isNone

def resolve (names : NameTable) (code : Array Instruction) (f : Fixup) : Array Instruction :=
  match names.lookup f.name with
  | some target => code.modify f.index fun i => { i with action := .reference (some target) }
  | none => code

/-- The program of all definitions of the batch. With `strict` the first reference that no
definition answers is refused. -/
def finish (b : Batch) (strict : Bool) : Except CompileError Program :=
  match strict, b.fixups.toList.filter (isDangling b.names) with
  | true, f :: _ => .error (.unknownPattern f.name f.span f.origin)
  | _, dangling => .ok {
      code := b.fixups.foldl (resolve b.names) b.code
      names := b.names
      dangling := dangling.map fun f => ⟨f.name, f.span, f.origin⟩
    }

end Batch

/-- The program of one source, in which undefined names never match. -/
def Program.ofSource (source : String) : Except PatternError Program :=
  match Batch.empty.defineSource source with
  | (.error e, _) => .error e
  | (.ok _, b) => (b.finish false).mapError .compile

end LexicalPatterns
