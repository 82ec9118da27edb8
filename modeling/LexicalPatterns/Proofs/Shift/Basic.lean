import LexicalPatterns.Batch
import LexicalPatterns.Proofs.Syntax.Derivation
import LexicalPatterns.Proofs.Syntax.Preorder

/-!
# Shifted spans

Where a source stands in a larger one, what is told of it is told of the larger one with all spans
shifted by what stands before it. A shift changes spans only, and one by nothing changes nothing.
-/

namespace LexicalPatterns

def Span.shift (k : Nat) (s : Span) : Span := ⟨s.start + k, s.stop + k⟩

def Token.shift (k : Nat) (t : Token) : Token := { t with span := t.span.shift k }

def Fixup.shift (k : Nat) (f : Fixup) : Fixup := { f with span := f.span.shift k }

def ScanError.shift (k : Nat) : ScanError → ScanError
  | unterminatedQuote s => unterminatedQuote (s.shift k)
  | emptyQuote s => emptyQuote (s.shift k)
  | invalidEscape c s => invalidEscape c (s.shift k)

def ParseError.shift (k : Nat) : ParseError → ParseError
  | unexpectedToken expected found s => unexpectedToken expected found (s.shift k)
  | unexpectedEnd expected s => unexpectedEnd expected (s.shift k)
  | invalidNumber text s => invalidNumber text (s.shift k)
  | invalidRange s => invalidRange (s.shift k)
  | unclosedGroup s => unclosedGroup (s.shift k)

def CompileError.shift (k : Nat) : CompileError → CompileError
  | unknownPattern name s origin => unknownPattern name (s.shift k) origin
  | malformedRepetition min max s => malformedRepetition min max (s.shift k)
  | repetitionLimit count s => repetitionLimit count (s.shift k)
  | patternTooLarge s => patternTooLarge (s.shift k)
  | invertedRange low high s => invertedRange low high (s.shift k)
  | duplicatePattern name s => duplicatePattern name (s.shift k)
  | notADefinition s => notADefinition (s.shift k)

def PatternError.shift (k : Nat) : PatternError → PatternError
  | scan e => scan (e.shift k)
  | parse e => parse (e.shift k)
  | compile e => compile (e.shift k)

mutual

def Tree.shift (k : Nat) : Tree → Tree
  | .node kind span children => .node kind (span.shift k) (Tree.shiftAll k children)

def Tree.shiftAll (k : Nat) : List Tree → List Tree
  | [] => []
  | t :: ts => Tree.shift k t :: Tree.shiftAll k ts

end

theorem Tree.shiftAll_eq_map (k : Nat) (ts : List Tree) : shiftAll k ts = ts.map (shift k) := by
  induction ts with
  | nil => rfl
  | cons t ts ih => rw [shiftAll, ih, List.map_cons]

theorem Tree.shift_node (k : Nat) (kind : NodeKind) (span : Span) (children : List Tree) :
    shift k (.node kind span children) = .node kind (span.shift k) (children.map (shift k)) := by
  rw [shift, shiftAll_eq_map]

theorem Tree.shift_leaf (k : Nat) (kind : NodeKind) (span : Span) :
    shift k (.leaf kind span) = .leaf kind (span.shift k) :=
  rfl

@[simp] theorem Token.span_shift (k : Nat) (t : Token) : (t.shift k).span = t.span.shift k := rfl

theorem Token.shift_zero : Token.shift 0 = id := rfl

theorem Fixup.shift_zero : Fixup.shift 0 = id := rfl

theorem CompileError.shift_zero : CompileError.shift 0 = id := by
  funext e
  cases e <;> rfl

theorem Tree.shift_zero : Tree.shift 0 = id := by
  funext t
  induction t using Tree.induction with
  | node kind span children ih =>
    rw [shift_node, List.map_congr_left ih, List.map_id]
    rfl

theorem Span.join_shift (k : Nat) (s s' : Span) :
    (s.shift k).join (s'.shift k) = (s.join s').shift k := by
  simp only [join, shift, Nat.add_min_add_right, Nat.add_max_add_right]

theorem Token.cover_shift (k : Nat) {ts : List Token} (h : ts ≠ []) :
    cover (ts.map (shift k)) = (cover ts).shift k := by
  obtain ⟨t, ts, rfl⟩ := List.exists_cons_of_ne_nil h
  unfold cover
  rw [List.getLast?_map, List.getLast?_eq_some_getLast h]
  rfl

end LexicalPatterns
