import LexicalPatterns.Syntax.Forest

/-!
# Building forests

A builder appends nodes in pre-order below the innermost open parent, and can afterwards put a new
node around the last siblings.
-/

namespace LexicalPatterns

/-- The nodes added so far and the positions of the open parents, the innermost first. -/
structure Builder where
  nodes : List Node
  parents : List Nat
  deriving DecidableEq, Repr

namespace Builder

def empty : Builder := ⟨[], []⟩

/-- The position that the next added node gets. -/
def length (b : Builder) : Nat := b.nodes.length

def isEmpty (b : Builder) : Bool := b.nodes.isEmpty

def countChildren (b : Builder) (f : Nat → Nat) : Builder :=
  match b.parents with
  | [] => b
  | p :: _ => { b with nodes := b.nodes.modify p fun n => { n with childCount := f n.childCount } }

def add (b : Builder) (kind : NodeKind) (span : Span) : Builder :=
  countChildren { b with nodes := b.nodes ++ [⟨kind, span, 0⟩] } (· + 1)

/-- Opens the node added last: it is the parent of the nodes to come. -/
def push (b : Builder) : Builder := { b with parents := (b.length - 1) :: b.parents }

def pop (b : Builder) : Builder := { b with parents := b.parents.tail }

/-- Puts a new node at `first` around the `count` siblings that start there, which are the last
children of the current parent. -/
def wrap (b : Builder) (first count : Nat) (kind : NodeKind) (span : Span) : Builder :=
  countChildren { b with nodes := b.nodes.insertIdx first ⟨kind, span, count⟩ } (· + 1 - count)

def setSpan (b : Builder) (i : Nat) (span : Span) : Builder :=
  { b with nodes := b.nodes.modify i fun n => { n with span := span } }

def finish (b : Builder) : Forest := ⟨b.nodes⟩

end Builder
end LexicalPatterns
