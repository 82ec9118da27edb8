import LexicalPatterns.Syntax.Tree

/-!
# Flat forests

A forest is kept as the pre-order list of its nodes, each with the number of its children. The
descendants of a node follow it without a gap, so a subtree is a range of positions and copying one
is taking a slice. `ofTrees` writes the list and `trees` reads it back.
-/

namespace LexicalPatterns

/-- One node of a flat forest. -/
structure Node where
  kind : NodeKind
  span : Span
  childCount : Nat
  deriving DecidableEq, Repr

mutual

def Tree.nodes : Tree → List Node
  | .node kind span children => ⟨kind, span, children.length⟩ :: Tree.nodesAll children

def Tree.nodesAll : List Tree → List Node
  | [] => []
  | t :: ts => Tree.nodes t ++ Tree.nodesAll ts

end

/-- The nodes of any number of trees, in pre-order. -/
structure Forest where
  nodes : List Node
  deriving DecidableEq, Repr

namespace Forest

def ofTrees (trees : List Tree) : Forest := ⟨Tree.nodesAll trees⟩

/-- Puts a node before the trees that follow it: the first of them become its children. -/
def adopt (n : Node) (following : List Tree) : List Tree :=
  .node n.kind n.span (following.take n.childCount) :: following.drop n.childCount

/-- The trees that the nodes list. -/
def trees (f : Forest) : List Tree := f.nodes.foldr adopt []

def length (f : Forest) : Nat := f.nodes.length

def isEmpty (f : Forest) : Bool := f.nodes.isEmpty

/-- How many leading nodes make up `pending` trees. -/
def lengthOf : Nat → List Node → Nat
  | 0, _ => 0
  | _ + 1, [] => 0
  | pending + 1, n :: ns => lengthOf (pending + n.childCount) ns + 1

def subtreeLength (f : Forest) (i : Nat) : Nat := lengthOf 1 (f.nodes.drop i)

/-- The first position of the subtree at `i`, and the first after it. -/
def subtree (f : Forest) (i : Nat) : Nat × Nat := (i, i + f.subtreeLength i)

def siblings (f : Forest) : (count i : Nat) → List Nat
  | 0, _ => []
  | count + 1, i => i :: siblings f count (i + f.subtreeLength i)

/-- The positions of the children of the node at a position, in source order. -/
def children (f : Forest) (i : Nat) : List Nat :=
  match f.nodes[i]? with
  | none => []
  | some n => f.siblings n.childCount (i + 1)

def extract (f : Forest) (i : Nat) : Forest := ⟨(f.nodes.drop i).take (f.subtreeLength i)⟩

def rootsFrom (i : Nat) (nodes : List Node) : List Nat :=
  match nodes with
  | [] => []
  | n :: ns =>
    let inner := lengthOf n.childCount ns
    i :: rootsFrom (i + 1 + inner) (ns.drop inner)
termination_by nodes.length
decreasing_by simp only [List.length_drop, List.length_cons]; omega

def roots (f : Forest) : List Nat := rootsFrom 0 f.nodes

def split (f : Forest) : List Forest := f.roots.map f.extract

def repeats (f : Forest) : List Nat :=
  (List.range f.length).filter fun i => f.nodes[i]?.any (·.kind.isRepeat)

/-- The items of the definition that is the first tree: what follows its declaration. -/
def items (f : Forest) : List Tree :=
  match f.trees with
  | [] => []
  | t :: _ => t.children.drop 1

def name (f : Forest) (source : String) : Option String :=
  match f.nodes with
  | root :: d :: _ =>
    if root.kind = .definition ∧ d.kind = .declaration then some (d.span.text source) else none
  | _ => none

def summary (f : Forest) (source : String) : String :=
  " ".intercalate (f.trees.map (Tree.summary source))

end Forest
end LexicalPatterns
