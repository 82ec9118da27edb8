import LexicalPatterns.Proofs.Syntax.Addresses
import Mathlib.Algebra.GroupWithZero.Nat

/-!
# Flat forests are faithful

The flat forest of some trees tells of every position how long the subtree there is, where its
children are and which forest it is alone, and where the trees start. Counting the nodes of a
subtree one by one ends before the nodes do. Nothing is lost where the forest is taken apart.
-/

namespace LexicalPatterns

@[simp] theorem Tree.sizes_eq (ts : List Tree) : Tree.sizes ts = (ts.map Tree.size).sum := by
  induction ts with
  | nil => rfl
  | cons t ts ih => simp [Tree.sizes, ih]

theorem Tree.length_nodes (t : Tree) : t.nodes.length = t.size := by
  induction t using Tree.induction with
  | node kind span children ih =>
    have hchildren : (nodesAll children).length = (children.map size).sum := by
      rw [nodesAll_eq_flatMap, List.length_flatMap, List.map_congr_left ih]
    rw [nodes, List.length_cons, hchildren, size, sizes_eq, Nat.add_comm]

namespace Forest

/-- Where `pending` trees end that start at a position, found by reading one node after the other.
There is no result where a node is read behind the last one. -/
def stop? (f : Forest) (pending i : Nat) : Option Nat :=
  match pending with
  | 0 => some i
  | pending + 1 =>
    match h : f.nodes[i]? with
    | some n => stop? f (pending + n.childCount) (i + 1)
    | none => none
termination_by f.nodes.length - i
decreasing_by
  have := (List.getElem?_eq_some_iff.1 h).1
  omega

/-- The number of nodes of the subtree at a position, counted by reading them. -/
def countedLength? (f : Forest) (i : Nat) : Option Nat := (f.stop? 1 i).map (· - i)

variable {ts : List Tree}

theorem stop?_zero (f : Forest) (i : Nat) : f.stop? 0 i = some i := by rw [stop?]

theorem stop?_succ {f : Forest} {i : Nat} {n : Node} (h : f.nodes[i]? = some n) (pending : Nat) :
    f.stop? (pending + 1) i = f.stop? (pending + n.childCount) (i + 1) := by
  rw [stop?]
  split
  · next m hm => rw [Option.some.inj (hm.symm.trans h)]
  · next hm => simp [hm] at h

theorem stop?_nodesAll
    (h : ∀ t ∈ ts, ∀ before after pending,
      stop? ⟨before ++ (t.nodes ++ after)⟩ (pending + 1) before.length =
        stop? ⟨before ++ (t.nodes ++ after)⟩ pending (before.length + t.nodes.length))
    (before after : List Node) (pending : Nat) :
    stop? ⟨before ++ (Tree.nodesAll ts ++ after)⟩ (pending + ts.length) before.length =
      stop? ⟨before ++ (Tree.nodesAll ts ++ after)⟩ pending
        (before.length + (Tree.nodesAll ts).length) := by
  induction ts generalizing before with
  | nil => rfl
  | cons t ts ih =>
    obtain ⟨ht, hts⟩ := List.forall_mem_cons.1 h
    have hfirst := ht before (Tree.nodesAll ts ++ after) (pending + ts.length)
    have hrest := ih hts (before ++ t.nodes)
    simp only [List.append_assoc, List.length_append] at hrest
    simp only [Tree.nodesAll, List.append_assoc, List.length_cons, List.length_append,
      ← Nat.add_assoc]
    rw [hfirst, hrest]

theorem stop?_nodes (t : Tree) (before after : List Node) (pending : Nat) :
    stop? ⟨before ++ (t.nodes ++ after)⟩ (pending + 1) before.length =
      stop? ⟨before ++ (t.nodes ++ after)⟩ pending (before.length + t.nodes.length) := by
  induction t using Tree.induction generalizing before after pending with
  | node kind span children ih =>
    have hchildren := stop?_nodesAll ih (before ++ [⟨kind, span, children.length⟩]) after pending
    simp only [List.append_assoc, List.singleton_append, List.length_append, List.length_singleton]
      at hchildren
    have hroot : (before ++ ((Tree.node kind span children).nodes ++ after))[before.length]? =
        some ⟨kind, span, children.length⟩ := by simp [Tree.nodes]
    rw [stop?_succ hroot]
    simp only [Tree.nodes, List.cons_append, List.length_cons, hchildren]
    congr 1
    omega

theorem countedLength?_append (before after : List Node) (t : Tree) :
    countedLength? ⟨before ++ (t.nodes ++ after)⟩ before.length = some t.size := by
  rw [countedLength?, ← Nat.zero_add 1, stop?_nodes, stop?_zero, Option.map_some, t.length_nodes,
    Nat.add_sub_cancel_left]

/-- Whether a flat forest is faithful to some trees. Its nodes are the roots of their subtrees,
which stand in the order of their addresses. It tells the size of each subtree, the positions of
its children and the forest that the subtree is alone. It tells where the trees start, and taking
it apart there gives each tree alone, loses no node, and leaves none in two parts. -/
structure Faithful (ts : List Tree) (f : Forest) : Prop where
  nodes : f.nodes = (Tree.locatedAll ts).map fun x => x.2.root
  ordered : (Tree.locatedAll ts).Pairwise fun x y => x.1 < y.1
  size : ∀ (i : Nat) x, (Tree.locatedAll ts)[i]? = some x →
    f.countedLength? i = some x.2.size ∧ f.subtreeLength i = x.2.size ∧ i + x.2.size ≤ f.length
  children : ∀ (i : Nat) x, (Tree.locatedAll ts)[i]? = some x →
    (f.children i).map (fun j => (Tree.locatedAll ts)[j]?) =
      x.2.children.zipIdx.map fun (c, k) => some (x.1 ++ [k], c)
  extract : ∀ (i : Nat) x, (Tree.locatedAll ts)[i]? = some x → f.extract i = ofTrees [x.2]
  roots : f.roots.map (fun i => (Tree.locatedAll ts)[i]?) =
    ts.zipIdx.map fun (t, k) => some ([k], t)
  split : f.split = ts.map fun t => ofTrees [t]
  joined : f.split.flatMap Forest.nodes = f.nodes
  trees : f.trees = ts

theorem exists_nodes_eq {i : Nat} {x : List Nat × Tree} (hx : (Tree.locatedAll ts)[i]? = some x) :
    ∃ before after, Tree.nodesAll ts = before ++ (x.2.nodes ++ after) ∧ before.length = i := by
  obtain ⟨before, after, heq, hlength⟩ := Tree.exists_locatedAll hx
  refine ⟨before.map fun x => x.2.root, after.map fun x => x.2.root, ?_, ?_⟩
  · rw [← Tree.map_root_locatedAll, heq]
    simp
  · rw [List.length_map, hlength]

/-- The forest of trees is faithful to them. -/
theorem faithful_ofTrees (ts : List Tree) : Faithful ts (ofTrees ts) := by
  constructor
  case nodes => exact (Tree.map_root_locatedAll ts).symm
  case ordered => exact Tree.pairwise_locatedAll ts
  case size =>
    intro i x hx
    obtain ⟨before, after, hnodes, rfl⟩ := exists_nodes_eq hx
    rw [ofTrees, hnodes]
    refine ⟨countedLength?_append before after x.2, ?_, ?_⟩
    · rw [subtreeLength_append, x.2.length_nodes]
    · rw [Forest.length, List.length_append, List.length_append, x.2.length_nodes]
      omega
  case children =>
    intro i x hx
    obtain ⟨front, back, hlocated, hlength⟩ := Tree.exists_locatedAll hx
    obtain ⟨before, after, hnodes, rfl⟩ := exists_nodes_eq hx
    have hmap := Tree.map_getElem?_locatedFrom (front ++ [x]) back x.1 0 x.2.children
    rw [ofTrees, hnodes, children_append, hlocated, Tree.located_eq_cons, ← hlength]
    simpa using hmap
  case extract =>
    intro i x hx
    obtain ⟨before, after, hnodes, rfl⟩ := exists_nodes_eq hx
    rw [ofTrees, hnodes, extract_append]
  case roots =>
    have hmap := Tree.map_getElem?_locatedFrom [] [] [] 0 ts
    rw [roots_ofTrees]
    simpa [Tree.locatedAll] using hmap
  case split => exact split_ofTrees ts
  case joined =>
    rw [split_ofTrees, List.flatMap_map, ofTrees, Tree.nodesAll_eq_flatMap]
    simp [ofTrees]
  case trees => exact trees_ofTrees ts

end Forest
end LexicalPatterns
