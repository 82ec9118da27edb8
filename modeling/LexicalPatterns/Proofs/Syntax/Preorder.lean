import LexicalPatterns.Syntax.Forest

/-!
# Trees and their pre-order

The nodes of trees in pre-order say, through the numbers of children alone, where each tree ends.
So the trees are read back from them, and the forest is taken apart into its trees.
-/

namespace LexicalPatterns

namespace Tree

@[elab_as_elim]
theorem induction {P : Tree → Prop}
    (node : ∀ kind span children, (∀ t ∈ children, P t) → P (.node kind span children)) :
    ∀ t, P t
  | .node kind span children => node kind span children fun t _ => induction node t

theorem nodesAll_eq_flatMap (ts : List Tree) : nodesAll ts = ts.flatMap nodes := by
  induction ts with
  | nil => rfl
  | cons t ts ih => rw [nodesAll, ih, List.flatMap_cons]

@[simp] theorem nodesAll_append (us vs : List Tree) :
    nodesAll (us ++ vs) = nodesAll us ++ nodesAll vs := by
  simp only [nodesAll_eq_flatMap, List.flatMap_append]

end Tree

namespace Forest

theorem foldr_adopt_nodesAll {ts : List Tree}
    (h : ∀ t ∈ ts, ∀ following, t.nodes.foldr adopt following = t :: following)
    (following : List Tree) : (Tree.nodesAll ts).foldr adopt following = ts ++ following := by
  induction ts with
  | nil => rfl
  | cons t ts ih =>
    obtain ⟨ht, hts⟩ := List.forall_mem_cons.1 h
    rw [Tree.nodesAll, List.foldr_append, ih hts, ht, List.cons_append]

theorem foldr_adopt_nodes (t : Tree) (following : List Tree) :
    t.nodes.foldr adopt following = t :: following := by
  induction t using Tree.induction generalizing following with
  | node kind span children ih =>
    rw [Tree.nodes, List.foldr_cons, foldr_adopt_nodesAll ih, adopt]
    simp

@[simp] theorem trees_ofTrees (ts : List Tree) : (ofTrees ts).trees = ts := by
  rw [trees, ofTrees, foldr_adopt_nodesAll fun t _ => foldr_adopt_nodes t, List.append_nil]

/-- A forest is the pre-order of one list of trees. -/
theorem ofTrees_injective : Function.Injective ofTrees :=
  Function.LeftInverse.injective trees_ofTrees

theorem lengthOf_nodesAll {ts : List Tree}
    (h : ∀ t ∈ ts, ∀ pending ns,
      lengthOf (pending + 1) (t.nodes ++ ns) = t.nodes.length + lengthOf pending ns)
    (pending : Nat) (ns : List Node) :
    lengthOf (pending + ts.length) (Tree.nodesAll ts ++ ns) =
      (Tree.nodesAll ts).length + lengthOf pending ns := by
  induction ts with
  | nil => exact (Nat.zero_add _).symm
  | cons t ts ih =>
    obtain ⟨ht, hts⟩ := List.forall_mem_cons.1 h
    rw [Tree.nodesAll, List.append_assoc, List.length_cons, ← Nat.add_assoc, ht, ih hts,
      List.length_append, Nat.add_assoc]

theorem lengthOf_nodes (t : Tree) (pending : Nat) (ns : List Node) :
    lengthOf (pending + 1) (t.nodes ++ ns) = t.nodes.length + lengthOf pending ns := by
  induction t using Tree.induction generalizing pending ns with
  | node kind span children ih =>
    rw [Tree.nodes, List.cons_append, lengthOf, lengthOf_nodesAll ih, List.length_cons]
    omega

theorem lengthOf_zero (ns : List Node) : lengthOf 0 ns = 0 := by
  cases ns <;> rfl

theorem subtreeLength_append (before after : List Node) (t : Tree) :
    subtreeLength ⟨before ++ (t.nodes ++ after)⟩ before.length = t.nodes.length := by
  rw [subtreeLength]
  dsimp only
  rw [List.drop_left, ← Nat.zero_add 1, lengthOf_nodes, lengthOf_zero, Nat.add_zero]

theorem extract_append (before after : List Node) (t : Tree) :
    extract ⟨before ++ (t.nodes ++ after)⟩ before.length = ofTrees [t] := by
  rw [extract, subtreeLength_append]
  dsimp only
  rw [List.drop_left, List.take_left, ofTrees, Tree.nodesAll, Tree.nodesAll, List.append_nil]

theorem rootsFrom_nodesAll (first : Nat) (t : Tree) (ts : List Tree) :
    rootsFrom first (Tree.nodesAll (t :: ts)) =
      first :: rootsFrom (first + t.nodes.length) (Tree.nodesAll ts) := by
  obtain ⟨kind, span, children⟩ := t
  have hinner : lengthOf children.length (Tree.nodesAll children ++ Tree.nodesAll ts) =
      (Tree.nodesAll children).length := by
    rw [← Nat.zero_add children.length, lengthOf_nodesAll fun t _ => lengthOf_nodes t,
      lengthOf_zero, Nat.add_zero]
  rw [Tree.nodesAll, Tree.nodes, List.cons_append, rootsFrom]
  dsimp only
  rw [hinner, List.drop_left, List.length_cons, Nat.add_assoc, Nat.add_comm 1]

/-- Taking a forest apart gives each of its trees. -/
theorem split_ofTrees (ts : List Tree) : (ofTrees ts).split = ts.map fun t => ofTrees [t] := by
  suffices h : ∀ before, (rootsFrom before.length (Tree.nodesAll ts)).map
      (extract ⟨before ++ Tree.nodesAll ts⟩) = ts.map fun t => ofTrees [t] from h []
  induction ts with
  | nil =>
    intro before
    rw [Tree.nodesAll, rootsFrom]
    rfl
  | cons t ts ih =>
    intro before
    have hmore := ih (before ++ t.nodes)
    rw [List.append_assoc, List.length_append] at hmore
    rw [rootsFrom_nodesAll, List.map_cons, List.map_cons, Tree.nodesAll, extract_append, hmore]

end Forest
end LexicalPatterns
