import LexicalPatterns.Proofs.Lists
import LexicalPatterns.Proofs.Syntax.Preorder

/-!
# Positions in forests

A position in the pre-order of trees is the place of one subtree. What stands before it and behind
it stays as it is when the subtree is changed, and the trees that follow each other from a position
on start at positions that their lengths tell.
-/

namespace LexicalPatterns

namespace Tree

variable {ts : List Tree} {t : Tree} {before after : List Node} {f : Tree → Tree}

mutual

def changeAt (f : Tree → Tree) : Tree → Nat → Tree
  | .node kind span children, 0 => f (.node kind span children)
  | .node kind span children, i + 1 => .node kind span (changeAllAt f children i)

def changeAllAt (f : Tree → Tree) : List Tree → Nat → List Tree
  | [], _ => []
  | t :: ts, i =>
    if i < t.nodes.length then changeAt f t i :: ts
    else t :: changeAllAt f ts (i - t.nodes.length)

end

theorem nodes_ne_nil (t : Tree) : t.nodes ≠ [] := by
  cases t
  exact List.cons_ne_nil _ _

theorem length_nodes_pos (t : Tree) : 0 < t.nodes.length := List.length_pos_iff.2 t.nodes_ne_nil

theorem nodes_eq_cons (t : Tree) :
    t.nodes = ⟨t.kind, t.span, t.children.length⟩ :: nodesAll t.children := by
  cases t
  rfl

@[simp] theorem nodesAll_singleton (t : Tree) : nodesAll [t] = t.nodes := List.append_nil _

@[simp] theorem length_changeAllAt (f : Tree → Tree) (ts : List Tree) (i : Nat) :
    (changeAllAt f ts i).length = ts.length := by
  induction ts generalizing i with
  | nil => rfl
  | cons t ts ih =>
    rw [changeAllAt]
    split
    · rfl
    · rw [List.length_cons, List.length_cons, ih]

section Parts

variable {P : Tree → Prop}

theorem exists_partAll
    (h : ∀ t ∈ ts, ∀ i < t.nodes.length, ∃ before s after, P s ∧
      t.nodes = before ++ (s.nodes ++ after) ∧ before.length = i ∧
      ∀ f, (changeAt f t i).nodes = before ++ ((f s).nodes ++ after))
    {i : Nat} (hi : i < (nodesAll ts).length) :
    ∃ before s after, P s ∧ nodesAll ts = before ++ (s.nodes ++ after) ∧ before.length = i ∧
      ∀ f, nodesAll (changeAllAt f ts i) = before ++ ((f s).nodes ++ after) := by
  induction ts generalizing i with
  | nil => cases hi
  | cons t ts ih =>
    obtain ⟨ht, hts⟩ := List.forall_mem_cons.1 h
    rw [nodesAll, List.length_append] at hi
    by_cases hlt : i < t.nodes.length
    · obtain ⟨before, s, after, hs, hnodes, hlength, hchange⟩ := ht i hlt
      refine ⟨before, s, after ++ nodesAll ts, hs, ?_, hlength, fun f => ?_⟩
      · simp only [nodesAll, hnodes, List.append_assoc]
      · simp only [changeAllAt, if_pos hlt, nodesAll, hchange, List.append_assoc]
    · obtain ⟨before, s, after, hs, hnodes, hlength, hchange⟩ :=
        ih hts (i := i - t.nodes.length) (by omega)
      refine ⟨t.nodes ++ before, s, after, hs, ?_, ?_, fun f => ?_⟩
      · simp only [nodesAll, hnodes, List.append_assoc]
      · rw [List.length_append, hlength]
        omega
      · simp only [changeAllAt, if_neg hlt, nodesAll, hchange, List.append_assoc]

theorem exists_part_nodes
    (hP : ∀ kind span children, P (.node kind span children) → ∀ t ∈ children, P t) (t : Tree)
    (h : P t) : ∀ i < t.nodes.length, ∃ before s after, P s ∧
      t.nodes = before ++ (s.nodes ++ after) ∧ before.length = i ∧
      ∀ f, (changeAt f t i).nodes = before ++ ((f s).nodes ++ after) := by
  induction t using Tree.induction with
  | node kind span children ih =>
    intro i hi
    cases i with
    | zero =>
      exact ⟨[], .node kind span children, [], h, by simp, rfl, fun f => by simp [changeAt]⟩
    | succ i =>
      have hchildren := hP kind span children h
      rw [nodes, List.length_cons] at hi
      obtain ⟨before, s, after, hs, hnodes, hlength, hchange⟩ :=
        exists_partAll (fun t ht => ih t ht (hchildren t ht)) (Nat.lt_of_succ_lt_succ hi)
      refine ⟨⟨kind, span, children.length⟩ :: before, s, after, hs, ?_, ?_, fun f => ?_⟩
      · rw [nodes, hnodes, List.cons_append]
      · rw [List.length_cons, hlength]
      · rw [changeAt, nodes, hchange, length_changeAllAt, List.cons_append]

/-- At each position of trees there is a subtree. What holds of the trees and passes on to children
holds of it. -/
theorem exists_part
    (hP : ∀ kind span children, P (.node kind span children) → ∀ t ∈ children, P t)
    (h : ∀ t ∈ ts, P t) {i : Nat} (hi : i < (nodesAll ts).length) :
    ∃ before s after, P s ∧ nodesAll ts = before ++ (s.nodes ++ after) ∧ before.length = i ∧
      ∀ f, nodesAll (changeAllAt f ts i) = before ++ ((f s).nodes ++ after) :=
  exists_partAll (fun t ht => exists_part_nodes hP t (h t ht)) hi

end Parts

theorem exists_subtree {i : Nat} (hi : i < (nodesAll ts).length) :
    ∃ before s after, nodesAll ts = before ++ (s.nodes ++ after) ∧ before.length = i ∧
      ∀ f, nodesAll (changeAllAt f ts i) = before ++ ((f s).nodes ++ after) := by
  obtain ⟨before, s, after, -, hpart⟩ :=
    exists_part (P := fun _ => True) (fun _ _ _ _ _ _ => trivial) (fun _ _ => trivial) hi
  exact ⟨before, s, after, hpart⟩

/-- The nodes from a position on start with those of one tree. -/
theorem eq_of_nodes_append {s : Tree} {after' : List Node}
    (h : s.nodes ++ after = t.nodes ++ after') : s = t ∧ after = after' := by
  have hread := Forest.extract_append [] after s
  rw [h, Forest.extract_append [] after' t] at hread
  obtain rfl : t = s := List.singleton_inj.1 (Forest.ofTrees_injective hread)
  exact ⟨rfl, List.append_cancel_left h⟩

/-- Changing a subtree leaves the nodes around it as they are. -/
theorem nodesAll_changeAllAt (h : nodesAll ts = before ++ (t.nodes ++ after)) (f : Tree → Tree) :
    nodesAll (changeAllAt f ts before.length) = before ++ ((f t).nodes ++ after) := by
  have hlt : before.length < (nodesAll ts).length := by
    have hpos := t.length_nodes_pos
    rw [h, List.length_append, List.length_append]
    omega
  obtain ⟨before', s, after', hnodes, hlength, hchange⟩ := exists_subtree hlt
  rw [h] at hnodes
  obtain ⟨rfl, hsame⟩ := List.append_inj hnodes hlength.symm
  obtain ⟨rfl, rfl⟩ := eq_of_nodes_append hsame
  exact hchange f

theorem nodesAll_changeAllAt_last (h : nodesAll ts = before ++ t.nodes) (f : Tree → Tree) :
    nodesAll (changeAllAt f ts before.length) = before ++ (f t).nodes := by
  rw [← List.append_nil t.nodes] at h
  have hchange := nodesAll_changeAllAt h f
  rwa [List.append_nil] at hchange

theorem length_le_nodesAll (ts : List Tree) : ts.length ≤ (nodesAll ts).length := by
  induction ts with
  | nil => exact Nat.le_refl 0
  | cons t ts ih =>
    have hpos := t.length_nodes_pos
    rw [nodesAll, List.length_cons, List.length_append]
    omega

theorem childCount_lt (ts : List Tree) :
    ∀ n ∈ nodesAll ts, n.childCount < (nodesAll ts).length := by
  intro n hn
  obtain ⟨i, hi, rfl⟩ := List.getElem_of_mem hn
  obtain ⟨before, s, after, hnodes, hlength, -⟩ := exists_subtree hi
  have hchildren := length_le_nodesAll s.children
  have hnode : (nodesAll ts)[i] = ⟨s.kind, s.span, s.children.length⟩ := by
    rw [nodes_eq_cons] at hnodes
    exact List.getElem_of_append hnodes hlength
  rw [hnode, hnodes, nodes_eq_cons]
  simp only [List.length_append, List.length_cons]
  omega

/-- The positions of trees that follow each other from a position on. -/
def starts (i : Nat) : List Tree → List Nat
  | [] => []
  | t :: ts => i :: starts (i + t.nodes.length) ts

@[simp] theorem length_starts (i : Nat) (ts : List Tree) : (starts i ts).length = ts.length := by
  induction ts generalizing i with
  | nil => rfl
  | cons t ts ih => rw [starts, List.length_cons, List.length_cons, ih]

theorem getElem?_starts (i : Nat) (us vs : List Tree) :
    (starts i (us ++ vs) ++ [i + (nodesAll (us ++ vs)).length])[us.length]? =
      some (i + (nodesAll us).length) := by
  induction us generalizing i with
  | nil => cases vs <;> rfl
  | cons u us ih =>
    have hrest := ih (i + u.nodes.length)
    simp only [List.cons_append, starts, nodesAll, List.length_append, List.length_cons,
      List.getElem?_cons_succ, Nat.add_assoc] at hrest ⊢
    exact hrest

theorem map_getElem?_starts (before after : List Node) (ts : List Tree) :
    ((starts before.length ts).map fun i => (before ++ (nodesAll ts ++ after))[i]?) =
      ts.map fun t => some ⟨t.kind, t.span, t.children.length⟩ := by
  induction ts generalizing before with
  | nil => rfl
  | cons t ts ih =>
    have hrest := ih (before ++ t.nodes)
    rw [List.append_assoc, List.length_append] at hrest
    rw [starts, nodesAll, List.append_assoc, List.map_cons, hrest, List.map_cons, nodes_eq_cons,
      List.getElem?_append_right (Nat.le_refl _), Nat.sub_self]
    rfl

end Tree

namespace Forest

theorem siblings_append (before after : List Node) (ts : List Tree) :
    siblings ⟨before ++ (Tree.nodesAll ts ++ after)⟩ ts.length before.length =
      Tree.starts before.length ts := by
  induction ts generalizing before with
  | nil => rfl
  | cons t ts ih =>
    have hlength := subtreeLength_append before (Tree.nodesAll ts ++ after) t
    have hrest := ih (before ++ t.nodes)
    rw [List.append_assoc, List.length_append] at hrest
    rw [Tree.nodesAll, List.append_assoc, List.length_cons, siblings, hlength, hrest, Tree.starts]

theorem children_append (before after : List Node) (t : Tree) :
    children ⟨before ++ (t.nodes ++ after)⟩ before.length =
      Tree.starts (before.length + 1) t.children := by
  have hsiblings := siblings_append (before ++ [⟨t.kind, t.span, t.children.length⟩]) after
    t.children
  rw [List.append_assoc, List.singleton_append, List.length_append, List.length_singleton]
    at hsiblings
  rw [children, Tree.nodes_eq_cons, List.cons_append, List.getElem?_append_right (Nat.le_refl _),
    Nat.sub_self, List.getElem?_cons_zero]
  exact hsiblings

theorem rootsFrom_eq_starts (i : Nat) (ts : List Tree) :
    rootsFrom i (Tree.nodesAll ts) = Tree.starts i ts := by
  induction ts generalizing i with
  | nil =>
    rw [Tree.nodesAll, rootsFrom]
    rfl
  | cons t ts ih => rw [rootsFrom_nodesAll, ih, Tree.starts]

theorem roots_ofTrees (ts : List Tree) : (ofTrees ts).roots = Tree.starts 0 ts :=
  rootsFrom_eq_starts 0 ts

end Forest
end LexicalPatterns
