import LexicalPatterns.Proofs.Syntax.Positions

/-!
# Addresses in trees

A subtree of some trees has an address, which tells on each level of the way down to it which of the
trees there it is in. The pre-order lists the subtrees in the order of their addresses. The flat
forest of the trees is faithful to that: what it tells of a position is what holds of the subtree
listed there.
-/

namespace LexicalPatterns

namespace Tree

def root (t : Tree) : Node := ⟨t.kind, t.span, t.children.length⟩

mutual

/-- The subtrees of a tree that has an address, with their addresses, in pre-order. -/
def located (address : List Nat) : Tree → List (List Nat × Tree)
  | .node kind span children =>
    (address, .node kind span children) :: locatedFrom address 0 children

/-- The subtrees of trees that are children of one address, the first of them the `k`-th. -/
def locatedFrom (address : List Nat) (k : Nat) : List Tree → List (List Nat × Tree)
  | [] => []
  | t :: ts => located (address ++ [k]) t ++ locatedFrom address (k + 1) ts

end

def locatedAll (ts : List Tree) : List (List Nat × Tree) := locatedFrom [] 0 ts

variable {address inner : List Nat} {k i : Nat} {t s : Tree} {ts : List Tree}
  {x : List Nat × Tree}

theorem located_eq_cons (address : List Nat) (t : Tree) :
    located address t = (address, t) :: locatedFrom address 0 t.children := by
  cases t
  rfl

theorem map_root_locatedFrom
    (h : ∀ t ∈ ts, ∀ address, (located address t).map (fun x => x.2.root) = t.nodes)
    (address : List Nat) (k : Nat) :
    (locatedFrom address k ts).map (fun x => x.2.root) = nodesAll ts := by
  induction ts generalizing k with
  | nil => rfl
  | cons t ts ih =>
    obtain ⟨ht, hts⟩ := List.forall_mem_cons.1 h
    rw [locatedFrom, List.map_append, ht, ih hts, nodesAll]

@[simp] theorem map_root_located (address : List Nat) (t : Tree) :
    (located address t).map (fun x => x.2.root) = t.nodes := by
  induction t using Tree.induction generalizing address with
  | node kind span children ih =>
    rw [located, List.map_cons, map_root_locatedFrom ih, nodes]
    rfl

/-- The nodes of trees are the roots of their subtrees. -/
theorem map_root_locatedAll (ts : List Tree) :
    (locatedAll ts).map (fun x => x.2.root) = nodesAll ts :=
  map_root_locatedFrom (fun t _ address => map_root_located address t) [] 0

@[simp] theorem length_located (address : List Nat) (t : Tree) :
    (located address t).length = t.nodes.length := by
  rw [← map_root_located address t, List.length_map]

theorem exists_located_of_trees
    (h : ∀ t ∈ ts, ∀ address i, (located address t)[i]? = some x →
      ∃ before after, located address t = before ++ (located x.1 x.2 ++ after) ∧
        before.length = i)
    (hx : (locatedFrom address k ts)[i]? = some x) :
    ∃ before after, locatedFrom address k ts = before ++ (located x.1 x.2 ++ after) ∧
      before.length = i := by
  induction ts generalizing k i with
  | nil => simp [locatedFrom] at hx
  | cons t ts ih =>
    obtain ⟨ht, hts⟩ := List.forall_mem_cons.1 h
    rw [locatedFrom, List.getElem?_append] at hx
    split at hx
    · obtain ⟨before, after, heq, hlength⟩ := ht _ _ hx
      refine ⟨before, after ++ locatedFrom address (k + 1) ts, ?_, hlength⟩
      rw [locatedFrom, heq, List.append_assoc, List.append_assoc]
    · obtain ⟨before, after, heq, hlength⟩ := ih hts hx
      refine ⟨located (address ++ [k]) t ++ before, after, ?_, ?_⟩
      · rw [locatedFrom, heq, List.append_assoc]
      · rw [List.length_append, hlength]
        omega

theorem exists_located (hx : (located address t)[i]? = some x) :
    ∃ before after, located address t = before ++ (located x.1 x.2 ++ after) ∧
      before.length = i := by
  induction t using Tree.induction generalizing address i with
  | node kind span children ih =>
    cases i with
    | zero =>
      obtain rfl : (address, node kind span children) = x := Option.some.inj hx
      exact ⟨[], [], (List.append_nil _).symm, rfl⟩
    | succ i =>
      rw [located, List.getElem?_cons_succ] at hx
      obtain ⟨before, after, heq, hlength⟩ :=
        exists_located_of_trees (fun t ht address i => ih t ht) hx
      refine ⟨(address, node kind span children) :: before, after, ?_, ?_⟩
      · rw [located, heq, List.cons_append]
      · rw [List.length_cons, hlength]

theorem exists_locatedAll (hx : (locatedAll ts)[i]? = some x) :
    ∃ before after, locatedAll ts = before ++ (located x.1 x.2 ++ after) ∧ before.length = i :=
  exists_located_of_trees (fun _ _ _ _ => exists_located) hx

theorem map_getElem?_locatedFrom (before after : List (List Nat × Tree)) (address : List Nat)
    (k : Nat) (ts : List Tree) :
    ((starts before.length ts).map
        fun i => (before ++ (locatedFrom address k ts ++ after))[i]?) =
      (ts.zipIdx k).map fun (t, k) => some (address ++ [k], t) := by
  induction ts generalizing before k with
  | nil => rfl
  | cons t ts ih =>
    have hrest := ih (before ++ located (address ++ [k]) t) (k + 1)
    rw [List.append_assoc, List.length_append, length_located] at hrest
    rw [starts, locatedFrom, List.append_assoc, List.map_cons, hrest, List.zipIdx_cons,
      List.map_cons, located_eq_cons, List.getElem?_append_right (Nat.le_refl _), Nat.sub_self]
    rfl

/-- What holds of the addresses below an address: they go on from it, through one of the trees. -/
theorem exists_of_mem_locatedFrom
    (h : ∀ t ∈ ts, ∀ address, ∀ x ∈ located address t, address <+: x.1)
    (hx : x ∈ locatedFrom address k ts) : ∃ j rest, k ≤ j ∧ x.1 = address ++ j :: rest := by
  induction ts generalizing k with
  | nil => cases hx
  | cons t ts ih =>
    obtain ⟨ht, hts⟩ := List.forall_mem_cons.1 h
    rw [locatedFrom, List.mem_append] at hx
    rcases hx with hx | hx
    · obtain ⟨rest, hrest⟩ := ht _ x hx
      refine ⟨k, rest, Nat.le_refl k, ?_⟩
      rw [← hrest, List.append_assoc]
      rfl
    · obtain ⟨j, rest, hj, heq⟩ := ih hts hx
      exact ⟨j, rest, Nat.le_of_succ_le hj, heq⟩

theorem prefix_of_mem_located (hx : x ∈ located address t) : address <+: x.1 := by
  induction t using Tree.induction generalizing address x with
  | node kind span children ih =>
    rw [located, List.mem_cons] at hx
    rcases hx with rfl | hx
    · exact List.prefix_rfl
    · obtain ⟨j, rest, -, heq⟩ := exists_of_mem_locatedFrom (fun t ht _ _ hy => ih t ht hy) hx
      exact ⟨j :: rest, heq.symm⟩

theorem pairwise_locatedFrom
    (h : ∀ t ∈ ts, ∀ address, (located address t).Pairwise fun x y => x.1 < y.1)
    (address : List Nat) (k : Nat) :
    (locatedFrom address k ts).Pairwise fun x y => x.1 < y.1 := by
  induction ts generalizing k with
  | nil => exact .nil
  | cons t ts ih =>
    obtain ⟨ht, hts⟩ := List.forall_mem_cons.1 h
    rw [locatedFrom, List.pairwise_append]
    refine ⟨ht _, ih hts (k + 1), fun x hx y hy => ?_⟩
    obtain ⟨rest, hrest⟩ := prefix_of_mem_located hx
    obtain ⟨j, rest', hj, heq⟩ :=
      exists_of_mem_locatedFrom (fun _ _ _ _ => prefix_of_mem_located) hy
    rw [← hrest, heq, List.append_assoc]
    exact List.append_left_lt (List.cons_lt_cons_iff.2 (.inl (Nat.lt_of_succ_le hj)))

theorem pairwise_located (address : List Nat) (t : Tree) :
    (located address t).Pairwise fun x y => x.1 < y.1 := by
  induction t using Tree.induction generalizing address with
  | node kind span children ih =>
    rw [located]
    refine .cons (fun x hx => ?_) (pairwise_locatedFrom ih address 0)
    obtain ⟨j, rest, -, heq⟩ := exists_of_mem_locatedFrom (fun _ _ _ _ => prefix_of_mem_located) hx
    rw [heq]
    conv_lhs => rw [← List.append_nil address]
    exact List.append_left_lt (List.nil_lt_cons j rest)

theorem pairwise_locatedAll (ts : List Tree) : (locatedAll ts).Pairwise fun x y => x.1 < y.1 :=
  pairwise_locatedFrom (fun t _ address => pairwise_located address t) [] 0

end Tree
end LexicalPatterns
