import LexicalPatterns.Proofs.Syntax.Building
import LexicalPatterns.Proofs.Syntax.Positions
import Mathlib.Data.List.InsertIdx
import Mathlib.Data.List.Perm.Basic

/-!
# Building step by step

A builder can be given its steps in any order in which a parent is opened behind a node and a new
node is put around the last siblings. At all times its nodes are the pre-order of trees. Its open
parents stand on the way to the last node, the inner ones behind the outer: the subtree of each is
the rest of the nodes. So a new node comes behind all of them, and they keep their positions.
-/

namespace LexicalPatterns

namespace Tree

/-- The trees with the children of the node at a position changed, or the trees themselves where
there is no position. -/
def changeBelow (f : List Tree → List Tree) (ts : List Tree) : Option Nat → List Tree
  | none => f ts
  | some p => changeAllAt (fun t => .node t.kind t.span (f t.children)) ts p

end Tree

inductive BuildStep where
  | add (kind : NodeKind) (span : Span)
  | push
  | pop
  | wrap (first count : Nat) (kind : NodeKind) (span : Span)
  | setSpan (i : Nat) (span : Span)

/-- What a step makes of the trees, where `parent` is the position of the current parent. -/
def BuildStep.change (parent : Option Nat) (ts : List Tree) : BuildStep → List Tree
  | add kind span => Tree.changeBelow (· ++ [.leaf kind span]) ts parent
  | wrap _ count kind span =>
    Tree.changeBelow (fun cs => cs.take (cs.length - count) ++
      [.node kind span (cs.drop (cs.length - count))]) ts parent
  | setSpan i span => Tree.changeAllAt (fun t => .node t.kind span t.children) ts i
  | push | pop => ts

namespace Builder

def perform (b : Builder) : BuildStep → Builder
  | .add kind span => b.add kind span
  | .push => b.push
  | .pop => b.pop
  | .wrap first count kind span => b.wrap first count kind span
  | .setSpan i span => b.setSpan i span

/-- The positions of the children of the current parent, or of the roots if no parent is open. -/
def siblings (b : Builder) : List Nat :=
  match b.parents with
  | [] => b.finish.roots
  | p :: _ => b.finish.children p

/-- Whether the last `count` siblings are what stands from `first` on. -/
def Covers (b : Builder) (first count : Nat) : Prop :=
  count ≤ b.siblings.length ∧
    (b.siblings ++ [b.length])[b.siblings.length - count]? = some first

/-- Whether a step can be asked for: positions exist, and the nodes stay few enough to be counted
in 32 bits. -/
def Permits (b : Builder) (a : BuildStep) : Prop :=
  (b.perform a).length < UInt32.size ∧
    match a with
    | .add _ _ | .pop => True
    | .push => b.nodes ≠ []
    | .wrap first count _ _ => b.Covers first count
    | .setSpan i _ => i < b.length

instance (b : Builder) (first count : Nat) : Decidable (b.Covers first count) :=
  inferInstanceAs (Decidable (_ ∧ _))

instance (b : Builder) (a : BuildStep) : Decidable (b.Permits a) :=
  match a with
  | .add _ _ | .pop => inferInstanceAs (Decidable (_ ∧ True))
  | .push => inferInstanceAs (Decidable (_ ∧ b.nodes ≠ []))
  | .wrap first count _ _ => inferInstanceAs (Decidable (_ ∧ b.Covers first count))
  | .setSpan i _ => inferInstanceAs (Decidable (_ ∧ i < b.length))

/-- Whether the nodes are the pre-order of trees, and the subtrees of the open parents are the rest
of the nodes from each parent on, the inner ones behind the outer. -/
structure InOrder (b : Builder) : Prop where
  preorder : ∃ ts, b.nodes = Tree.nodesAll ts
  rest : ∀ p ∈ b.parents, ∃ t : Tree, b.nodes.drop p = t.nodes
  inner : b.parents.Pairwise (· ≥ ·)

variable {b : Builder}

theorem inOrder_empty : empty.InOrder := by
  constructor
  · exact ⟨[], rfl⟩
  · exact nofun
  · exact .nil

theorem trees_finish {ts : List Tree} (h : b.nodes = Tree.nodesAll ts) : b.finish.trees = ts := by
  rw [finish, h]
  exact Forest.trees_ofTrees ts

theorem InOrder.lt_length (h : b.InOrder) : ∀ p ∈ b.parents, p < b.length := by
  intro p hp
  obtain ⟨t, ht⟩ := h.rest p hp
  have hne := t.nodes_ne_nil
  rw [← ht, ne_eq, List.drop_eq_nil_iff, Nat.not_le] at hne
  exact hne

theorem extend_opened (before : List Node) (outer : List Nat) (kind : NodeKind) (span : Span)
    (cs : List Tree) : extend ⟨before ++ [⟨kind, span, 0⟩], before.length :: outer⟩ cs =
      ⟨before ++ (Tree.node kind span cs).nodes, before.length :: outer⟩ := by
  simp only [extend, countChildren, List.append_assoc, List.singleton_append,
    modify_length_append, Nat.zero_add, Tree.nodes]

/-- Where the next node goes: `b` is `base` with the siblings `cs`, which can be exchanged. -/
structure Site (b base : Builder) (cs : List Tree) : Prop where
  isOpen : base.Open
  eq_extend : b = base.extend cs
  siblings_eq : b.siblings = Tree.starts base.length cs
  parents_lt : ∀ p ∈ b.parents, p < base.length
  inOrder : ∀ cs', (base.extend cs').InOrder
  trees_eq : ∀ f : List Tree → List Tree,
    (base.extend (f cs)).finish.trees = Tree.changeBelow f b.finish.trees b.parents.head?

end Builder

namespace Tree

theorem exists_nodes_eq {t s : Tree} {before : List Node} (h : t.nodes = before ++ s.nodes)
    (s' : Tree) : ∃ t' : Tree, before ++ s'.nodes = t'.nodes := by
  rw [← nodesAll_singleton] at h
  have hchange := nodesAll_changeAllAt_last h fun _ => s'
  obtain ⟨t', ht'⟩ := List.length_eq_one_iff.1 (length_changeAllAt (fun _ => s') [t] before.length)
  rw [ht', nodesAll_singleton] at hchange
  exact ⟨t', hchange.symm⟩

end Tree

namespace Builder

section Sites

variable {b : Builder} {before : List Node} {outer : List Nat} {t : Tree}

theorem InOrder.le_current (h : InOrder ⟨before ++ t.nodes, before.length :: outer⟩) :
    ∀ p ∈ before.length :: outer, p ≤ before.length :=
  List.forall_mem_cons.2 ⟨Nat.le_refl _, (List.pairwise_cons.1 h.inner).1⟩

theorem InOrder.exchange (h : InOrder ⟨before ++ t.nodes, before.length :: outer⟩) (s : Tree) :
    InOrder ⟨before ++ s.nodes, before.length :: outer⟩ := by
  constructor
  · obtain ⟨ts, hts⟩ := h.preorder
    have hchange := Tree.nodesAll_changeAllAt_last hts.symm fun _ => s
    exact ⟨_, hchange.symm⟩
  · intro p hp
    have hle := h.le_current p hp
    obtain ⟨u, hu⟩ := h.rest p hp
    rw [List.drop_append_of_le_length hle] at hu
    obtain ⟨u', hu'⟩ := Tree.exists_nodes_eq hu.symm s
    refine ⟨u', ?_⟩
    rw [List.drop_append_of_le_length hle, ← hu']
  · exact h.inner

theorem site_opened (h : InOrder ⟨before ++ t.nodes, before.length :: outer⟩) :
    Site ⟨before ++ t.nodes, before.length :: outer⟩
      ⟨before ++ [⟨t.kind, t.span, 0⟩], before.length :: outer⟩ t.children := by
  have hfill (cs : List Tree) := extend_opened before outer t.kind t.span cs
  constructor
  case isOpen =>
    rintro p ⟨⟩
    simp [length]
  case eq_extend =>
    rw [hfill]
    cases t
    rfl
  case siblings_eq =>
    have hchildren := Forest.children_append before [] t
    rw [List.append_nil] at hchildren
    simpa [siblings, finish, length] using hchildren
  case parents_lt =>
    intro p hp
    have hle := h.le_current p hp
    simpa [length] using Nat.lt_succ_of_le hle
  case inOrder =>
    intro cs
    rw [hfill]
    exact h.exchange _
  case trees_eq =>
    intro f
    obtain ⟨ts, hts⟩ := h.preorder
    have hchange := Tree.nodesAll_changeAllAt_last hts.symm fun t =>
      .node t.kind t.span (f t.children)
    rw [hfill, trees_finish hchange.symm, trees_finish hts]
    rfl

theorem site_roots (ts : List Tree) : Site ⟨Tree.nodesAll ts, []⟩ empty ts := by
  have hextend (us : List Tree) : empty.extend us = ⟨Tree.nodesAll us, []⟩ := rfl
  constructor
  case isOpen => exact open_empty
  case eq_extend => rw [hextend]
  case siblings_eq => exact Forest.roots_ofTrees ts
  case parents_lt => exact nofun
  case inOrder =>
    intro us
    rw [hextend]
    constructor
    · exact ⟨us, rfl⟩
    · exact nofun
    · exact .nil
  case trees_eq =>
    intro f
    rw [hextend, trees_finish rfl, trees_finish rfl]
    rfl

theorem InOrder.exists_site (h : b.InOrder) : ∃ base cs, Site b base cs := by
  obtain ⟨nodes, parents⟩ := b
  cases parents with
  | nil =>
    obtain ⟨ts, rfl⟩ := h.preorder
    exact ⟨empty, ts, site_roots ts⟩
  | cons p outer =>
    obtain ⟨t, ht⟩ := h.rest p List.mem_cons_self
    have hlt : p < nodes.length := h.lt_length p List.mem_cons_self
    -- the subtree of the current parent is all that stands behind the nodes before it
    obtain ⟨before, rfl, rfl⟩ : ∃ before : List Node,
        nodes = before ++ t.nodes ∧ p = before.length := by
      refine ⟨nodes.take p, ?_, ?_⟩
      · rw [← ht, List.take_append_drop]
      · rw [List.length_take, Nat.min_eq_left (Nat.le_of_lt hlt)]
    exact ⟨_, t.children, site_opened h⟩

variable {base : Builder} {cs : List Tree}

theorem Site.length_eq (h : Site b base cs) :
    b.length = base.length + (Tree.nodesAll cs).length := by
  rw [h.eq_extend, length_extend]

theorem Site.exists_covered (h : Site b base cs) {first count : Nat}
    (hcovers : b.Covers first count) :
    ∃ us vs, cs = us ++ vs ∧ vs.length = count ∧ first = (base.extend us).length ∧
      us = cs.take (cs.length - count) ∧ vs = cs.drop (cs.length - count) := by
  obtain ⟨hcount, hfirst⟩ := hcovers
  rw [h.siblings_eq, Tree.length_starts] at hcount hfirst
  refine ⟨cs.take (cs.length - count), cs.drop (cs.length - count),
    (List.take_append_drop _ _).symm, ?_, ?_, rfl, rfl⟩
  · rw [List.length_drop]
    omega
  · have hstart := Tree.getElem?_starts base.length (cs.take (cs.length - count))
      (cs.drop (cs.length - count))
    rw [List.take_append_drop, List.length_take, Nat.min_eq_left (Nat.sub_le _ _), ← h.length_eq,
      hfirst] at hstart
    rw [length_extend]
    exact Option.some.inj hstart

theorem Site.add_eq (h : Site b base cs) (kind : NodeKind) (span : Span) :
    b.add kind span = base.extend (cs ++ [.leaf kind span]) := by
  rw [add_eq_extend, h.eq_extend, extend_extend h.isOpen]

theorem Site.wrap_eq (h : Site b base cs) {first count : Nat} (hcovers : b.Covers first count)
    (kind : NodeKind) (span : Span) : b.wrap first count kind span =
      base.extend (cs.take (cs.length - count) ++
        [.node kind span (cs.drop (cs.length - count))]) := by
  obtain ⟨us, vs, hcs, hcount, hfirst, hus, hvs⟩ := h.exists_covered hcovers
  have hwrap := wrap_extend (h.isOpen.extend us) vs [] kind span
  rw [List.append_nil, extend_extend h.isOpen, extend_extend h.isOpen, ← hcs, ← h.eq_extend,
    hcount, ← hfirst, hus, hvs] at hwrap
  exact hwrap

end Sites

/-! ### Steps -/

variable {b : Builder}

theorem InOrder.push (h : b.InOrder) (hne : b.nodes ≠ []) : b.push.InOrder := by
  constructor
  · exact h.preorder
  · refine List.forall_mem_cons.2 ⟨?_, h.rest⟩
    -- the last node stands for a tree without children
    obtain ⟨ts, hts⟩ := h.preorder
    have hpos := List.length_pos_iff.2 hne
    have hlast : b.length - 1 < (Tree.nodesAll ts).length := by
      rw [← hts]
      exact Nat.sub_one_lt_of_lt hpos
    obtain ⟨before, t, after, hnodes, hlength, -⟩ := Tree.exists_subtree hlast
    refine ⟨t, ?_⟩
    have hsize := congrArg List.length hnodes
    rw [← hts, List.length_append, List.length_append] at hsize
    have htree := t.length_nodes_pos
    have hafter : after = [] := by
      apply List.length_eq_zero_iff.1
      rw [length] at hlength
      omega
    rw [Builder.push, hts, hnodes, ← hlength, List.drop_left, hafter, List.append_nil]
  · refine List.pairwise_cons.2 ⟨fun p hp => ?_, h.inner⟩
    exact Nat.le_sub_one_of_lt (h.lt_length p hp)

theorem InOrder.pop (h : b.InOrder) : b.pop.InOrder := by
  constructor
  · exact h.preorder
  · exact fun p hp => h.rest p (List.mem_of_mem_tail hp)
  · exact h.inner.tail

theorem modify_span_nodesAll {ts : List Tree} {i : Nat} (hi : i < (Tree.nodesAll ts).length)
    (span : Span) : (Tree.nodesAll ts).modify i (fun n => { n with span := span }) =
      Tree.nodesAll (Tree.changeAllAt (fun t => .node t.kind span t.children) ts i) := by
  obtain ⟨before, t, after, hnodes, hlength, hchange⟩ := Tree.exists_subtree hi
  rw [hchange, hnodes, ← hlength, Tree.nodes_eq_cons, List.cons_append, modify_length_append]
  rfl

theorem nodes_setSpan {ts : List Tree} (h : b.nodes = Tree.nodesAll ts) {i : Nat}
    (hi : i < b.length) (span : Span) : (b.setSpan i span).nodes =
      Tree.nodesAll (Tree.changeAllAt (fun t => .node t.kind span t.children) ts i) := by
  rw [length, h] at hi
  rw [Builder.setSpan, h]
  exact modify_span_nodesAll hi span

theorem exists_modify_span (t : Tree) (i : Nat) (span : Span) :
    ∃ t' : Tree, t.nodes.modify i (fun n => { n with span := span }) = t'.nodes := by
  by_cases hi : i < t.nodes.length
  · have hlt : i < (Tree.nodesAll [t]).length := by rwa [Tree.nodesAll_singleton]
    have hmodify := modify_span_nodesAll hlt span
    obtain ⟨t', ht'⟩ := List.length_eq_one_iff.1 (Tree.length_changeAllAt
      (fun t => .node t.kind span t.children) [t] i)
    rw [ht', Tree.nodesAll_singleton, Tree.nodesAll_singleton] at hmodify
    exact ⟨t', hmodify⟩
  · exact ⟨t, List.modify_eq_self (Nat.not_lt.1 hi)⟩

theorem InOrder.setSpan (h : b.InOrder) {i : Nat} (hi : i < b.length) (span : Span) :
    (b.setSpan i span).InOrder := by
  constructor
  · obtain ⟨ts, hts⟩ := h.preorder
    exact ⟨_, nodes_setSpan hts hi span⟩
  · intro p hp
    obtain ⟨t, ht⟩ := h.rest p hp
    by_cases hlt : i < p
    · refine ⟨t, ?_⟩
      rw [← ht]
      exact List.drop_modify_of_lt _ _ _ _ hlt
    · obtain ⟨t', ht'⟩ := exists_modify_span t (i - p) span
      refine ⟨t', ?_⟩
      rw [← ht', ← ht]
      exact List.drop_modify_of_ge _ _ _ _ (Nat.not_lt.1 hlt)
  · exact h.inner

theorem setSpan_trees (h : b.InOrder) {i : Nat} (hi : i < b.length) (span : Span) :
    (b.setSpan i span).finish.trees =
      Tree.changeAllAt (fun t => .node t.kind span t.children) b.finish.trees i := by
  obtain ⟨ts, hts⟩ := h.preorder
  rw [trees_finish hts]
  exact trees_finish (nodes_setSpan hts hi span)

/-- Every step that can be asked for keeps the nodes in order. -/
theorem InOrder.perform (h : b.InOrder) {a : BuildStep} (ha : b.Permits a) :
    (b.perform a).InOrder := by
  obtain ⟨base, cs, hsite⟩ := h.exists_site
  cases a with
  | add kind span =>
    rw [Builder.perform, hsite.add_eq]
    exact hsite.inOrder _
  | push => exact h.push ha.2
  | pop => exact h.pop
  | wrap first count kind span =>
    rw [Builder.perform, hsite.wrap_eq ha.2]
    exact hsite.inOrder _
  | setSpan i span => exact h.setSpan ha.2 span

/-- Every step that can be asked for changes the trees as it should. -/
theorem InOrder.trees_perform (h : b.InOrder) {a : BuildStep} (ha : b.Permits a) :
    (b.perform a).finish.trees = a.change b.parents.head? b.finish.trees := by
  obtain ⟨base, cs, hsite⟩ := h.exists_site
  cases a with
  | add kind span =>
    rw [Builder.perform, hsite.add_eq]
    exact hsite.trees_eq (· ++ [.leaf kind span])
  | push => rfl
  | pop => rfl
  | wrap first count kind span =>
    rw [Builder.perform, hsite.wrap_eq ha.2]
    exact hsite.trees_eq fun cs => cs.take (cs.length - count) ++
      [.node kind span (cs.drop (cs.length - count))]
  | setSpan i span => exact setSpan_trees h ha.2 span

end Builder
end LexicalPatterns
