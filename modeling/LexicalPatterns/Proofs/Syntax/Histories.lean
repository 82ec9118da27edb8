import LexicalPatterns.Proofs.Syntax.Construction

/-!
# Histories of builders

Positions in a builder change when a node is put in before others. To tell that an open parent
stays the node that was opened, every node is named after the step that put it in. The names stand
beside the nodes, and the names of the opened nodes beside the open parents.
-/

namespace LexicalPatterns

/-- A builder after some steps, with a name for each node. -/
structure History where
  builder : Builder
  /-- The steps that put the nodes in, by their numbers. -/
  names : List Nat
  /-- The names of the nodes that the open parents were opened for, the innermost first. -/
  opened : List Nat
  /-- The number of steps. -/
  length : Nat

namespace History

def empty : History := ⟨.empty, [], [], 0⟩

/-- The names of the nodes after a step with the number `name`. -/
def namesAfter (name : Nat) (names : List Nat) : BuildStep → List Nat
  | .add _ _ => names ++ [name]
  | .wrap first _ _ _ => names.insertIdx first name
  | .push | .pop | .setSpan _ _ => names

def openedAfter (names opened : List Nat) : BuildStep → List Nat
  | .push => names.getLast?.toList ++ opened
  | .pop => opened.tail
  | .add _ _ | .wrap _ _ _ _ | .setSpan _ _ => opened

def perform (s : History) (a : BuildStep) : History :=
  ⟨s.builder.perform a, namesAfter s.length s.names a, openedAfter s.names s.opened a, s.length + 1⟩

def performAll (s : History) (as : List BuildStep) : History := as.foldl perform s

/-- Whether each of some steps can be asked for when its turn comes. -/
def Permits (s : History) : List BuildStep → Prop
  | [] => True
  | a :: as => s.builder.Permits a ∧ (s.perform a).Permits as

instance decidablePermits : (s : History) → (as : List BuildStep) → Decidable (s.Permits as)
  | _, [] => .isTrue trivial
  | s, a :: as => @instDecidableAnd _ _ _ (decidablePermits (s.perform a) as)

structure Held (s : History) : Prop where
  inOrder : s.builder.InOrder
  length_lt : s.builder.length < UInt32.size
  length_names : s.names.length = s.builder.length
  names_lt : ∀ n ∈ s.names, n < s.length
  nodup : s.names.Nodup
  opened_eq : s.builder.parents.map (s.names[·]?) = s.opened.map some

variable {s : History} {a : BuildStep}

theorem held_empty : empty.Held := by
  constructor
  · exact Builder.inOrder_empty
  · decide
  · rfl
  · exact nofun
  · exact .nil
  · rfl

theorem lt_of_covers {b : Builder} (h : b.InOrder) {first count : Nat}
    (hcovers : b.Covers first count) : first ≤ b.length ∧ ∀ p ∈ b.parents, p < first := by
  obtain ⟨base, cs, hsite⟩ := h.exists_site
  obtain ⟨us, vs, hcs, -, hfirst, -⟩ := hsite.exists_covered hcovers
  rw [Builder.length_extend] at hfirst
  have hlength := hsite.length_eq
  rw [hcs, Tree.nodesAll_append, List.length_append] at hlength
  constructor
  · omega
  · intro p hp
    have hlt := hsite.parents_lt p hp
    omega

theorem length_perform_wrap {b : Builder} {first count : Nat} (kind : NodeKind) (span : Span)
    (hle : first ≤ b.length) : (b.wrap first count kind span).length = b.length + 1 := by
  rw [Builder.wrap, Builder.length_countChildren]
  exact List.length_insertIdx_of_le_length hle _

theorem Held.length_namesAfter (h : s.Held) (ha : s.builder.Permits a) :
    (namesAfter s.length s.names a).length = (s.builder.perform a).length := by
  have hnames := h.length_names
  cases a with
  | add kind span =>
    rw [namesAfter, Builder.perform, Builder.add_eq_extend, Builder.length_extend,
      List.length_append, hnames]
    rfl
  | push => exact hnames
  | pop => exact hnames
  | wrap first count kind span =>
    have hle := (lt_of_covers h.inOrder ha.2).1
    rw [namesAfter, Builder.perform, length_perform_wrap kind span hle,
      List.length_insertIdx_of_le_length (by omega), hnames]
  | setSpan i span =>
    rw [namesAfter, Builder.perform, Builder.setSpan, Builder.length, List.length_modify]
    exact hnames

theorem Held.names_perm (h : s.Held) (ha : s.builder.Permits a) :
    namesAfter s.length s.names a = s.names ∨
      (namesAfter s.length s.names a).Perm (s.length :: s.names) := by
  cases a with
  | add kind span => exact .inr (List.perm_append_singleton _ _)
  | push => exact .inl rfl
  | pop => exact .inl rfl
  | wrap first count kind span =>
    have hle := (lt_of_covers h.inOrder ha.2).1
    rw [← h.length_names] at hle
    exact .inr (List.perm_insertIdx _ _ hle)
  | setSpan i span => exact .inl rfl

theorem Held.getElem?_namesAfter (h : s.Held) (ha : s.builder.Permits a) :
    ∀ p ∈ s.builder.parents, (namesAfter s.length s.names a)[p]? = s.names[p]? := by
  intro p hp
  cases a with
  | add kind span =>
    have hlt := h.inOrder.lt_length p hp
    rw [← h.length_names] at hlt
    exact List.getElem?_append_left hlt
  | push => rfl
  | pop => rfl
  | wrap first count kind span =>
    exact List.getElem?_insertIdx_of_lt ((lt_of_covers h.inOrder ha.2).2 p hp)
  | setSpan i span => rfl

theorem Held.opened_perform (h : s.Held) (ha : s.builder.Permits a) :
    (s.perform a).builder.parents.map ((s.perform a).names[·]?) =
      (s.perform a).opened.map some := by
  have hsame : s.builder.parents.map ((namesAfter s.length s.names a)[·]?) = s.opened.map some := by
    rw [← h.opened_eq]
    exact List.map_congr_left (h.getElem?_namesAfter ha)
  cases a with
  | add kind span =>
    have hparents : (s.builder.add kind span).parents = s.builder.parents :=
      Builder.parents_countChildren _
    rw [← hparents] at hsame
    exact hsame
  | push =>
    have hne : s.names ≠ [] := by
      intro hnil
      have hlength := h.length_names
      rw [hnil] at hlength
      exact ha.2 (List.length_eq_zero_iff.1 hlength.symm)
    obtain ⟨name, hname⟩ := Option.ne_none_iff_exists'.1 (mt List.getLast?_eq_none_iff.1 hne)
    have hlast : s.names[s.builder.length - 1]? = some name := by
      rw [← h.length_names, ← List.getLast?_eq_getElem?, hname]
    change s.names[s.builder.length - 1]? :: s.builder.parents.map (s.names[·]?) =
      (s.names.getLast?.toList ++ s.opened).map some
    rw [hlast, h.opened_eq, hname]
    rfl
  | pop =>
    change s.builder.parents.tail.map (s.names[·]?) = s.opened.tail.map some
    rw [List.map_tail, h.opened_eq, List.map_tail]
  | wrap first count kind span =>
    have hparents : (s.builder.wrap first count kind span).parents = s.builder.parents :=
      Builder.parents_countChildren _
    rw [← hparents] at hsame
    exact hsame
  | setSpan i span => exact hsame

theorem Held.perform (h : s.Held) (ha : s.builder.Permits a) : (s.perform a).Held := by
  constructor
  case inOrder => exact h.inOrder.perform ha
  case length_lt => exact ha.1
  case length_names => exact h.length_namesAfter ha
  case names_lt =>
    intro n hn
    apply Nat.lt_succ_of_le
    rcases h.names_perm ha with hsame | hperm
    · exact Nat.le_of_lt (h.names_lt n (hsame ▸ hn))
    · rcases List.mem_cons.1 (hperm.mem_iff.1 hn) with rfl | hn
      · exact Nat.le_refl _
      · exact Nat.le_of_lt (h.names_lt n hn)
  case nodup =>
    change (namesAfter s.length s.names a).Nodup
    rcases h.names_perm ha with hsame | hperm
    · rw [hsame]
      exact h.nodup
    · rw [hperm.nodup_iff, List.nodup_cons]
      exact ⟨fun hmem => Nat.lt_irrefl _ (h.names_lt _ hmem), h.nodup⟩
  case opened_eq => exact h.opened_perform ha

theorem Held.performAll (h : s.Held) {as : List BuildStep} (has : s.Permits as) :
    (s.performAll as).Held := by
  induction as generalizing s with
  | nil => exact h
  | cons a as ih => exact ih (h.perform has.1) has.2

theorem permits_append {front back : List BuildStep} :
    s.Permits (front ++ back) ↔ s.Permits front ∧ (s.performAll front).Permits back := by
  induction front generalizing s with
  | nil => exact (iff_of_eq (true_and _)).symm
  | cons a front ih =>
    rw [List.cons_append, Permits, ih, Permits, and_assoc]
    rfl

/-- Whether a builder holds a forest as it should: its nodes are the pre-order of trees with the
numbers of their children, which can be changed by one in 32 bits. The subtree of each open parent
is the rest of the nodes, and the node at its position is the one that was opened. -/
structure WellFormed (s : History) : Prop where
  preorder : Forest.ofTrees s.builder.finish.trees = s.builder.finish
  childCount_lt : ∀ n ∈ s.builder.nodes, n.childCount + 1 < UInt32.size
  rest : ∀ p ∈ s.builder.parents, p < s.builder.length ∧
    p + s.builder.finish.subtreeLength p = s.builder.length
  length_names : s.names.length = s.builder.length
  nodup : s.names.Nodup
  opened_eq : s.builder.parents.map (s.names[·]?) = s.opened.map some

theorem Held.wellFormed (h : s.Held) : s.WellFormed := by
  obtain ⟨ts, hts⟩ := h.inOrder.preorder
  constructor
  case preorder =>
    rw [Builder.trees_finish hts, Forest.ofTrees, ← hts]
    rfl
  case childCount_lt =>
    intro n hn
    rw [hts] at hn
    have hlt := Tree.childCount_lt ts n hn
    have hlength := h.length_lt
    rw [Builder.length, hts] at hlength
    omega
  case rest =>
    intro p hp
    have hlt := h.inOrder.lt_length p hp
    obtain ⟨t, ht⟩ := h.inOrder.rest p hp
    have hsubtree := Forest.subtreeLength_append [] [] t
    rw [List.nil_append, List.append_nil, ← ht, List.length_drop] at hsubtree
    have hrest : s.builder.finish.subtreeLength p = s.builder.nodes.length - p := hsubtree
    rw [Builder.length] at hlt ⊢
    exact ⟨hlt, by omega⟩
  case length_names => exact h.length_names
  case nodup => exact h.nodup
  case opened_eq => exact h.opened_eq

/-- Whether a step has its effect: it changes the trees as it should, and no number of children is
taken below zero. -/
structure Effect (b : Builder) (a : BuildStep) : Prop where
  trees_eq : (b.perform a).finish.trees = a.change b.parents.head? b.finish.trees
  count_le : ∀ first count kind span, a = .wrap first count kind span →
    ∀ p ∈ b.parents.head?, ∀ n ∈ b.nodes[p]?, count ≤ n.childCount

theorem length_siblings (f : Forest) (count i : Nat) : (f.siblings count i).length = count := by
  induction count generalizing i with
  | zero => rfl
  | succ count ih => rw [Forest.siblings, List.length_cons, ih]

theorem Held.effect (h : s.Held) (ha : s.builder.Permits a) : Effect s.builder a := by
  constructor
  · exact h.inOrder.trees_perform ha
  · rintro first count kind span rfl p hp n hn
    have hcount := ha.2.1
    obtain ⟨outer, hparents⟩ := List.head?_eq_some_iff.1 (Option.mem_def.1 hp)
    rw [Builder.siblings, hparents] at hcount
    dsimp only at hcount
    rw [Forest.children, Builder.finish, Option.mem_def.1 hn] at hcount
    dsimp only at hcount
    rwa [length_siblings] at hcount

/-- Whatever a builder is asked for, in whatever order its steps can be asked for: after each step
it holds a forest as it should, and the next step has its effect. -/
theorem wellFormed_after (steps : List BuildStep) (h : empty.Permits steps) :
    ∀ front back, steps = front ++ back → (empty.performAll front).WellFormed ∧
      ∀ a ∈ back.head?, Effect (empty.performAll front).builder a := by
  rintro front back rfl
  obtain ⟨hfront, hback⟩ := permits_append.1 h
  have hheld := held_empty.performAll hfront
  refine ⟨hheld.wellFormed, fun a ha => ?_⟩
  obtain ⟨more, rfl⟩ := List.head?_eq_some_iff.1 (Option.mem_def.1 ha)
  exact hheld.effect hback.1

/-- A definition of a choice, the last literal of which is opened again behind it and gets a child,
and a node around the definition. -/
def reopened : List BuildStep :=
  [.add .definition ⟨0, 12⟩, .push, .add .declaration ⟨0, 1⟩, .add (.character 97) ⟨2, 5⟩,
    .add (.character 98) ⟨6, 9⟩, .add (.character 99) ⟨9, 12⟩, .wrap 3 2 .group ⟨6, 12⟩,
    .wrap 2 2 .choice ⟨2, 12⟩, .pop, .push, .add .wildcard ⟨12, 13⟩, .setSpan 6 ⟨9, 13⟩,
    .wrap 7 1 (.atLeast 0) ⟨12, 14⟩, .pop, .wrap 0 1 .group ⟨0, 14⟩]

/-- The literal was put in by the sixth step, and is still the node at its position. -/
theorem wellFormed_after_reopened : empty.Permits reopened ∧
    (empty.performAll (reopened.take 13)).builder.parents = [6] ∧
    (empty.performAll (reopened.take 13)).opened = [5] ∧
    (empty.performAll (reopened.take 13)).WellFormed ∧
    Effect (empty.performAll (reopened.take 13)).builder .pop := by
  have hpermits : empty.Permits reopened := by decide +kernel
  obtain ⟨hwellFormed, heffect⟩ := wellFormed_after reopened hpermits (reopened.take 13)
    (reopened.drop 13) (List.take_append_drop 13 reopened).symm
  exact ⟨hpermits, rfl, rfl, hwellFormed, heffect .pop rfl⟩

end History
end LexicalPatterns
