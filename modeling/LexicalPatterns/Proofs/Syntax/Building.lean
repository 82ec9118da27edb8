import LexicalPatterns.Proofs.Lists
import LexicalPatterns.Proofs.Syntax.Derivation
import LexicalPatterns.Proofs.Syntax.Preorder

/-!
# What builders hold

While a definition is read, the builder holds the nodes of finished trees behind those that it had
before, and the innermost open parent counts them. Adding a node, opening a parent and closing it,
and putting a node around the last siblings are changes of these trees.
-/

namespace LexicalPatterns

namespace Builder

/-- Whether the innermost open parent, if there is one, is a node of the builder. -/
def Open (b : Builder) : Prop := ∀ p ∈ b.parents.head?, p < b.length

theorem open_empty : empty.Open := by simp [Open, empty]

/-- The builder with finished trees below the innermost open parent. -/
def extend (b : Builder) (ts : List Tree) : Builder :=
  countChildren { b with nodes := b.nodes ++ Tree.nodesAll ts } (· + ts.length)

variable {b : Builder}

/-- What `extend` makes of the nodes: it counts first, and appends to them. -/
theorem extend_eq (h : b.Open) (ts : List Tree) :
    b.extend ts =
      ⟨(b.countChildren (· + ts.length)).nodes ++ Tree.nodesAll ts, b.parents⟩ := by
  obtain ⟨nodes, _ | ⟨p, ps⟩⟩ := b
  · rfl
  · have hp : p < nodes.length := h p rfl
    simp only [extend, countChildren, modify_append_of_lt _ hp]

@[simp] theorem parents_countChildren (f : Nat → Nat) :
    (b.countChildren f).parents = b.parents := by
  obtain ⟨nodes, _ | ⟨p, ps⟩⟩ := b <;> rfl

@[simp] theorem length_countChildren (f : Nat → Nat) :
    (b.countChildren f).length = b.length := by
  obtain ⟨nodes, _ | ⟨p, ps⟩⟩ := b <;> simp [countChildren, length]

@[simp] theorem parents_extend (ts : List Tree) : (b.extend ts).parents = b.parents :=
  parents_countChildren _

@[simp] theorem length_extend (ts : List Tree) :
    (b.extend ts).length = b.length + (Tree.nodesAll ts).length := by
  rw [extend, length_countChildren]
  exact List.length_append

theorem Open.extend (h : b.Open) (ts : List Tree) : (b.extend ts).Open := by
  intro p hp
  rw [parents_extend] at hp
  rw [length_extend]
  exact Nat.lt_add_right _ (h p hp)

theorem add_eq_extend (kind : NodeKind) (span : Span) :
    b.add kind span = b.extend [.leaf kind span] := rfl

@[simp] theorem extend_nil : b.extend [] = b := by
  obtain ⟨nodes, _ | ⟨p, ps⟩⟩ := b
  · simp [extend, countChildren, Tree.nodesAll]
  · simp only [extend, countChildren, Tree.nodesAll, List.append_nil, List.length_nil, Nat.add_zero]
    congr 1
    exact List.modify_id p nodes

theorem extend_extend (h : b.Open) (us vs : List Tree) :
    (b.extend us).extend vs = b.extend (us ++ vs) := by
  rw [extend_eq h, extend_eq h]
  obtain ⟨nodes, _ | ⟨p, ps⟩⟩ := b
  · simp [extend, countChildren]
  · have hp : p < nodes.length := h p rfl
    have hp' : p < (nodes.modify p fun n =>
        { n with childCount := n.childCount + us.length }).length := by simpa using hp
    simp only [extend, countChildren, Tree.nodesAll_append, List.append_assoc, List.length_append,
      modify_append_of_lt _ hp', List.modify_modify_eq]
    congr 3
    funext n
    simp [Nat.add_assoc]

/-- A node that is put around the first of the trees takes their places among the siblings. -/
theorem wrap_extend (h : b.Open) (us vs : List Tree) (kind : NodeKind) (span : Span) :
    (b.extend (us ++ vs)).wrap b.length us.length kind span =
      b.extend (.node kind span us :: vs) := by
  have hnodes (f : Nat → Nat) (ns : List Node) (n : Node) :
      ((b.countChildren f).nodes ++ ns).insertIdx b.length n =
        (b.countChildren f).nodes ++ n :: ns := by
    rw [← length_countChildren f]
    exact insertIdx_length_append _ _ _
  rw [wrap, extend_eq h, hnodes, extend_eq h]
  obtain ⟨nodes, _ | ⟨p, ps⟩⟩ := b
  · simp [countChildren, Tree.nodesAll, Tree.nodes]
  · have hp : p < nodes.length := h p rfl
    have hp' (f : Node → Node) : p < (nodes.modify p f).length := by
      rwa [List.length_modify]
    simp only [countChildren, modify_append_of_lt _ (hp' _), List.modify_modify_eq, Tree.nodesAll,
      Tree.nodes, Tree.nodesAll_append, List.cons_append, List.length_append, List.length_cons]
    congr 3
    funext n
    simp only [Function.comp_apply, Node.mk.injEq, true_and]
    omega

theorem wrap_last (h : b.Open) (t : Tree) (kind : NodeKind) (span : Span) :
    (b.extend [t]).wrap b.length 1 kind span = b.extend [.node kind span [t]] :=
  wrap_extend h [t] [] kind span

theorem close_extend (h : b.Open) (kind : NodeKind) (span span' : Span) (ts : List Tree) :
    ((b.add kind span).push.extend ts).pop.setSpan b.length span' =
      b.extend [.node kind span' ts] := by
  let counted := (b.countChildren (· + 1)).nodes
  have hlength : b.length = counted.length := (length_countChildren _).symm
  have hopened : b.add kind span = ⟨counted ++ [⟨kind, span, 0⟩], b.parents⟩ :=
    extend_eq h [.leaf kind span]
  have hclosed : b.extend [.node kind span' ts] =
      ⟨counted ++ ⟨kind, span', ts.length⟩ :: Tree.nodesAll ts, b.parents⟩ := by
    rw [extend_eq h, Tree.nodesAll, Tree.nodes, Tree.nodesAll, List.append_nil]
    rfl
  have hlast : (b.add kind span).length - 1 = b.length := by
    rw [add_eq_extend, length_extend]
    rfl
  rw [push, hlast, hopened, hclosed, hlength]
  simp only [extend, countChildren, pop, setSpan, List.append_assoc, List.cons_append,
    List.nil_append, modify_length_append, List.tail_cons, Nat.zero_add]

theorem open_push (b : Builder) (kind : NodeKind) (span : Span) : (b.add kind span).push.Open := by
  rintro p ⟨⟩
  rw [add_eq_extend]
  have hlength : (b.extend [.leaf kind span]).length = b.length + 1 := length_extend _
  change (b.extend [.leaf kind span]).length - 1 < (b.extend [.leaf kind span]).length
  omega

theorem finish_extend_empty (ts : List Tree) : (empty.extend ts).finish = Forest.ofTrees ts := rfl

end Builder

namespace Parse

/-- Where branches stand whose items are written one after the other, from a position on. -/
def stretches (first : Nat) : List Branch → List Stretch
  | [] => []
  | b :: bs =>
    ⟨first, b.items.length, b.span⟩ :: stretches (first + (Tree.nodesAll b.items).length) bs

variable {b : Builder} {bs : List Branch}

theorem length_stretches (first : Nat) : (stretches first bs).length = bs.length := by
  induction bs generalizing first with
  | nil => rfl
  | cons b bs ih => rw [stretches, List.length_cons, List.length_cons, ih]

theorem group_extend (h : b.Open) (r : Branch) (hr : r.items ≠ []) (vs : List Tree) :
    Stretch.group ⟨b.length, r.items.length, r.span⟩ (b.extend (r.items ++ vs)) =
      b.extend (r.tree :: vs) := by
  obtain ⟨items, span⟩ := r
  match items with
  | [t] => rfl
  | t :: t' :: ts => exact Builder.wrap_extend h (t :: t' :: ts) vs .group span

theorem foldr_group (h : b.Open) (hbs : ∀ r ∈ bs, r.items ≠ []) :
    (stretches b.length bs).foldr Stretch.group (b.extend (bs.flatMap Branch.items)) =
      b.extend (bs.map Branch.tree) := by
  induction bs generalizing b with
  | nil => rfl
  | cons r rs ih =>
    obtain ⟨hr, hrs⟩ := List.forall_mem_cons.1 hbs
    have hlength : b.length + (Tree.nodesAll r.items).length = (b.extend r.items).length :=
      (Builder.length_extend _).symm
    rw [stretches, List.foldr_cons, List.flatMap_cons, List.map_cons, hlength,
      ← Builder.extend_extend h, ih (h.extend _) hrs, Builder.extend_extend h, group_extend h r hr]

/-- What an alternation adds, once the nodes around its branches are put in. -/
theorem gather_extend (h : b.Open) (hbs : ∀ r ∈ bs, r.items ≠ []) {span : Span}
    (hspan : ∀ r, bs = [r] → r.span = span) (grouped : Bool) :
    gather grouped b.length span (stretches b.length bs) (b.extend (bs.flatMap Branch.items)) =
      b.extend (if grouped then [Branch.bracket bs span] else Branch.splice bs span) := by
  have hchoice : ((stretches b.length bs).foldr Stretch.group
        (b.extend (bs.flatMap Branch.items))).wrap b.length (stretches b.length bs).length .choice
          span = b.extend [.node .choice span (bs.map Branch.tree)] := by
    have hwrap := Builder.wrap_extend h (bs.map Branch.tree) [] .choice span
    rwa [List.append_nil, List.length_map, ← foldr_group h hbs,
      ← length_stretches b.length] at hwrap
  match bs with
  | [r] =>
    have hgroup := group_extend h r (hbs r List.mem_cons_self) []
    rw [hspan r rfl, List.append_nil] at hgroup
    rw [List.flatMap_singleton]
    cases grouped with
    | true => simpa [stretches, gather, Stretch.group, Branch.bracket] using hgroup
    | false => rfl
  | [] | _ :: _ :: _ => cases grouped <;> exact hchoice

end Parse
end LexicalPatterns
