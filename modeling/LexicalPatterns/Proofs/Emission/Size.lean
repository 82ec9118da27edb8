import Mathlib
import LexicalPatterns.Proofs.Emission.Trees

/-!
# How much a definition can write

The budget of a definition is checked where an operand is copied, and nowhere else. What is written
behind the last copy is written once for each node, so a layout exceeds the budget by no more than
its nodes write by themselves.
-/

namespace LexicalPatterns

/-- How many instructions a node with some number of children writes by itself, apart from them and
from copies. -/
def NodeKind.ownSize (children : Nat) : NodeKind → Nat
  | character _ | range _ _ | wildcard | reference => 1
  | string bytes => bytes.length
  | choice => 2 * children + 1
  | between _ _ => 3
  | atLeast _ => 4
  | definition | declaration | group | exactly _ => 0

theorem NodeKind.ownSize_mono (kind : NodeKind) {m n : Nat} (h : m ≤ n) :
    kind.ownSize m ≤ kind.ownSize n := by
  cases kind with
  | choice =>
    simp only [ownSize]
    omega
  | _ => exact Nat.le_refl _

def Node.ownSize (n : Node) : Nat := n.kind.ownSize n.childCount

/-- How many instructions the nodes of a forest write by themselves, each of them once. -/
def Forest.ownSize (f : Forest) : Nat := (f.nodes.map Node.ownSize).sum

namespace Tree

def ownSize (t : Tree) : Nat := (t.nodes.map Node.ownSize).sum

def ownSizes (ts : List Tree) : Nat := ((nodesAll ts).map Node.ownSize).sum

theorem ownSize_node (kind : NodeKind) (span : Span) (children : List Tree) :
    ownSize (.node kind span children) = kind.ownSize children.length + ownSizes children := by
  rw [ownSize, nodes, List.map_cons, List.sum_cons]
  rfl

theorem ownSizes_cons (t : Tree) (ts : List Tree) :
    ownSizes (t :: ts) = ownSize t + ownSizes ts := by
  rw [ownSizes, nodesAll, List.map_append, List.sum_append]
  rfl

theorem ownSizes_append (us vs : List Tree) : ownSizes (us ++ vs) = ownSizes us + ownSizes vs := by
  rw [ownSizes, nodesAll_append, List.map_append, List.sum_append]
  rfl

theorem ownSizes_drop_le (count : Nat) (ts : List Tree) :
    ownSizes (ts.drop count) ≤ ownSizes ts := by
  have happend := ownSizes_append (ts.take count) (ts.drop count)
  rw [List.take_append_drop] at happend
  omega

end Tree

namespace Forest

theorem ownSizes_foldr_adopt_le (ns : List Node) :
    Tree.ownSizes (ns.foldr adopt []) ≤ (ns.map Node.ownSize).sum := by
  induction ns with
  | nil => exact Nat.le_refl _
  | cons n ns ih =>
    have hchildren := n.kind.ownSize_mono (List.length_take_le n.childCount (ns.foldr adopt []))
    have hsplit := Tree.ownSizes_append ((ns.foldr adopt []).take n.childCount)
      ((ns.foldr adopt []).drop n.childCount)
    rw [List.take_append_drop] at hsplit
    rw [List.foldr_cons, adopt, Tree.ownSizes_cons, Tree.ownSize_node, List.map_cons, List.sum_cons,
      Node.ownSize]
    omega

theorem ownSizes_items_le (f : Forest) : Tree.ownSizes f.items ≤ f.ownSize := by
  have hnodes : Tree.ownSizes f.trees ≤ f.ownSize := ownSizes_foldr_adopt_le f.nodes
  unfold items
  split
  · exact Nat.zero_le _
  · next t ts htrees =>
    obtain ⟨kind, span, children⟩ := t
    have hdrop := Tree.ownSizes_drop_le 1 children
    rw [htrees, Tree.ownSizes_cons, Tree.ownSize_node] at hnodes
    change Tree.ownSizes (children.drop 1) ≤ _
    omega

end Forest

namespace Draft

theorem length_flatten_withExits_le (branches : List (List Draft)) :
    (withExits branches).flatten.length ≤ branches.flatten.length + branches.length := by
  induction branches with
  | nil => exact Nat.le_refl _
  | cons b bs ih =>
    cases bs with
    | nil => exact Nat.le_add_right _ _
    | cons b' bs =>
      rw [withExits_cons_cons, List.flatten_cons, List.flatten_cons, List.length_append,
        List.length_append, List.length_append, List.length_singleton, List.length_cons]
      omega

theorem checkSize_eq_ok {copies stop : Nat} {span : Span}
    (h : checkSize copies stop span = .ok ()) : copies ≤ 1 ∨ stop ≤ maxPatternSize := by
  unfold checkSize at h
  split at h
  · cases h
  · omega

/-- Whether a layout that is to stand `start` behind the start of its definition ends at most `more`
behind the budget, or behind `start` if that is further. -/
def EndsWithin (start more : Nat) (ds : List Draft) : Prop :=
  start + ds.length ≤ max start maxPatternSize + more

/-- Whether a tree ends within what its nodes write by themselves, wherever it is to stand. -/
def Bounded (source : String) (t : Tree) : Prop :=
  ∀ start ds, ofTree source start t = .ok ds → EndsWithin start t.ownSize ds

variable {source : String} {start : Nat} {ts : List Tree} {ds body : List Draft}

theorem EndsWithin.mono {more more' : Nat} (h : EndsWithin start more ds) (hle : more ≤ more') :
    EndsWithin start more' ds :=
  Nat.le_trans h (Nat.add_le_add_left hle _)

theorem ofTrees_endsWithin (h : ∀ t ∈ ts, Bounded source t)
    (hds : ofTrees source start ts = .ok ds) : EndsWithin start (Tree.ownSizes ts) ds := by
  induction ts generalizing start ds with
  | nil =>
    obtain rfl := Except.ok.inj hds
    exact Nat.le_add_right_of_le (Nat.le_max_left _ _)
  | cons t ts ih =>
    obtain ⟨ht, hts⟩ := List.forall_mem_cons.1 h
    obtain ⟨first, hfirst, hds⟩ := bind_eq_ok.1 hds
    obtain ⟨others, hothers, hds⟩ := bind_eq_ok.1 hds
    obtain rfl := Except.ok.inj hds
    have hhead := ht _ _ hfirst
    have htail := ih hts hothers
    unfold EndsWithin at *
    rw [List.length_append, Tree.ownSizes_cons]
    omega

theorem ofBranches_endsWithin (h : ∀ t ∈ ts, Bounded source t) {bodies : List (List Draft)}
    (hbodies : ofBranches source start ts = .ok bodies) :
    start + (bodies.flatten.length + bodies.length) ≤
      max start maxPatternSize + (Tree.ownSizes ts + ts.length) := by
  induction ts generalizing start bodies with
  | nil =>
    obtain rfl := Except.ok.inj hbodies
    exact Nat.le_add_right_of_le (Nat.le_max_left _ _)
  | cons t ts ih =>
    obtain ⟨ht, hts⟩ := List.forall_mem_cons.1 h
    obtain ⟨first, hfirst, hbodies⟩ := bind_eq_ok.1 hbodies
    obtain ⟨others, hothers, hbodies⟩ := bind_eq_ok.1 hbodies
    obtain rfl := Except.ok.inj hbodies
    have hhead := ht _ _ hfirst
    have htail := ih hts hothers
    unfold EndsWithin at hhead
    rw [List.flatten_cons, List.length_append, List.length_cons, List.length_cons,
      Tree.ownSizes_cons]
    omega

theorem choice_endsWithin (h : ∀ t ∈ ts, Bounded source t) {bodies : List (List Draft)}
    (hbodies : ofBranches source (start + 1 + ts.length) ts = .ok bodies) :
    EndsWithin start (2 * ts.length + 1 + Tree.ownSizes ts) (choice bodies) := by
  have hall := ofBranches_endsWithin h hbodies
  have hexits := length_flatten_withExits_le bodies
  have hcount : bodies.length = ts.length := by
    rw [Emit.ofBranches_eq] at hbodies
    exact Emit.length_layoutBranches hbodies
  rw [EndsWithin, length_choice, length_withExits]
  omega

theorem ofOperand_endsWithin (h : ∀ t ∈ ts, Bounded source t)
    (hbody : ofOperand source start ts = .ok body) : EndsWithin start (Tree.ownSizes ts) body := by
  cases ts with
  | nil =>
    obtain rfl := Except.ok.inj hbody
    exact Nat.le_add_right_of_le (Nat.le_max_left _ _)
  | cons t ts =>
    rw [Tree.ownSizes_cons]
    exact (h t List.mem_cons_self _ _ hbody).mono (Nat.le_add_right _ _)

/-- Copies of which the last ends at `stop` end within the budget if there are several, and as the
operand does if it is written once, `gap` behind `start`. -/
theorem EndsWithin.stop_le {count stop more gap : Nat} {span : Span}
    (hbody : EndsWithin (start + gap) more body) (hcount : count ≠ 0)
    (hsize : checkSize count stop span = .ok ())
    (honce : count = 1 → stop = start + gap + body.length) :
    stop ≤ max start maxPatternSize + gap + more := by
  unfold EndsWithin at hbody
  rcases checkSize_eq_ok hsize with hle | hle
  · have := honce (by omega)
    omega
  · omega

/-- How much stands in front of the first copy of an operand: a guard, if no copy is required. -/
def gap (min : Nat) : Nat := if min = 0 then 3 else 0

theorem gap_le (min : Nat) : gap min ≤ 3 := by
  unfold gap
  split <;> omega

theorem start_behind_gap (start min : Nat) :
    (if min = 0 then start + 3 else start) = start + gap min := by
  unfold gap
  split <;> rfl

section Repetitions

variable {span : Span} {more : Nat}

theorem exactly_endsWithin {count : Nat} (hcount : count ≠ 0)
    (hsize : checkSize count (start + count * body.length) span = .ok ())
    (hbody : EndsWithin start more body) : EndsWithin start more (copies count body) := by
  have honce : count = 1 → start + count * body.length = start + 0 + body.length := by
    rintro rfl
    omega
  have hbody : EndsWithin (start + 0) more body := hbody
  have hstop := hbody.stop_le hcount hsize honce
  rw [EndsWithin, length_copies]
  omega

theorem between_endsWithin {min max : Nat} (hle : min ≤ max) (hmax : max ≠ 0)
    (hsize : checkSize max (start + max * body.length + (max - min) * 3) span = .ok ())
    (hbody : EndsWithin (start + gap min) more body) :
    EndsWithin start (3 + more) (copies min body ++ optional body (max - min)) := by
  have honce : max = 1 →
      start + max * body.length + (max - min) * 3 = start + gap min + body.length := by
    rintro rfl
    unfold gap
    split <;> omega
  have hstop := hbody.stop_le hmax hsize honce
  have hgap := gap_le min
  have hcopies : min * body.length + (max - min) * body.length = max * body.length := by
    rw [← Nat.add_mul, Nat.add_sub_cancel' hle]
  rw [EndsWithin, List.length_append, length_copies, length_optional, Nat.mul_add]
  omega

theorem atLeast_endsWithin {min : Nat}
    (hsize : checkSize (min + 1) (start + (min + 1) * body.length + 3) span = .ok ())
    (hbody : EndsWithin (start + gap min) more body) :
    EndsWithin start (4 + more) (copies min body ++ loop body) := by
  have honce : min + 1 = 1 →
      start + (min + 1) * body.length + 3 = start + gap min + body.length := by
    intro hmin
    obtain rfl := Nat.succ.inj hmin
    rw [gap, if_pos rfl]
    omega
  have hstop := hbody.stop_le (Nat.succ_ne_zero min) hsize honce
  have hgap := gap_le min
  rw [Nat.succ_mul] at hstop
  rw [EndsWithin, List.length_append, length_copies, length_loop]
  omega

end Repetitions

/-- A layout ends within the budget, but for what the nodes of its tree write by themselves. -/
theorem bounded (source : String) (t : Tree) : Bounded source t := by
  induction t using Tree.induction with
  | node kind span children ih =>
    intro start ds hds
    rw [Tree.ownSize_node]
    cases kind with
    | definition => exact (ofTrees_endsWithin ih hds).mono (Nat.le_add_left _ _)
    | group => exact (ofTrees_endsWithin ih hds).mono (Nat.le_add_left _ _)
    | declaration | reference | character _ | wildcard =>
      obtain rfl := Except.ok.inj hds
      simp only [EndsWithin, NodeKind.ownSize, List.length_singleton, List.length_nil]
      omega
    | string bytes =>
      obtain rfl := Except.ok.inj hds
      simp only [EndsWithin, NodeKind.ownSize, List.length_map]
      omega
    | range low high =>
      rw [ofTree] at hds
      split at hds
      · cases hds
      · obtain rfl := Except.ok.inj hds
        simp only [EndsWithin, NodeKind.ownSize, List.length_singleton]
        omega
    | choice =>
      obtain ⟨bodies, hbodies, hds⟩ := bind_eq_ok.1 hds
      obtain rfl := Except.ok.inj hds
      exact choice_endsWithin ih hbodies
    | exactly count =>
      obtain ⟨_, -, hds⟩ := bind_eq_ok.1 hds
      split at hds
      · obtain rfl := Except.ok.inj hds
        simp only [EndsWithin, List.length_nil]
        omega
      · next hcount =>
        obtain ⟨body, hbody, hds⟩ := bind_eq_ok.1 hds
        obtain ⟨_, hsize, hds⟩ := bind_eq_ok.1 hds
        obtain rfl := Except.ok.inj hds
        exact (exactly_endsWithin hcount hsize (ofOperand_endsWithin ih hbody)).mono
          (Nat.le_add_left _ _)
    | between min max =>
      rw [ofTree] at hds
      split at hds
      · cases hds
      · next hle =>
        obtain ⟨_, -, hds⟩ := bind_eq_ok.1 hds
        split at hds
        · obtain rfl := Except.ok.inj hds
          simp only [EndsWithin, List.length_nil]
          omega
        · next hmax =>
          obtain ⟨body, hbody, hds⟩ := bind_eq_ok.1 hds
          obtain ⟨_, hsize, hds⟩ := bind_eq_ok.1 hds
          obtain rfl := Except.ok.inj hds
          rw [start_behind_gap] at hbody
          exact between_endsWithin (Nat.not_lt.1 hle) hmax hsize (ofOperand_endsWithin ih hbody)
    | atLeast min =>
      obtain ⟨_, -, hds⟩ := bind_eq_ok.1 hds
      obtain ⟨body, hbody, hds⟩ := bind_eq_ok.1 hds
      obtain ⟨_, hsize, hds⟩ := bind_eq_ok.1 hds
      obtain rfl := Except.ok.inj hds
      rw [start_behind_gap] at hbody
      exact atLeast_endsWithin hsize (ofOperand_endsWithin ih hbody)

end Draft
end LexicalPatterns
