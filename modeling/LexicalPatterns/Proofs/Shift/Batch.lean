import LexicalPatterns.Proofs.Batch.Compile
import LexicalPatterns.Proofs.Shift.Emission

/-!
# Compiling shifted definitions

A shifted definition is accepted where the definition is, with the same code and the same name, and
it is refused for the same reason. Only the spans of its references and the span of the reason are
shifted.
-/

namespace LexicalPatterns

def Node.shift (k : Nat) (n : Node) : Node := { n with span := n.span.shift k }

theorem Tree.nodesAll_shift {k : Nat} {ts : List Tree}
    (h : ∀ t ∈ ts, (t.shift k).nodes = t.nodes.map (Node.shift k)) :
    nodesAll (ts.map (shift k)) = (nodesAll ts).map (Node.shift k) := by
  rw [nodesAll_eq_flatMap, nodesAll_eq_flatMap, List.flatMap_map, List.map_flatMap]
  exact List.flatMap_congr h

theorem Tree.nodes_shift (k : Nat) (t : Tree) :
    (t.shift k).nodes = t.nodes.map (Node.shift k) := by
  induction t using Tree.induction with
  | node kind span children ih =>
    rw [shift_node, nodes, nodes, nodesAll_shift ih, List.length_map, List.map_cons]
    rfl

namespace Forest

theorem nodes_singleton (t : Tree) : (ofTrees [t]).nodes = t.nodes := List.append_nil _

theorem items_singleton (t : Tree) : (ofTrees [t]).items = t.children.drop 1 := by
  rw [items, trees_ofTrees]

theorem items_shift (k : Nat) (t : Tree) :
    (ofTrees [t.shift k]).items = (ofTrees [t]).items.map (Tree.shift k) := by
  obtain ⟨kind, span, children⟩ := t
  rw [items_singleton, items_singleton, Tree.shift_node]
  exact List.map_drop.symm

theorem nodes_shift (k : Nat) {t : Tree} {root d : Node} {rest : List Node}
    (h : (ofTrees [t]).nodes = root :: d :: rest) :
    (ofTrees [t.shift k]).nodes = root.shift k :: d.shift k :: rest.map (Node.shift k) := by
  rw [nodes_singleton] at h ⊢
  rw [Tree.nodes_shift, h, List.map_cons, List.map_cons]

variable {k : Nat} {source source' : String} {t : Tree}

theorem name_shift (h : t.Names (SameText k source source')) :
    (ofTrees [t.shift k]).name source' = (ofTrees [t]).name source := by
  unfold name
  rw [nodes_singleton, nodes_singleton, Tree.nodes_shift]
  unfold Tree.Names at h
  match t.nodes, h with
  | [], _ => rfl
  | [_], _ => rfl
  | root :: d :: rest, h =>
    by_cases hd : root.kind = .definition ∧ d.kind = .declaration
    · have htext : SameText k source source' d.span := h d (by simp) (.inr hd.2)
      simp only [List.map_cons]
      rw [if_pos hd, if_pos (show (root.shift k).kind = _ ∧ (d.shift k).kind = _ from hd)]
      exact congrArg some htext
    · simp only [List.map_cons]
      rw [if_neg hd, if_neg (show ¬ ((root.shift k).kind = _ ∧ (d.shift k).kind = _) from hd)]

theorem names_items {P : Span → Prop} (h : t.Names P) {name : String}
    (hname : (ofTrees [t]).name source = some name) :
    ∀ item ∈ (ofTrees [t]).items, item.Names P := by
  obtain ⟨kind, span, children⟩ := t
  have hkind : kind = .definition := by
    unfold Forest.name at hname
    rw [nodes_singleton, Tree.nodes] at hname
    split at hname
    · next root d rest hnodes =>
      obtain ⟨rfl, -⟩ := List.cons.inj hnodes
      by_contra hno
      rw [if_neg (mt And.left hno)] at hname
      cases hname
    · cases hname
  subst hkind
  rw [items_singleton]
  intro item hitem
  exact (Tree.names_node (by decide)).1 h item (List.mem_of_mem_drop hitem)

end Forest

namespace Batch

/-- The batch with the references that stand at `start` or behind shifted. -/
def shiftFrom (start k : Nat) (b : Batch) : Batch :=
  { b with fixups := b.fixups.map (Fixup.shiftFrom start k) }

variable {b : Batch} {start k : Nat} {source source' : String} {t : Tree}

theorem compile_singleton_of_name_eq_none (h : (Forest.ofTrees [t]).name source = none) :
    b.compile source (.ofTrees [t]) = (.error (.notADefinition t.span), b) := by
  obtain ⟨kind, span, children⟩ := t
  unfold compile
  rw [h, Forest.nodes_singleton, Tree.nodes]
  rcases Tree.nodesAll children with _ | ⟨d, rest⟩ <;> rfl

theorem span_shift (t : Tree) : (t.shift k).span = t.span.shift k := by
  obtain ⟨kind, span, children⟩ := t
  rfl

theorem emitter_shiftFrom (b : Batch) :
    (b.shiftFrom start k).emitter = b.emitter.shiftFrom start k := rfl

theorem cutOff_shiftFrom (b : Batch) (e : Emitter) :
    (b.shiftFrom start k).cutOff (e.shiftFrom start k) = (b.cutOff e).shiftFrom start k := by
  simp only [cutOff, shiftFrom, Emitter.shiftFrom, Array.size_map, Array.take_eq_extract,
    Array.map_extract]

/-- A shifted definition is compiled to the same code, and refused for the same reason. -/
theorem compile_shift (hstart : start ≤ b.buffer.size) (h : t.Names (SameText k source source')) :
    start ≤ (b.compile source (.ofTrees [t])).2.buffer.size ∧
    (b.shiftFrom start k).compile source' (.ofTrees [t.shift k]) =
      ((b.compile source (.ofTrees [t])).1.mapError (CompileError.shift k),
        (b.compile source (.ofTrees [t])).2.shiftFrom start k) := by
  have hname' := Forest.name_shift h
  cases hname : (Forest.ofTrees [t]).name source with
  | none =>
    rw [hname] at hname'
    rw [compile_singleton_of_name_eq_none hname, compile_singleton_of_name_eq_none hname',
      span_shift]
    exact ⟨hstart, rfl⟩
  | some name =>
    rw [hname] at hname'
    obtain ⟨root, d, rest, hnodes⟩ := Forest.exists_nodes_of_name hname
    have hnodes' := Forest.nodes_shift k hnodes
    by_cases hlookup : (b.names.lookup name).isSome
    · rw [compile_of_known hnodes hname hlookup,
        compile_of_known (b := b.shiftFrom start k) hnodes' hname' hlookup]
      exact ⟨hstart, rfl⟩
    · obtain ⟨names, hreg⟩ :=
        NameTable.register_of_lookup_eq_none (Option.not_isSome_iff_eq_none.1 hlookup)
          b.buffer.size
      have hmoves : Emit.Moves start k (Emit.body source (Forest.ofTrees [t]).items)
          (Emit.body source' (Forest.ofTrees [t.shift k]).items) :=
        Forest.items_shift k t ▸ Emit.moves_body (Forest.names_items h hname)
      obtain ⟨hsize, hrun, -⟩ := hmoves b.emitter hstart
      rw [compile_of_new hnodes hname hreg,
        compile_of_new (b := b.shiftFrom start k) hnodes' hname' hreg]
      rcases hbody : (Emit.body source (Forest.ofTrees [t]).items).run b.emitter
        with ⟨refusal | ⟨⟩, e⟩
      · rw [hbody] at hsize hrun
        have hcut : start ≤ (b.cutOff e).buffer.size := by
          rw [cutOff, CodeBuffer.size_truncate]
          exact Nat.le_min.2 ⟨hstart, hsize⟩
        refine ⟨hcut, ?_⟩
        simp only [hrun, emitter_shiftFrom, ← cutOff_shiftFrom]
        rfl
      · rw [hbody] at hsize hrun
        refine ⟨hsize, ?_⟩
        simp only [hrun, emitter_shiftFrom]
        rfl

theorem defineAll_shift {ts : List Tree} (hstart : start ≤ b.buffer.size)
    (h : ∀ t ∈ ts, t.Names (SameText k source source')) :
    defineAll source' (ts.map fun t => .ofTrees [t.shift k]) (b.shiftFrom start k) =
      ((defineAll source (ts.map fun t => .ofTrees [t]) b).1.mapError (CompileError.shift k),
        (defineAll source (ts.map fun t => .ofTrees [t]) b).2.shiftFrom start k) := by
  induction ts generalizing b with
  | nil => rfl
  | cons t ts ih =>
    obtain ⟨ht, hts⟩ := List.forall_mem_cons.1 h
    obtain ⟨hsize, hcompile⟩ := compile_shift hstart ht
    rcases hfirst : b.compile source (.ofTrees [t]) with ⟨e | p, b₁⟩
    · rw [hfirst] at hcompile
      simp only [List.map_cons, defineAll, hfirst, hcompile]
      rfl
    · rw [hfirst] at hcompile hsize
      have hrest := ih hsize hts
      simp only [List.map_cons, defineAll, hfirst, hcompile, Except.mapError, hrest]
      rcases (defineAll source (ts.map fun t => .ofTrees [t]) b₁).1 <;> rfl

end Batch
end LexicalPatterns
