import LexicalPatterns.Proofs.Batch.Rollback
import LexicalPatterns.Proofs.Emission.Size

/-!
# The size of definitions

Repetitions may nest, and the numbers of copies that they ask for multiply. The code of an accepted
definition still takes no more than the budget and a term that is linear in its tree.
-/

namespace LexicalPatterns.Batch

/-- The code of a pattern whose body is not refused takes no more than the budget, what its nodes
write by themselves, and a terminal. -/
theorem length_drafts_le {source : String} {f : Forest} {r : Rule}
    (hbody : body source f = .ok r.drafts) :
    r.drafts.length ≤ maxPatternSize + f.ownSize + 1 := by
  obtain ⟨ds, hds, hdrafts⟩ := bind_eq_ok.1 hbody
  have hwithin : Draft.EndsWithin 0 (Tree.ownSizes f.items) ds :=
    Draft.ofTrees_endsWithin (fun t _ => Draft.bounded source t) hds
  have hitems := f.ownSizes_items_le
  rw [← Except.ok.inj hdrafts, List.length_append, List.length_singleton]
  unfold Draft.EndsWithin at hwithin
  omega

/-- Whatever a batch has been asked for, the code of a definition that it accepts is what the
definition adds to the code of the batch, and takes no more than the budget, what the nodes of the
tree write by themselves once, and a terminal. -/
theorem size_after (rs : List Request) {source : String} {f : Forest} {p : Placed} {b' : Batch}
    (hcompile : (empty.respondAll rs).2.compile source f = (.ok p, b')) :
    p.start = (empty.respondAll rs).2.code.size ∧ p.stop = b'.code.size ∧
      p.stop - p.start ≤ maxPatternSize + f.ownSize + 1 := by
  have h : (empty.respondAll rs).2.WellFormed := wellFormed_empty.respondAll rs
  have hgains := h.gains hcompile
  obtain ⟨r, names, hverdict, -, rfl, -⟩ := h.inCode.compile_eq_ok hcompile
  have hlength := length_drafts_le (verdict_eq_ok.1 hverdict).2.2
  refine ⟨hgains.start, hgains.stop, ?_⟩
  rw [Nat.add_sub_cancel_left]
  exact hlength

def nested : Forest :=
  ⟨[⟨.definition, ⟨0, 14⟩, 2⟩, ⟨.declaration, ⟨0, 1⟩, 0⟩, ⟨.atLeast 2, ⟨2, 14⟩, 1⟩,
    ⟨.between 0 3, ⟨2, 10⟩, 1⟩, ⟨.character 97, ⟨2, 5⟩, 0⟩]⟩

theorem compile_nested :
    ((empty.respondAll [.source "y='b'"]).2.compile "x='a'{0,3}{2,}" nested).1 =
      .ok ⟨"x", 2, 43⟩ := by
  cbv

/-- The nodes write eight instructions by themselves, and the definition takes 41. -/
theorem size_after_nested :
    definitions "x='a'{0,3}{2,}" = .ok [nested] ∧ nested.ownSize = 8 ∧
      ((empty.respondAll [.source "y='b'"]).2.compile "x='a'{0,3}{2,}" nested).1 =
        .ok ⟨"x", 2, 43⟩ ∧
      43 - 2 ≤ maxPatternSize + nested.ownSize + 1 :=
  ⟨by cbv, rfl, compile_nested,
    (size_after [.source "y='b'"] (Prod.ext compile_nested rfl)).2.2⟩

end LexicalPatterns.Batch
