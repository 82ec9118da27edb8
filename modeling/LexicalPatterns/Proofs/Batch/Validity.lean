import Mathlib
import LexicalPatterns.Proofs.Batch.Rollback
import LexicalPatterns.Proofs.Emission.Check

/-!
# Valid definitions

An accepted definition has no invalid range or repetition among the nodes that are written for it,
and a refused one whose name is new, and that does not grow too large, has one. The operand of a
repetition of no copies is not written, so a definition is accepted whatever stands there.
-/

namespace LexicalPatterns.Batch

/-- The body of a definition is refused for one of its nodes, or for its size. -/
theorem heeds_body (source : String) (f : Forest) :
    Draft.Heeds (body source f) (Tree.checkAll (Tree.checks f.items)) :=
  (Draft.heeds_ofTrees (fun t _ start => Draft.heeds_ofTree source start t) 0).bind_ok
    fun _ => rfl

theorem verdict_eq_error {names : NameTable} {source : String} {f : Forest} {e : CompileError}
    (h : verdict names source f = .error e) :
    (∃ span, e = .notADefinition span) ∨ (∃ name span, e = .duplicatePattern name span) ∨
      body source f = .error e := by
  unfold verdict at h
  split at h
  · split at h
    · exact .inr (.inl ⟨_, _, (Except.error.inj h).symm⟩)
    · cases hbody : body source f with
      | error e' =>
        rw [hbody] at h
        exact .inr (.inr (congrArg _ (Except.error.inj h)))
      | ok ds =>
        rw [hbody] at h
        cases h
  · exact .inl ⟨_, (Except.error.inj h).symm⟩
  · exact .inl ⟨_, (Except.error.inj h).symm⟩

/-- Whatever a batch has been asked for, all nodes that are written for a definition that it accepts
are valid. What it refuses is not a new definition or grows too large, or a node that would be
written for it is not valid. -/
theorem valid_after (rs : List Request) (source : String) (f : Forest) :
    (∀ p b', (empty.respondAll rs).2.compile source f = (.ok p, b') →
        ∀ t ∈ f.items, ∀ s, t.Writes s → s.kind.Valid) ∧
      ∀ e b', (empty.respondAll rs).2.compile source f = (.error e, b') →
        (∃ span, e = .notADefinition span) ∨ (∃ name span, e = .duplicatePattern name span) ∨
          (∃ span, e = .patternTooLarge span) ∨
          ∃ t ∈ f.items, ∃ s, t.Writes s ∧ s.kind.check s.span = .error e := by
  have h : (empty.respondAll rs).2.InCode := (wellFormed_empty.respondAll rs).inCode
  have hheeds := heeds_body source f
  rw [Tree.checks_eq_map] at hheeds
  refine ⟨fun p b' hcompile t ht => ?_, fun e b' hcompile => ?_⟩
  · obtain ⟨r, names, hverdict, -⟩ := h.compile_eq_ok hcompile
    rw [(verdict_eq_ok.1 hverdict).2.2] at hheeds
    exact Tree.check_eq_ok_iff.1 (Tree.checkAll_eq_ok_iff.1 hheeds _ (List.mem_map_of_mem ht))
  · rcases verdict_eq_error (h.compile_eq_error hcompile).1 with hroot | hname | hbody
    · exact .inl hroot
    · exact .inr (.inl hname)
    · rw [hbody] at hheeds
      rcases hheeds with hcheck | hlarge
      · obtain ⟨t, ht, ht'⟩ := List.mem_map.1 (Tree.exists_of_checkAll hcheck)
        exact .inr (.inr (.inr ⟨t, ht, Tree.exists_of_check ht'⟩))
      · exact .inr (.inr (.inl hlarge))

def noCopies : Forest :=
  ⟨[⟨.definition, ⟨0, 15⟩, 2⟩, ⟨.declaration, ⟨0, 1⟩, 0⟩, ⟨.exactly 0, ⟨2, 15⟩, 1⟩,
    ⟨.range 122 97, ⟨3, 11⟩, 0⟩]⟩

theorem compile_noCopies :
    (empty.compile "x=['z'..'a']{0}" noCopies).1 = .ok ⟨"x", 0, 1⟩ := by
  cbv

/-- The range is not valid, and its definition is accepted: the range is not written. -/
theorem valid_after_noCopies :
    definitions "x=['z'..'a']{0}" = .ok [noCopies] ∧
      (empty.compile "x=['z'..'a']{0}" noCopies).1 = .ok ⟨"x", 0, 1⟩ ∧
      (∀ t ∈ noCopies.items, ∀ s, t.Writes s → s.kind.Valid) ∧
      ∃ t ∈ noCopies.items, ∃ s ∈ t.children, ¬ s.kind.Valid := by
  refine ⟨by cbv, compile_noCopies, ?_, ?_⟩
  · exact (valid_after [] "x=['z'..'a']{0}" noCopies).1 _ _ (Prod.ext compile_noCopies rfl)
  · refine ⟨.node (.exactly 0) ⟨2, 15⟩ [.leaf (.range 122 97) ⟨3, 11⟩], ?_, _,
      List.mem_singleton_self _, ?_⟩
    · simp [noCopies, Forest.items, Forest.trees, Forest.adopt, Tree.children, Tree.leaf]
    · simp [NodeKind.Valid, Tree.leaf, Tree.kind]

end LexicalPatterns.Batch
