import LexicalPatterns.Proofs.Batch.Blame
import LexicalPatterns.Proofs.Batch.Session

/-!
# Definitions that come from sources

A batch that is asked for nothing but sources accepts only definitions that stand in them, so the
names that it registers are identifiers.
-/

namespace LexicalPatterns

theorem Forest.exists_declaration_of_name {source name : String} {u : Tree}
    (h : (Forest.ofTrees [u]).name source = some name) :
    ∃ t ∈ u.children, t.kind = .declaration ∧ t.span.text source = name := by
  obtain ⟨kind, span, children⟩ := u
  cases children with
  | nil => simp [Forest.name, Forest.ofTrees, Tree.nodesAll, Tree.nodes] at h
  | cons t ts =>
    have hname : (kind = .definition ∧ t.kind = .declaration) ∧ t.span.text source = name := by
      simpa [Forest.name, Forest.ofTrees, Tree.nodesAll, Tree.nodes, t.nodes_eq_cons] using h
    exact ⟨t, List.mem_cons_self, hname.1.2, hname.2⟩

namespace Batch

variable {b b' : Batch} {source : String} {f : Forest} {fs : List Forest} {p : Placed}
  {a : Accepted}

theorem name_of_compile (h : b.compile source f = (.ok p, b')) : f.name source = some p.name := by
  unfold compile at h
  split at h
  · next name _ hname =>
    split at h
    · simp at h
    · dsimp only at h
      split at h
      · simp at h
      · split at h
        · simp at h
        · simp only [Prod.mk.injEq, Except.ok.injEq] at h
          rw [hname, ← h.1]
  · simp at h
  · simp at h

/-- A name that is declared in a source is an identifier. -/
theorem isIdentifier_of_definitions (hfs : definitions source = .ok fs) (hf : f ∈ fs)
    {name : String} (hname : f.name source = some name) : IsIdentifier name := by
  obtain ⟨tokens, u, htokens, rfl, hu⟩ := exists_placed_of_definitions hfs hf
  obtain ⟨t, ht, hkind, rfl⟩ := Forest.exists_declaration_of_name hname
  have hmem := (hu.of_mem_children t ht).identifier_mem (.inl hkind)
  exact (tokensTile_of_tokenize htokens).isIdentifier hmem

theorem name_of_mem_acceptedAll (ha : a ∈ acceptedAll source fs b) :
    a.forest ∈ fs ∧ a.forest.name source = some a.placed.name := by
  induction fs generalizing b with
  | nil => cases ha
  | cons f fs ih =>
    unfold acceptedAll at ha
    split at ha
    · cases ha
    · next p b' hcompile =>
      rcases List.mem_cons.1 ha with rfl | ha
      · exact ⟨List.mem_cons_self, name_of_compile hcompile⟩
      · obtain ⟨hforest, hname⟩ := ih ha
        exact ⟨List.mem_cons_of_mem f hforest, hname⟩

theorem isIdentifier_of_mem_acceptedOf (ha : a ∈ b.acceptedOf source) :
    IsIdentifier a.placed.name := by
  unfold acceptedOf at ha
  split at ha
  · cases ha
  · next fs hfs =>
    obtain ⟨hforest, hname⟩ := name_of_mem_acceptedAll ha
    exact isIdentifier_of_definitions hfs hforest hname

end Batch

/-- Whether a request asks for no single definition, which need not stand in a source. -/
def Request.IsOfSource : Request → Prop
  | .define _ _ => False
  | _ => True

namespace Session

/-- The definitions that are accepted from sources are named by identifiers. -/
theorem isIdentifier_after {rs : List Request} (hrs : ∀ r ∈ rs, r.IsOfSource) :
    ∀ a ∈ (after rs).accepted, IsIdentifier a.placed.name := by
  suffices h : ∀ s : Session, (∀ a ∈ s.accepted, IsIdentifier a.placed.name) →
      ∀ a ∈ (rs.foldl perform s).accepted, IsIdentifier a.placed.name from h empty nofun
  induction rs with
  | nil => exact fun _ h => h
  | cons r rs ih =>
    intro s hs
    obtain ⟨hr, hrs⟩ := List.forall_mem_cons.1 hrs
    apply ih hrs
    cases r with
    | origin n => exact fun a ha => hs a (by simpa [perform, Batch.acceptedBy] using ha)
    | define source f => exact hr.elim
    | source text =>
      intro a ha
      rcases List.mem_append.1 ha with ha | ha
      · exact hs a ha
      · exact Batch.isIdentifier_of_mem_acceptedOf ha

end Session
end LexicalPatterns
