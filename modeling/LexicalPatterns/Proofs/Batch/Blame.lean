import LexicalPatterns.Proofs.Batch.Rollback
import LexicalPatterns.Proofs.Syntax.Safety
import LexicalPatterns.Proofs.Syntax.Spans

/-!
# What a refusal points at

A definition is refused at one of its nodes, which stand on tokens of the source. So whatever a
batch refuses a source for, the refusal points at characters of it, but for the one that misses
something at its end.
-/

namespace LexicalPatterns

namespace Draft

/-- Whether a result is refused at certain spans only. -/
def Blames {α : Type} (P : Span → Prop) (r : Except CompileError α) : Prop :=
  ∀ e, r = .error e → P e.span

section Blames

variable {α β : Type} {P : Span → Prop} {r : Except CompileError α}
  {f : α → Except CompileError β}

theorem blames_ok (a : α) : Blames P (.ok a) := nofun

theorem blames_error {e : CompileError} (h : P e.span) : Blames (α := α) P (.error e) := by
  rintro _ ⟨⟩
  exact h

theorem Blames.bind (h : Blames P r) (hf : ∀ a, Blames P (f a)) : Blames P (r >>= f) := by
  intro e he
  rcases bind_eq_error.1 he with hr | ⟨a, -, hfa⟩
  · exact h e hr
  · exact hf a e hfa

theorem blames_checkRepeat (count : Nat) {span : Span} (h : P span) :
    Blames P (checkRepeat count span) := by
  unfold checkRepeat
  split
  · exact blames_error h
  · exact blames_ok ()

theorem blames_checkSize (copies stop : Nat) {span : Span} (h : P span) :
    Blames P (checkSize copies stop span) := by
  unfold checkSize
  split
  · exact blames_error h
  · exact blames_ok ()

variable {source : String} {ts : List Tree}

theorem blames_ofTrees (h : ∀ t ∈ ts, ∀ start, Blames P (ofTree source start t)) (start : Nat) :
    Blames P (ofTrees source start ts) := by
  induction ts generalizing start with
  | nil => exact blames_ok []
  | cons t ts ih =>
    obtain ⟨ht, hts⟩ := List.forall_mem_cons.1 h
    rw [ofTrees]
    exact (ht start).bind fun first => (ih hts _).bind fun rest => blames_ok _

theorem blames_ofBranches (h : ∀ t ∈ ts, ∀ start, Blames P (ofTree source start t))
    (start : Nat) : Blames P (ofBranches source start ts) := by
  induction ts generalizing start with
  | nil => exact blames_ok []
  | cons t ts ih =>
    obtain ⟨ht, hts⟩ := List.forall_mem_cons.1 h
    rw [ofBranches]
    exact (ht start).bind fun first => (ih hts _).bind fun rest => blames_ok _

theorem blames_ofOperand (h : ∀ t ∈ ts, ∀ start, Blames P (ofTree source start t))
    (start : Nat) : Blames P (ofOperand source start ts) := by
  cases ts with
  | nil => exact blames_ok []
  | cons t ts => exact h t List.mem_cons_self start

theorem blames_ofTree (source : String) (start : Nat) (t : Tree)
    (h : ∀ s, Tree.Subtree s t → P s.span) : Blames P (ofTree source start t) := by
  induction t using Tree.induction generalizing start with
  | node kind span children ih =>
    have hself : P span := h _ .refl
    have hchild : ∀ t ∈ children, ∀ start, Blames P (ofTree source start t) :=
      fun t ht start => ih t ht start fun s hs => h s (.child ht hs)
    have hoperand := blames_ofOperand hchild
    cases kind with
    | definition => exact blames_ofTrees hchild start
    | group => exact blames_ofTrees hchild start
    | range low high =>
      rw [ofTree]
      split
      · exact blames_error hself
      · exact blames_ok _
    | choice => exact (blames_ofBranches hchild _).bind fun branches => blames_ok _
    | exactly count =>
      apply (blames_checkRepeat count hself).bind
      intro _
      split
      · exact blames_ok _
      · exact (hoperand start).bind fun body =>
          (blames_checkSize _ _ hself).bind fun _ => blames_ok _
    | between min max =>
      rw [ofTree]
      split
      · exact blames_error hself
      · apply (blames_checkRepeat max hself).bind
        intro _
        split
        · exact blames_ok _
        · exact (hoperand _).bind fun body =>
            (blames_checkSize _ _ hself).bind fun _ => blames_ok _
    | atLeast min =>
      apply (blames_checkRepeat min hself).bind
      intro _
      exact (hoperand _).bind fun body => (blames_checkSize _ _ hself).bind fun _ => blames_ok _
    | declaration | reference | character _ | string _ | wildcard => exact blames_ok _

end Blames

end Draft

namespace Tree

variable {source : String} {tokens : List Token} {s t : Tree}

theorem Placed.of_subtree (h : t.Placed source tokens) (hs : Subtree s t) :
    s.Placed source tokens := by
  induction hs with
  | refl => exact h
  | child hmem _ ih => exact ih (h.of_mem_children _ hmem)

end Tree

namespace Batch

variable {b b' : Batch} {source : String} {f : Forest} {fs : List Forest}

theorem exists_placed_of_definitions (hfs : definitions source = .ok fs) (hf : f ∈ fs) :
    ∃ tokens u, tokenize source = .ok tokens ∧ f = .ofTrees [u] ∧ u.Placed source tokens := by
  obtain ⟨tokens, ts, htokens, hts, rfl⟩ := definitions_eq_ok_iff.1 hfs
  obtain ⟨u, hu, rfl⟩ := List.mem_map.1 hf
  have htile := tokensTile_of_tokenize htokens
  obtain ⟨hplaced, -⟩ := hts.placed ⟨htile.nonempty, htile.ordered⟩
  exact ⟨tokens, u, htokens, rfl, hplaced u hu⟩

/-- The spans of the nodes of a definition are spans of the source, and none is empty. -/
theorem fits_of_definitions (hfs : definitions source = .ok fs) (hf : f ∈ fs) {n : Node}
    (hn : n ∈ f.nodes) : n.span.start < n.span.stop ∧ n.span.Fits source := by
  obtain ⟨tokens, u, htokens, rfl, hu⟩ := exists_placed_of_definitions hfs hf
  obtain ⟨i, hi⟩ := List.getElem?_of_mem hn
  obtain ⟨_, _, _, hnode, -⟩ :=
    Forest.exists_node_placed (List.forall_mem_singleton.2 hu) hi
  exact hnode.covered.fits (tokensTile_of_tokenize htokens)

/-- A definition of a source is refused at one of its nodes. -/
theorem points_of_verdict (hfs : definitions source = .ok fs) (hf : f ∈ fs) {names : NameTable}
    {e : CompileError} (he : verdict names source f = .error e) :
    e.span.start < e.span.stop ∧ e.span.Fits source := by
  have hnode {n : Node} := fits_of_definitions (n := n) hfs hf
  obtain ⟨tokens, u, htokens, rfl, hu⟩ := exists_placed_of_definitions hfs hf
  have htile := tokensTile_of_tokenize htokens
  have hbody : Draft.Blames (fun s => s.start < s.stop ∧ s.Fits source)
      (body source (.ofTrees [u])) := by
    have hitems : Draft.Blames (fun s => s.start < s.stop ∧ s.Fits source)
        (Draft.ofTrees source 0 (Forest.ofTrees [u]).items) := by
      apply Draft.blames_ofTrees
      intro item hitem start
      apply Draft.blames_ofTree
      intro s hs
      rw [Forest.items, Forest.trees_ofTrees] at hitem
      have hplaced := (hu.of_mem_children item (List.mem_of_mem_drop hitem)).of_subtree hs
      exact hplaced.covered.fits htile
    exact hitems.bind fun _ => Draft.blames_ok _
  unfold verdict at he
  split at he
  · next root d rest name hnodes hname =>
    split at he
    · obtain rfl := Except.error.inj he
      exact hnode (by simp [hnodes])
    · rcases hr : body source (.ofTrees [u]) with e' | ds <;> rw [hr] at he
      · exact hbody e (Except.error.inj he ▸ hr)
      · cases he
  · next root rest hnodes _ =>
    obtain rfl := Except.error.inj he
    exact hnode (by simp [hnodes])
  · next hnodes =>
    obtain ⟨kind, span, children⟩ := u
    simp [Forest.ofTrees, Tree.nodesAll, Tree.nodes] at hnodes

/-- Whatever a batch refuses a source for, it points at characters of it, or at its end where more
is expected. -/
theorem WellFormed.points (h : b.WellFormed) {e : PatternError}
    (hsource : b.defineSource source = (.error e, b')) : e.Points source := by
  rcases defineSource_eq_error hsource with ⟨hread, -⟩ | ⟨fs, refusal, rfl, hfs, hall⟩
  · exact (Checked.safe_read source).refused e hread
  · obtain ⟨before, f, after, placed, b₁, rfl, hbefore, hrefused, -⟩ := h.defineAll_eq_error hall
    have hb₁ : b₁.WellFormed := by
      have hwell := h.defineAll source before
      rwa [hbefore] at hwell
    have hverdict := (hb₁.inCode.compile_eq_error (Prod.ext hrefused rfl)).1
    obtain ⟨hlt, hfits⟩ := points_of_verdict hfs (by simp) hverdict
    exact ⟨hfits, .inl hlt⟩

end Batch
end LexicalPatterns
