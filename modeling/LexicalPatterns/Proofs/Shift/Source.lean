import LexicalPatterns.Proofs.Batch.Rollback
import LexicalPatterns.Proofs.Shift.Batch
import LexicalPatterns.Proofs.Shift.Tokens
import LexicalPatterns.Proofs.Syntax.Grammar

/-!
# One source or two

A source may be cut at a line feed between two definitions. What a batch makes of its parts, one
after the other, is what it makes of the whole, apart from the spans of the second part, which are
told from where that part starts.
-/

namespace LexicalPatterns

section Texts

variable {first second : String} {ts us : List Token}

theorem sameTexts_first (h : tokenize first = .ok ts) :
    SameTexts 0 first (first ++ "\n" ++ second) ts := by
  intro t ht
  have htext := Token.text_shift h ht "" ("\n" ++ second)
  rw [String.empty_append, ← String.append_assoc] at htext
  exact htext

theorem sameTexts_second (h : tokenize second = .ok us) :
    SameTexts (first.utf8ByteSize + 1) second (first ++ "\n" ++ second) us := by
  intro t ht
  have htext := Token.text_shift h ht (first ++ "\n") ""
  rw [String.append_empty, String.utf8ByteSize_append] at htext
  exact htext

end Texts

namespace Batch

variable {b b' : Batch} {first second : String}

/-- What is read of two sources with a line feed between them. -/
theorem definitions_append {fs gs : List Forest} (hfirst : definitions first = .ok fs)
    (hsecond : definitions second = .ok gs) :
    ∃ ts us : List Tree, fs = ts.map (fun t => .ofTrees [t]) ∧
      gs = us.map (fun t => .ofTrees [t]) ∧
      (∀ t ∈ ts, t.Names (SameText 0 first (first ++ "\n" ++ second))) ∧
      (∀ t ∈ us, t.Names
        (SameText (first.utf8ByteSize + 1) second (first ++ "\n" ++ second))) ∧
      definitions (first ++ "\n" ++ second) =
        .ok (fs ++ us.map fun t => .ofTrees [t.shift (first.utf8ByteSize + 1)]) := by
  obtain ⟨tokens, ts, htokens, hts, rfl⟩ := definitions_eq_ok_iff.1 hfirst
  obtain ⟨tokens', us, htokens', hus, rfl⟩ := definitions_eq_ok_iff.1 hsecond
  have hfirst' : SameTexts 0 first (first ++ "\n" ++ second) tokens := sameTexts_first htokens
  have hsecond' : SameTexts _ second (first ++ "\n" ++ second) tokens' := sameTexts_second htokens'
  refine ⟨ts, us, rfl, rfl, hts.names hfirst', hus.names hsecond', ?_⟩
  have hall := hts.shift_append hfirst' (hus.shift_append hsecond' .nil)
  rw [Token.shift_zero, Tree.shift_zero, List.map_id, List.map_id, List.append_nil,
    List.append_nil] at hall
  refine definitions_eq_ok_iff.2 ⟨_, _, tokenize_append htokens htokens', hall, ?_⟩
  rw [List.map_append, List.map_map]
  rfl

theorem defineAll_append (source : String) (fs gs : List Forest) (b : Batch) :
    defineAll source (fs ++ gs) b =
      match defineAll source fs b with
      | (.error e, b₁) => (.error e, b₁)
      | (.ok placed, b₁) =>
        ((defineAll source gs b₁).1.map (placed ++ ·), (defineAll source gs b₁).2) := by
  induction fs generalizing b with
  | nil =>
    simp only [List.nil_append, defineAll]
    rcases defineAll source gs b with ⟨e | placed, b₁⟩ <;> rfl
  | cons f fs ih =>
    simp only [List.cons_append, defineAll]
    rcases b.compile source f with ⟨e | p, b₁⟩
    · rfl
    · simp only [ih]
      rcases defineAll source fs b₁ with ⟨e | placed, b₂⟩
      · rfl
      · simp only [Except.map]
        rcases (defineAll source gs b₂).1 <;> rfl

theorem InCode.shiftFrom_eq (h : b.InCode) (k : Nat) : b.shiftFrom b.buffer.size k = b := by
  have hfixups : b.fixups.map (Fixup.shiftFrom b.buffer.size k) = b.fixups.map id :=
    Array.map_congr_left fun f hf => if_neg (Nat.not_le.2 (h f hf))
  rw [Array.map_id] at hfixups
  rw [shiftFrom, hfixups]

theorem shiftFrom_zero (start : Nat) (b : Batch) : b.shiftFrom start 0 = b := by
  have hfixup : Fixup.shiftFrom start 0 = id := by
    funext f
    unfold Fixup.shiftFrom
    split <;> rfl
  rw [shiftFrom, hfixup, Array.map_id]

theorem defineAll_of_sameText {source source' : String} {ts : List Tree}
    (h : ∀ t ∈ ts, t.Names (SameText 0 source source')) (b : Batch) :
    defineAll source' (ts.map fun t => .ofTrees [t]) b =
      defineAll source (ts.map fun t => .ofTrees [t]) b := by
  have hshift := defineAll_shift (Nat.le_refl b.buffer.size) h
  rw [shiftFrom_zero, shiftFrom_zero, Tree.shift_zero, CompileError.shift_zero] at hshift
  refine hshift.trans ?_
  rcases defineAll source (ts.map fun t => .ofTrees [t]) b with ⟨e | placed, b'⟩ <;> rfl

/-- Whether the references that a batch has more than another stand behind the code of the other. -/
structure Behind (b b' : Batch) : Prop where
  size : b.buffer.size ≤ b'.buffer.size
  fixups : ∃ more, b'.fixups = b.fixups ++ more ∧ ∀ f ∈ more, b.buffer.size ≤ f.index

theorem Behind.refl (b : Batch) : b.Behind b :=
  ⟨Nat.le_refl _, #[], Array.append_empty.symm, fun f hf => absurd hf (Array.not_mem_empty f)⟩

theorem Behind.trans {b'' : Batch} (h : b.Behind b') (h' : b'.Behind b'') : b.Behind b'' := by
  obtain ⟨more, hmore, hindex⟩ := h.fixups
  obtain ⟨more', hmore', hindex'⟩ := h'.fixups
  refine ⟨Nat.le_trans h.size h'.size, more ++ more', ?_, fun f hf => ?_⟩
  · rw [hmore', hmore, Array.append_assoc]
  · rcases Array.mem_append.1 hf with hf | hf
    · exact hindex f hf
    · exact Nat.le_trans h.size (hindex' f hf)

theorem Alike.behind (h : b.Alike b') : b.Behind b' :=
  ⟨Nat.le_of_eq h.size_buffer.symm, h.fixups ▸ (Behind.refl b).fixups⟩

theorem behind_place (b : Batch) (r : Rule) (names : NameTable) : b.Behind (b.place r names) := by
  refine ⟨?_, _, rfl, fun f hf => ?_⟩
  · simp [place]
  · exact (Draft.index_mem_fixups (List.mem_toArray.1 hf)).1

theorem InCode.behind_compile (h : b.InCode) (source : String) (f : Forest) :
    b.Behind (b.compile source f).2 := by
  rcases hcompile : b.compile source f with ⟨e | p, b'⟩
  · exact (h.compile_eq_error hcompile).2.behind
  · obtain ⟨r, names, -, -, -, hsame⟩ := h.compile_eq_ok hcompile
    exact (b.behind_place r names).trans hsame.behind

theorem WellFormed.behind_defineAll (h : b.WellFormed) (source : String) (fs : List Forest) :
    b.Behind (Batch.defineAll source fs b).2 := by
  induction fs generalizing b with
  | nil => exact .refl b
  | cons f fs ih =>
    have hwell := h.compile source f
    have hbehind := h.inCode.behind_compile source f
    unfold Batch.defineAll
    rcases hcompile : b.compile source f with ⟨e | p, b'⟩ <;> rw [hcompile] at hwell hbehind
    · exact hbehind
    · exact hbehind.trans (ih hwell)

/-- The batch with the references from position `count` on shifted. -/
def shiftFixups (b : Batch) (count k : Nat) : Batch :=
  { b with fixups := b.fixups.take count ++ (b.fixups.drop count).map (Fixup.shift k) }

theorem Behind.shiftFrom_eq (h : b.Behind b') (hb : b.InCode) (k : Nat) :
    b'.shiftFrom b.buffer.size k = b'.shiftFixups b.fixups.size k := by
  obtain ⟨more, hmore, hindex⟩ := h.fixups
  have hold : b.fixups.map (Fixup.shiftFrom b.buffer.size k) = b.fixups :=
    congrArg Batch.fixups (hb.shiftFrom_eq k)
  have hnew : more.map (Fixup.shiftFrom b.buffer.size k) = more.map (Fixup.shift k) :=
    Array.map_congr_left fun f hf => if_pos (hindex f hf)
  have hfixups : b'.fixups.map (Fixup.shiftFrom b.buffer.size k) =
      b'.fixups.take b.fixups.size ++ (b'.fixups.drop b.fixups.size).map (Fixup.shift k) := by
    rw [hmore, Array.map_append, hold, hnew]
    apply Array.toList_inj.1
    simp
  rw [shiftFrom, hfixups, shiftFixups]

/-- What a batch makes of two sources, one after the other, with the spans of the second shifted to
where it stands behind the first and a line feed. -/
def defineBoth (b : Batch) (first second : String) : Except PatternError (List Placed) × Batch :=
  let k := first.utf8ByteSize + 1
  match b.defineSource first with
  | (.error e, b₁) => (.error e, b₁)
  | (.ok placed, b₁) =>
    let (outcome, b₂) := b₁.defineSource second
    ((outcome.map (placed ++ ·)).mapError (PatternError.shift k), b₂.shiftFixups b₁.fixups.size k)

theorem WellFormed.defineSource_append (h : b.WellFormed) {fs gs : List Forest}
    (hfirst : definitions first = .ok fs) (hsecond : definitions second = .ok gs) :
    b.defineSource (first ++ "\n" ++ second) = b.defineBoth first second := by
  obtain ⟨ts, us, rfl, rfl, hts, hus, hwhole⟩ := definitions_append hfirst hsecond
  have hsame := defineAll_of_sameText hts b
  have hwell := h.defineAll first (ts.map fun t => .ofTrees [t])
  unfold defineBoth defineSource
  simp only [hfirst, hsecond, hwhole, defineAll_append, hsame]
  rcases hdefined : Batch.defineAll first (ts.map fun t => .ofTrees [t]) b with ⟨e | placed, b₁⟩
  · rfl
  · rw [hdefined] at hwell
    have hshift := defineAll_shift (Nat.le_refl b₁.buffer.size) hus
    have hbehind := hwell.behind_defineAll second (us.map fun t => .ofTrees [t])
    rw [hwell.inCode.shiftFrom_eq, hbehind.shiftFrom_eq hwell.inCode] at hshift
    simp only [hshift, Except.mapError]
    rcases Batch.defineAll second (us.map fun t => .ofTrees [t]) b₁ with ⟨e | placed', b₂⟩ <;> rfl

/-- Whatever a batch has been asked for, a source may be cut between two definitions. -/
theorem defineSource_newline (rs : List Request) {first second : String}
    (hfirst : (definitions first).isOk) (hsecond : (definitions second).isOk) :
    (empty.respondAll rs).2.defineSource (first ++ "\n" ++ second) =
      (empty.respondAll rs).2.defineBoth first second := by
  have hwell : (empty.respondAll rs).2.WellFormed := wellFormed_empty.respondAll rs
  cases hfs : definitions first with
  | error e => simp [hfs, Except.isOk, Except.toBool] at hfirst
  | ok fs =>
    cases hgs : definitions second with
    | error e => simp [hgs, Except.isOk, Except.toBool] at hsecond
    | ok gs => exact hwell.defineSource_append hfs hgs

/-- The second part is refused where it defines the name of the first again. -/
theorem defineSource_newline_duplicate :
    (definitions "x=y'a'").isOk ∧ (definitions "y=x x='c'").isOk ∧
      (empty.respondAll [.source "q=x"]).2.defineSource ("x=y'a'" ++ "\n" ++ "y=x x='c'") =
        (empty.respondAll [.source "q=x"]).2.defineBoth "x=y'a'" "y=x x='c'" ∧
      ((empty.respondAll [.source "q=x"]).2.defineBoth "x=y'a'" "y=x x='c'").1 =
        .error (.compile (.duplicatePattern "x" ⟨11, 12⟩)) := by
  have hfirst : (definitions "x=y'a'").isOk := by cbv
  have hsecond : (definitions "y=x x='c'").isOk := by cbv
  exact ⟨hfirst, hsecond, defineSource_newline [.source "q=x"] hfirst hsecond, by cbv⟩

end Batch
end LexicalPatterns
