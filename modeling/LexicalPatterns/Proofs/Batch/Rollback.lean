import LexicalPatterns.Proofs.Batch.Session

/-!
# Refused definitions leave no trace

A batch answers one request after the other. What it refuses changes neither its code, its
references nor its names, and nothing that it is asked for later shows that it was asked for what it
has refused. Of a source that it refuses, the definitions before the first refused one stay.
-/

namespace LexicalPatterns

namespace Batch

/-- Whether two batches answer all requests alike, and are finished alike at any time. -/
def Indistinguishable (b b' : Batch) : Prop :=
  ∀ rs, (b'.respondAll rs).1 = (b.respondAll rs).1 ∧
    ∀ strict, (b'.respondAll rs).2.finish strict = (b.respondAll rs).2.finish strict

/-- Whether a batch has one more definition than another, behind all that the other one holds. -/
structure Gains (b : Batch) (p : Placed) (b' : Batch) : Prop where
  code : b.code.toList <+: b'.code.toList
  fixups : b.fixups.toList <+: b'.fixups.toList
  names : b'.names.entries.toList.Perm (⟨p.name, p.start⟩ :: b.names.entries.toList)
  lookup : ∀ name,
    b'.names.lookup name = if name = p.name then some p.start else b.names.lookup name
  unknown : b.names.lookup p.name = none
  start : p.start = b.code.size
  stop : p.stop = b'.code.size

/-- Whether a batch adds definitions as a whole or not at all. -/
structure Atomic (b : Batch) : Prop where
  refused : ∀ source f e b', b.compile source f = (.error e, b') →
    b.Alike b' ∧ b.Indistinguishable b'
  accepted : ∀ source f p b', b.compile source f = (.ok p, b') → b.Gains p b'
  unscanned : ∀ text e b', b.defineSource text = (.error (.scan e), b') → b' = b
  unparsed : ∀ text e b', b.defineSource text = (.error (.parse e), b') → b' = b
  interrupted : ∀ text e b', b.defineSource text = (.error (.compile e), b') →
    ∃ before f after placed b₁, definitions text = .ok (before ++ f :: after) ∧
      defineAll text before b = (.ok placed, b₁) ∧ (b₁.compile text f).1 = .error e ∧
      b₁.Alike b' ∧ b₁.Indistinguishable b'

/-- What holds of every batch that has answered requests. -/
structure WellFormed (b : Batch) : Prop where
  inCode : b.InCode
  ordered : b.names.Ordered

variable {b b' : Batch} {source : String}

theorem wellFormed_empty : empty.WellFormed := ⟨inCode_empty, NameTable.ordered_empty⟩

theorem Alike.wellFormed (h : b.Alike b') (hb : b.WellFormed) : b'.WellFormed :=
  ⟨h.inCode hb.inCode, h.names ▸ hb.ordered⟩

theorem WellFormed.withOrigin (h : b.WellFormed) (n : Nat) : (b.withOrigin n).WellFormed :=
  ⟨h.inCode, h.ordered⟩

theorem WellFormed.compile (h : b.WellFormed) (source : String) (f : Forest) :
    (b.compile source f).2.WellFormed := by
  rcases hcompile : b.compile source f with ⟨e | p, b'⟩
  · exact (h.inCode.compile_eq_error hcompile).2.wellFormed h
  · obtain ⟨r, names, -, hreg, -, hsame⟩ := h.inCode.compile_eq_ok hcompile
    exact hsame.wellFormed ⟨inCode_place h.inCode r names, (h.ordered.register hreg).1⟩

theorem WellFormed.defineAll (h : b.WellFormed) (source : String) (fs : List Forest) :
    (Batch.defineAll source fs b).2.WellFormed := by
  induction fs generalizing b with
  | nil => exact h
  | cons f fs ih =>
    have hwell := h.compile source f
    unfold Batch.defineAll
    rcases hcompile : b.compile source f with ⟨e | p, b'⟩ <;> rw [hcompile] at hwell
    · exact hwell
    · exact ih hwell

theorem WellFormed.respond (h : b.WellFormed) (r : Request) : (b.respond r).2.WellFormed := by
  cases r with
  | origin n => exact h.withOrigin n
  | define source f => exact h.compile source f
  | source text =>
    change (b.defineSource text).2.WellFormed
    unfold defineSource
    rcases definitions text with e | fs
    · exact h
    · exact h.defineAll text fs

theorem WellFormed.respondAll (h : b.WellFormed) (rs : List Request) :
    (b.respondAll rs).2.WellFormed := by
  induction rs generalizing b with
  | nil => exact h
  | cons r rs ih => exact ih (h.respond r)

theorem WellFormed.compile_alike (h : b.WellFormed) (hsame : b.Alike b') (source : String)
    (f : Forest) :
    (b'.compile source f).1 = (b.compile source f).1 ∧
      (b.compile source f).2.Alike (b'.compile source f).2 :=
  h.inCode.compiled.alike (hsame.inCode h.inCode).compiled hsame

theorem WellFormed.defineAll_alike (h : b.WellFormed) (hsame : b.Alike b') (source : String)
    (fs : List Forest) :
    (Batch.defineAll source fs b').1 = (Batch.defineAll source fs b).1 ∧
      (Batch.defineAll source fs b).2.Alike (Batch.defineAll source fs b').2 := by
  induction fs generalizing b b' with
  | nil => exact ⟨rfl, hsame⟩
  | cons f fs ih =>
    have hwell := h.compile source f
    obtain ⟨houtcome, hnext⟩ := h.compile_alike hsame source f
    unfold Batch.defineAll
    rcases hcompile : b.compile source f with ⟨e | p, b₁⟩ <;>
      rcases hcompile' : b'.compile source f with ⟨e' | p', b₁'⟩ <;>
      simp only [hcompile, hcompile'] at houtcome hnext hwell
    · exact ⟨houtcome ▸ rfl, hnext⟩
    · cases houtcome
    · cases houtcome
    · obtain ⟨hrest, hlast⟩ := ih hwell hnext
      obtain rfl := Except.ok.inj houtcome
      exact ⟨by simp only [hrest], hlast⟩

/-- Batches that hold the same answer alike, and then hold the same. -/
theorem WellFormed.respond_alike (h : b.WellFormed) (hsame : b.Alike b') (r : Request) :
    (b'.respond r).1 = (b.respond r).1 ∧ (b.respond r).2.Alike (b'.respond r).2 := by
  cases r with
  | origin n => exact ⟨rfl, hsame.withOrigin n⟩
  | define source f =>
    obtain ⟨houtcome, hnext⟩ := h.compile_alike hsame source f
    exact ⟨congrArg Response.define houtcome, hnext⟩
  | source text =>
    have hsource : (b'.defineSource text).1 = (b.defineSource text).1 ∧
        (b.defineSource text).2.Alike (b'.defineSource text).2 := by
      unfold defineSource
      rcases definitions text with e | fs
      · exact ⟨rfl, hsame⟩
      · obtain ⟨houtcome, hnext⟩ := h.defineAll_alike hsame text fs
        exact ⟨congrArg (Except.mapError PatternError.compile) houtcome, hnext⟩
    exact ⟨congrArg Response.source hsource.1, hsource.2⟩

theorem WellFormed.indistinguishable (h : b.WellFormed) (hsame : b.Alike b') :
    b.Indistinguishable b' := by
  intro rs
  induction rs generalizing b b' with
  | nil => exact ⟨rfl, hsame.finish_eq⟩
  | cons r rs ih =>
    obtain ⟨hresponse, hnext⟩ := h.respond_alike hsame r
    obtain ⟨hresponses, hfinish⟩ := ih (h.respond r) hnext
    exact ⟨congrArg₂ List.cons hresponse hresponses, hfinish⟩

/-- An accepted definition is added behind all that the batch holds. -/
theorem WellFormed.gains (h : b.WellFormed) {f : Forest} {p : Placed}
    (hcompile : b.compile source f = (.ok p, b')) : b.Gains p b' := by
  obtain ⟨r, names, hverdict, hreg, rfl, hsame⟩ := h.inCode.compile_eq_ok hcompile
  have hunknown := (verdict_eq_ok.1 hverdict).2.1
  obtain ⟨hordered, hperm⟩ := h.ordered.register hreg
  have hnames : b'.names = names := hsame.names
  refine ⟨?code, ?fixups, hnames ▸ hperm, ?lookup, hunknown, rfl, ?stop⟩
  case code =>
    rw [hsame.code]
    simp [Batch.code, place, CodeBuffer.append]
  case fixups =>
    rw [hsame.fixups]
    simp [place]
  case lookup =>
    intro name
    ext start
    rw [hnames, hordered.lookup_eq_some_iff, hperm.mem_iff, List.mem_cons, Entry.mk.injEq,
      ← h.ordered.lookup_eq_some_iff]
    by_cases hname : name = r.name
    · simp [hname, hunknown, eq_comm]
    · simp [hname]
  case stop =>
    rw [hsame.code]
    simp [Batch.code, place, CodeBuffer.append, CodeBuffer.size]

/-- Where definitions are refused, the first refused one has ones before it that are accepted. -/
theorem WellFormed.defineAll_eq_error (h : b.WellFormed) {fs : List Forest} {e : CompileError}
    (hfs : Batch.defineAll source fs b = (.error e, b')) :
    ∃ before f after placed b₁, fs = before ++ f :: after ∧
      Batch.defineAll source before b = (.ok placed, b₁) ∧ (b₁.compile source f).1 = .error e ∧
      b₁.Alike b' ∧ b₁.Indistinguishable b' := by
  induction fs generalizing b with
  | nil => cases hfs
  | cons f fs ih =>
    have hwell := h.compile source f
    unfold Batch.defineAll at hfs
    rcases hcompile : b.compile source f with ⟨e' | p, b₁⟩
    · rw [hcompile] at hfs
      obtain ⟨rfl, rfl⟩ : e' = e ∧ b₁ = b' := by simpa using hfs
      have hsame := (h.inCode.compile_eq_error hcompile).2
      exact ⟨[], f, fs, [], b, rfl, rfl, by rw [hcompile], hsame, h.indistinguishable hsame⟩
    · rw [hcompile] at hfs hwell
      rcases hrest : Batch.defineAll source fs b₁ with ⟨e' | others, b₂⟩
      · obtain ⟨rfl, rfl⟩ : e' = e ∧ b₂ = b' := by simpa [hrest, Except.map] using hfs
        obtain ⟨before, f', after, placed, b₃, rfl, hbefore, hlast⟩ := ih hwell hrest
        refine ⟨f :: before, f', after, p :: placed, b₃, rfl, ?_, hlast⟩
        simp [Batch.defineAll, hcompile, hbefore, Except.map]
      · simp [hrest, Except.map] at hfs

/-- A source is refused when it is read, or when one of its definitions is. -/
theorem defineSource_eq_error {text : String} {e : PatternError}
    (hsource : b.defineSource text = (.error e, b')) :
    (definitions text = .error e ∧ b' = b) ∨ ∃ fs refusal, e = .compile refusal ∧
      definitions text = .ok fs ∧ Batch.defineAll text fs b = (.error refusal, b') := by
  unfold defineSource at hsource
  rcases hfs : definitions text with e' | fs
  · left
    simpa [hfs, eq_comm] using hsource
  · right
    rcases hall : Batch.defineAll text fs b with ⟨refusal | placed, b₁⟩
    · obtain ⟨rfl, rfl⟩ : .compile refusal = e ∧ b₁ = b' := by
        simpa [hfs, hall, Except.mapError] using hsource
      exact ⟨fs, refusal, rfl, rfl, hall⟩
    · simp [hfs, hall, Except.mapError] at hsource

theorem definitions_ne_compile (text : String) (e : CompileError) :
    definitions text ≠ .error (.compile e) := by
  unfold definitions
  rcases tokenize text with e' | tokens
  · simp [Except.mapError, bind, Except.bind]
  · rcases hforest : Forest.ofTokens? text tokens with failure | forest <;>
      simp [Except.mapError, bind, Except.bind, hforest, pure, Except.pure]

/-- Whatever a batch has been asked for, it adds definitions as a whole or not at all, and a refused
one is never noticed again. -/
theorem atomic_after (rs : List Request) : (empty.respondAll rs).2.Atomic := by
  have h : (empty.respondAll rs).2.WellFormed := wellFormed_empty.respondAll rs
  generalize (empty.respondAll rs).2 = b at h
  refine ⟨?refused, fun source f p b' => h.gains, ?unscanned, ?unparsed, ?interrupted⟩
  case refused =>
    intro source f e b' hcompile
    have hsame := (h.inCode.compile_eq_error hcompile).2
    exact ⟨hsame, h.indistinguishable hsame⟩
  case unscanned =>
    intro text e b' hsource
    rcases defineSource_eq_error hsource with ⟨-, hb⟩ | ⟨fs, refusal, he, -⟩
    · exact hb
    · cases he
  case unparsed =>
    intro text e b' hsource
    rcases defineSource_eq_error hsource with ⟨-, hb⟩ | ⟨fs, refusal, he, -⟩
    · exact hb
    · cases he
  case interrupted =>
    intro text e b' hsource
    rcases defineSource_eq_error hsource with ⟨hfs, -⟩ | ⟨fs, refusal, he, hfs, hall⟩
    · exact absurd hfs (definitions_ne_compile text e)
    · obtain rfl := PatternError.compile.inj he
      obtain ⟨before, f, after, placed, b₁, rfl, hbefore⟩ := h.defineAll_eq_error hall
      exact ⟨before, f, after, placed, b₁, hfs, hbefore⟩

/-- The copies and references of the second definition are cut off when its range is refused. -/
example : let b := (empty.respondAll [.source "x=y'a' z=x{2}['b'|'b'..'a']"]).2
    (b.code.size, b.fixups, b.names.names) = (3, #[⟨0, "y", ⟨2, 3⟩, 0⟩], ["x"]) := by cbv

end Batch
end LexicalPatterns
