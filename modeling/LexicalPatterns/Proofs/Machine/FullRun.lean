import LexicalPatterns.Proofs.Machine.DepthFirst

/-!
# Runs without dropped threads

A run that drops no thread for another, at any level of nesting, may keep many threads at one place.
It ends all the same, and gives what a run gives that keeps one thread at each place: the same
match, no match, or the same error.
-/

namespace LexicalPatterns.Machine

variable {m : Machine}

/-- Whether a run from an index that drops no thread for another comes to a result, with so many
levels of nesting left. `nested` is what the references come to. -/
def FullRunAt (m : Machine) : (levels start : Nat) → (input : List UInt8) → MatchResult → Prop
  | 0, _, _, r => r = .error (.recursionLimit m.recursionLimit)
  | levels + 1, start, input, r =>
    ∃ nested : Nat → List UInt8 → MatchResult,
      (∀ target rest, FullRunAt m levels target rest (nested target rest)) ∧
        m.FullLoop nested [.start start input] none r

/-- Whether a run that drops no thread for another comes to a result. -/
def FullRun (m : Machine) (start : Nat) (input : List UInt8) (r : MatchResult) : Prop :=
  m.FullRunAt (m.recursionLimit + 1) start input r

theorem fullLoop_iff_runAt (levels start : Nat) (input : List UInt8) (r : MatchResult) :
    m.FullLoop (m.runAt levels) [.start start input] none r ↔
      m.runAt (levels + 1) start input = r := by
  have hn := m.prefixes_runAt levels
  have hstalled : ∀ t ∈ [Thread.start start input], t.stalled ≤ m.code.size := by
    simp [Thread.start]
  have hfuel : ∀ t ∈ [Thread.start start input], m.potential t ≤ m.maxGenerations input := by
    simpa using m.potential_start_le start input
  have hrun {r : MatchResult} (h : m.FullLoop (m.runAt levels) [.start start input] none r) :
      m.runAt (levels + 1) start input = r :=
    h.generations_eq hn (thins_refl _ _) (guarded_singleton _) hstalled
      (by simpa using Thread.on_start start input) hfuel
  constructor
  · exact hrun
  · rintro rfl
    obtain ⟨r, h⟩ := exists_fullLoop hn (m.maxGenerations input) hstalled hfuel none
    rwa [hrun h]

theorem fullRunAt_iff {levels : Nat} {start : Nat} {input : List UInt8} {r : MatchResult} :
    m.FullRunAt levels start input r ↔ m.runAt levels start input = r := by
  induction levels generalizing start input r with
  | zero => exact eq_comm
  | succ levels ih =>
    rw [FullRunAt, ← fullLoop_iff_runAt]
    constructor
    · rintro ⟨nested, hnested, hloop⟩
      obtain rfl : m.runAt levels = nested :=
        funext fun target => funext fun rest => ih.1 (hnested target rest)
      exact hloop
    · intro hloop
      exact ⟨m.runAt levels, fun target rest => ih.2 rfl, hloop⟩

/-- Dropping threads is invisible: a run ends with a result, be it an error, if and only if it ends
with that result when no thread is dropped for another. -/
theorem fullRun_iff_run (m : Machine) (start : Nat) (input : List UInt8) (r : MatchResult) :
    m.FullRun start input r ↔ m.run start input = r :=
  fullRunAt_iff

end LexicalPatterns.Machine
