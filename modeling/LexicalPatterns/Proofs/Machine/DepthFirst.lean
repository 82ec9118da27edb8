import LexicalPatterns.Proofs.Machine.Duplicates

/-!
# Runs and depth-first matching

Whenever a run ends without an error, depth-first matching gives the same result, with references
run in the same way at every level of nesting. So the order of preference in which a run matches is
the order in which backtracking tries the alternatives.
-/

namespace LexicalPatterns.Machine

variable {m : Machine}

section Nested

variable {nested nested' : Nat → List UInt8 → MatchResult}

theorem step_refines (h : ∀ start input, (nested start input).Refines (nested' start input))
    {t : Thread} {s : Step} (hs : m.step nested t = .ok s) : m.step nested' t = .ok s := by
  unfold step at hs ⊢
  cases code : m.code[t.index]? with
  | none => simpa [code] using hs
  | some i =>
    obtain ⟨action, movement⟩ := i
    cases action with
    | reference target =>
      cases target with
      | none => simpa [code] using hs
      | some target =>
        rcases hv : nested target t.rest with e | r
        · simp [code, hv, bind, Except.bind] at hs
        · simpa [code, hv, h target t.rest r hv] using hs
    | _ => simpa only [code] using hs

theorem step_error {t : Thread} {e : MatchError} (h : m.step nested t = .error e) :
    ∃ start input, nested start input = .error e := by
  rcases m.step_cases nested t with ⟨e', hs, hd⟩ | ⟨hs, -⟩ | ⟨ts, hs, -⟩
  · obtain rfl : e' = e := by simpa [hs] using h
    cases hd with
    | refused _ error => exact ⟨_, _, error⟩
  · simp [hs] at h
  · simp [hs] at h

theorem backtrack_refines (hn : Prefixes nested) (hn' : Prefixes nested')
    (h : ∀ start input, (nested start input).Refines (nested' start input)) (t : Thread) :
    (m.backtrack nested t).Refines (m.backtrack nested' t) := by
  apply backtrack_induction (P := fun t v => v.Refines (m.backtrack nested' t)) hn
  case stalled =>
    intro t hlt
    rw [backtrack_of_stalled hlt]
    exact .refl _
  case error =>
    intro t e hle hs
    exact MatchResult.refines_error _ _
  case matched =>
    intro t hle hs
    rw [backtrack_eq_step hn' hle, step_refines h hs]
    exact .refl _
  case threads =>
    intro t ts hle hs ih
    rw [backtrack_eq_step hn' hle, step_refines h hs]
    apply MatchResult.Refines.first
    intro u hu
    obtain ⟨j, taken, hm, rfl⟩ := (mem_of_step hs).1 hu
    exact ih j taken hm

theorem backtrack_le (hn : Prefixes nested) (t : Thread) :
    ∀ consumed, m.backtrack nested t = .ok (some consumed) →
      consumed ≤ t.consumed + t.rest.length := by
  apply backtrack_induction
    (P := fun t v => ∀ consumed, v = .ok (some consumed) →
      consumed ≤ t.consumed + t.rest.length) hn
  case stalled =>
    intro t hlt consumed h
    simp at h
  case error =>
    intro t e hle hs consumed h
    cases h
  case matched =>
    intro t hle hs consumed h
    obtain rfl : t.consumed = consumed := by simpa using h
    exact Nat.le_add_right _ _
  case threads =>
    intro t ts hle hs ih consumed h
    obtain ⟨j, taken, hm, hfound⟩ := exists_of_first hs h (by simp)
    have htaken := hm.taken_le hn
    have := ih j taken hm consumed hfound
    simp only [Thread.goTo, List.length_drop] at this
    omega

theorem backtrack_error (hn : Prefixes nested) {e : MatchError} (t : Thread) :
    m.backtrack nested t = .error e → ∃ start input, nested start input = .error e := by
  apply backtrack_induction
    (P := fun _ v => v = .error e → ∃ start input, nested start input = .error e) hn
  case stalled =>
    intro t hlt h
    cases h
  case error =>
    intro t e' hle hs h
    obtain rfl : e' = e := by simpa using h
    exact step_error hs
  case matched =>
    intro t hle hs h
    cases h
  case threads =>
    intro t ts hle hs ih h
    obtain ⟨j, taken, hm, hfound⟩ := exists_of_first hs h (by simp)
    exact ih j taken hm hfound

theorem generation_error {ts : List Thread} {q : Queue} {e : MatchError}
    (h : m.generation nested ts q = .error e) : ∃ start input, nested start input = .error e := by
  induction ts generalizing q with
  | nil => simp [generation] at h
  | cons t ts ih =>
    rcases hs : m.step nested t with e' | _ | next
    · obtain rfl : e' = e := by simpa [generation, hs, bind, Except.bind] using h
      exact step_error hs
    · simp [generation, hs, bind, Except.bind, pure, Except.pure] at h
    · exact ih (by simpa [generation, hs, bind, Except.bind] using h)

theorem generations_error {fuel : Nat} {ts : List Thread} {found : Option Nat} {e : MatchError}
    (h : m.generations nested fuel ts found = .error e) :
    ∃ start input, nested start input = .error e := by
  induction fuel generalizing ts found with
  | zero => simp [generations] at h
  | succ fuel ih =>
    unfold generations at h
    split at h
    · cases h
    · rcases hg : m.generation nested ts .empty with e' | ⟨matched, q⟩
      · obtain rfl : e' = e := by simpa [hg, bind, Except.bind] using h
        exact generation_error hg
      · exact ih (by simpa [hg, bind, Except.bind] using h)

end Nested

theorem prefixes_backtrackAt (m : Machine) (levels : Nat) : Prefixes (m.backtrackAt levels) := by
  induction levels with
  | zero =>
    intro start input taken h
    cases h
  | succ levels ih =>
    intro start input taken h
    simpa [Thread.start] using backtrack_le ih _ taken h

/-- More levels of nesting only remove errors. -/
theorem backtrackAt_refines {m : Machine} {levels levels' : Nat} (h : levels ≤ levels')
    (start : Nat) (input : List UInt8) :
    (m.backtrackAt levels start input).Refines (m.backtrackAt levels' start input) := by
  induction levels generalizing levels' start input with
  | zero => exact MatchResult.refines_error _ _
  | succ levels ih =>
    obtain ⟨levels', rfl⟩ : ∃ l, levels' = l + 1 := ⟨levels' - 1, by omega⟩
    exact backtrack_refines (m.prefixes_backtrackAt levels) (m.prefixes_backtrackAt levels')
      (ih (Nat.le_of_succ_le_succ h)) _

/-- A run from a place at the start of the input finds what a search from there finds. -/
theorem runAt_refines_backtrack {levels : Nat} (hn : Prefixes (m.runAt levels)) (start : Nat)
    (input : List UInt8) :
    MatchResult.Refines (m.runAt (levels + 1) start input)
      (m.backtrack (m.runAt levels) (.start start input)) := by
  intro r h
  have hfound := generations_firstOf hn (m.maxGenerations input)
    (by simpa using Thread.on_start start input) (guarded_singleton _)
    (by simp [Thread.start]) ?_ h
  · simpa [firstOf] using hfound
  · simpa using m.potential_start_le start input

theorem runAt_refines (m : Machine) (levels : Nat) :
    ∀ start input, MatchResult.Refines (m.runAt levels start input)
      (m.backtrackAt levels start input) := by
  induction levels with
  | zero => exact fun start input => MatchResult.Refines.refl _
  | succ levels ih =>
    intro start input r h
    have hn : Prefixes (m.runAt levels) := fun start input taken h =>
      m.prefixes_backtrackAt levels (ih start input _ h)
    exact backtrack_refines hn (m.prefixes_backtrackAt levels) ih _ r
      (runAt_refines_backtrack hn start input r h)

theorem prefixes_runAt (m : Machine) (levels : Nat) : Prefixes (m.runAt levels) :=
  fun start input _ h => m.prefixes_backtrackAt levels (m.runAt_refines levels start input _ h)

theorem runAt_error {levels start : Nat} {input : List UInt8} {e : MatchError}
    (h : m.runAt levels start input = .error e) : e = .recursionLimit m.recursionLimit := by
  induction levels generalizing start input with
  | zero => simpa [runAt, eq_comm] using h
  | succ levels ih =>
    obtain ⟨start', input', h'⟩ := generations_error h
    exact ih h'

theorem backtrackAt_error {levels start : Nat} {input : List UInt8} {e : MatchError}
    (h : m.backtrackAt levels start input = .error e) : e = .recursionLimit m.recursionLimit := by
  induction levels generalizing start input with
  | zero => simpa [backtrackAt, eq_comm] using h
  | succ levels ih =>
    obtain ⟨start', input', h'⟩ := backtrack_error (m.prefixes_backtrackAt levels) _ h
    exact ih h'

/-- A run gives what depth-first matching gives, and where depth-first matching exceeds the limit
for the nesting of references, the run does too. -/
theorem run_eq_backtrackRun (m : Machine) (start : Nat) (input : List UInt8) :
    (∀ r, m.run start input = .ok r → m.backtrackRun start input = .ok r) ∧
      ∀ e, m.backtrackRun start input = .error e → m.run start input = .error e := by
  have hrefines := m.runAt_refines (m.recursionLimit + 1) start input
  refine ⟨hrefines, fun e he => ?_⟩
  rcases hrun : m.run start input with e' | r
  · rw [runAt_error hrun, backtrackAt_error he]
  · have hok := hrefines r hrun
    unfold backtrackRun at he
    simp [hok] at he

/-- A way back to the start without a byte is preferred to the end. -/
def cycle : Machine := ⟨#[.next (.branch 2), .jump (-1), .next .terminal], 0⟩

theorem run_cycle : cycle.run 0 [] = .ok (some 0) := by
  simp [cycle, run, runAt, maxGenerations, generations, generation, step, Thread.start,
    Thread.fork, Thread.advance, Thread.moved, Queue.schedule, Queue.empty, Instruction.next,
    Instruction.jump, List.range', bind, Except.bind, pure, Except.pure]

def endless : Machine := ⟨#[.next (.reference (some 0)), .next .terminal], 0⟩

theorem backtrackRun_endless : endless.backtrackRun 0 [] = .error (.recursionLimit 0) := by
  unfold backtrackRun endless
  rw [backtrackAt, backtrack]
  rfl

theorem run_eq_backtrackRun_cycle :
    (cycle.run 0 [] = .ok (some 0) ∧ cycle.backtrackRun 0 [] = .ok (some 0)) ∧
      endless.backtrackRun 0 [] = .error (.recursionLimit 0) ∧
      endless.run 0 [] = .error (.recursionLimit 0) :=
  ⟨⟨run_cycle, (run_eq_backtrackRun cycle 0 []).1 _ run_cycle⟩,
    backtrackRun_endless, (run_eq_backtrackRun endless 0 []).2 _ backtrackRun_endless⟩

end LexicalPatterns.Machine
