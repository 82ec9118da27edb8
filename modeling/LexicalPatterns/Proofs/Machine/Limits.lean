import LexicalPatterns.Proofs.Machine.Termination

/-!
# The limit for the nesting of references

A larger limit lets references nest deeper and changes nothing else: a run that ends within a limit
makes the same generations with any larger one. So raising the limit only removes errors. An error
names the limit of the whole run, however deep the reference stands that exceeded it.
-/

namespace LexicalPatterns.Machine

section Refines

variable {m m' : Machine} {nested nested' : Nat → List UInt8 → MatchResult}

theorem step_of_code_eq (hcode : m.code = m'.code) (t : Thread) :
    m'.step nested t = m.step nested t := by
  unfold step
  rw [hcode]

theorem generation_refines (hcode : m.code = m'.code)
    (h : ∀ start input, (nested start input).Refines (nested' start input)) {ts : List Thread}
    {q : Queue} {r : Option Nat × Queue} (hr : m.generation nested ts q = .ok r) :
    m'.generation nested' ts q = .ok r := by
  induction ts generalizing q with
  | nil => exact hr
  | cons t ts ih =>
    rcases hs : m.step nested t with e | s
    · simp [generation, hs, bind, Except.bind] at hr
    · have hs' : m'.step nested' t = .ok s := by
        rw [step_of_code_eq hcode]
        exact step_refines h hs
      cases s with
      | matched => simpa [generation, hs, hs', bind, Except.bind] using hr
      | threads next =>
        have hrest :
            m.generation nested ts (next.foldl (Queue.schedule m.code.size) q) = .ok r := by
          simpa [generation, hs, bind, Except.bind] using hr
        simpa [generation, hs', bind, Except.bind, ← hcode] using ih hrest

theorem generations_refines (hcode : m.code = m'.code)
    (h : ∀ start input, (nested start input).Refines (nested' start input)) (fuel : Nat)
    (ts : List Thread) (found : Option Nat) :
    MatchResult.Refines (m.generations nested fuel ts found)
      (m'.generations nested' fuel ts found) := by
  intro r hr
  induction fuel generalizing ts found with
  | zero => exact hr
  | succ fuel ih =>
    by_cases hts : ts.isEmpty
    · rw [generations, if_pos hts] at hr ⊢
      exact hr
    · rw [generations, if_neg hts] at hr ⊢
      rcases hg : m.generation nested ts .empty with e | ⟨matched, q⟩
      · simp [hg, bind, Except.bind] at hr
      · rw [generation_refines hcode h hg]
        rw [hg] at hr
        exact ih _ _ hr

end Refines

theorem runAt_refines_runAt {m m' : Machine} (hcode : m.code = m'.code) {levels levels' : Nat}
    (h : levels ≤ levels') (start : Nat) (input : List UInt8) :
    MatchResult.Refines (m.runAt levels start input) (m'.runAt levels' start input) := by
  induction levels generalizing levels' start input with
  | zero => exact MatchResult.refines_error _ _
  | succ levels ih =>
    obtain ⟨levels', rfl⟩ : ∃ l, levels' = l + 1 := ⟨levels' - 1, by omega⟩
    have hfuel : m.maxGenerations input = m'.maxGenerations input := by
      rw [maxGenerations, maxGenerations, hcode]
    rw [runAt, runAt, hfuel]
    exact generations_refines hcode (ih (Nat.le_of_succ_le_succ h)) _ _ _

/-- Raising the limit only removes errors: what a run gives with a limit, it gives with a larger
one, and where it exceeds the larger limit, it exceeds the smaller one. The error names the limit
that is in force for the whole run, at whatever depth a reference exceeds it. -/
theorem run_withLimit_of_le (code : Array Instruction) {limit limit' : Nat} (h : limit ≤ limit')
    (start : Nat) (input : List UInt8) :
    (∀ r, (withLimit code limit).run start input = .ok r →
        (withLimit code limit').run start input = .ok r) ∧
      (∀ e, (withLimit code limit').run start input = .error e →
        (withLimit code limit).run start input =
          .error (.recursionLimit (min limit maxRecursionLimit))) ∧
      ∀ depth index rest e, (withLimit code limit).runNested depth index rest = .error e →
        e = .recursionLimit (min limit maxRecursionLimit) := by
  have hcode : (withLimit code limit).code = (withLimit code limit').code := rfl
  have hlevels : min limit maxRecursionLimit + 1 ≤ min limit' maxRecursionLimit + 1 := by omega
  have hrefines : MatchResult.Refines ((withLimit code limit).run start input)
      ((withLimit code limit').run start input) :=
    runAt_refines_runAt hcode hlevels start input
  refine ⟨hrefines, fun e he => ?_, fun depth index rest e he => runAt_error he⟩
  rcases hrun : (withLimit code limit).run start input with e' | r
  · rw [runAt_error hrun]
    rfl
  · rw [hrefines r hrun] at he
    cases he

def indirect : Array Instruction :=
  #[.next (.reference (some 2)), .next .terminal, .next (.literal 97), .next .terminal]

theorem run_indirect : (withLimit indirect 1).run 0 [97] = .ok (some 1) := by
  simp [indirect, withLimit, maxRecursionLimit, run, runAt, maxGenerations, generations,
    generation, step, Thread.start, Thread.advance, Thread.moved, Instruction.accepts,
    Queue.schedule, Queue.empty, Instruction.next, bind, Except.bind, pure, Except.pure]

theorem run_endless : (withLimit endless.code 1).run 0 [] = .error (.recursionLimit 1) := by
  simp [endless, withLimit, maxRecursionLimit, run, runAt, maxGenerations, generations,
    generation, step, Thread.start, Instruction.next, bind, Except.bind]

theorem run_withLimit_of_le_indirect :
    (1 ≤ 128 ∧ (withLimit indirect 1).run 0 [97] = .ok (some 1) ∧
        (withLimit indirect 128).run 0 [97] = .ok (some 1)) ∧
      0 ≤ 1 ∧ (withLimit endless.code 1).run 0 [] = .error (.recursionLimit 1) ∧
        (withLimit endless.code 0).run 0 [] = .error (.recursionLimit 0) :=
  ⟨⟨by decide, run_indirect, (run_withLimit_of_le indirect (by decide) 0 [97]).1 _ run_indirect⟩,
    by decide, run_endless, (run_withLimit_of_le endless.code (by decide) 0 []).2.1 _ run_endless⟩

end LexicalPatterns.Machine
