import LexicalPatterns.Proofs.Machine.DepthFirst

/-!
# Runs end

A run goes on as long as it has threads, and every reference that a thread comes to is a run of its
own. Here the loop is said without a bound on its turns, and the runs without a bound on how deep
they nest. Every such loop ends, after no more turns than there are places for threads, and no run
nests deeper than one level beyond the limit, where it is refused.
-/

namespace LexicalPatterns

def Thread.place (t : Thread) : Nat × Nat := (t.index, t.consumed)

namespace Queue

variable {maxStalled : Nat} {ts us : List Thread} {t : Thread}

theorem nodup_enqueue (h : (ts.map Thread.place).Nodup) :
    ((enqueue maxStalled ts t).map Thread.place).Nodup := by
  unfold enqueue
  split
  · exact h
  · next hno =>
    have hnew : ∀ s ∈ ts, s.place ≠ t.place := by
      intro s hs hplace
      obtain ⟨hindex, hconsumed⟩ := Prod.mk.inj hplace
      exact hno (.inr ⟨s, hs, hindex, hconsumed⟩)
    rw [List.map_append, List.nodup_append]
    refine ⟨h, List.nodup_singleton _, ?_⟩
    intro p hp p' hp'
    obtain ⟨s, hs, rfl⟩ := List.mem_map.1 hp
    obtain rfl := List.mem_singleton.1 hp'
    exact hnew s hs

theorem nodup_foldl_enqueue (h : (ts.map Thread.place).Nodup) :
    ((us.foldl (enqueue maxStalled) ts).map Thread.place).Nodup := by
  induction us generalizing ts with
  | nil => exact h
  | cons u us ih => exact ih (nodup_enqueue h)

end Queue

namespace Machine

variable {m : Machine} {nested : Nat → List UInt8 → MatchResult}

theorem nodup_of_generation {ts : List Thread} {q : Queue} {found : Option Nat}
    (h : m.generation nested ts .empty = .ok (found, q)) :
    (q.threads.toList.map Thread.place).Nodup := by
  obtain ⟨passed, -, rfl⟩ := generation_eq_ok h
  rw [(Queue.holds_empty.foldl_schedule m.code.size (passed.flatMap (m.made nested))).1]
  exact Queue.nodup_foldl_enqueue List.nodup_nil

/-- The turns of the loop of a run, which goes on as long as there are active threads: the worklist
of each turn, and the result, where `found` is the match so far. -/
inductive Trace (m : Machine) (nested : Nat → List UInt8 → MatchResult) :
    (worklists : List (List Thread)) → (active : List Thread) → (found : Option Nat) →
      MatchResult → Prop
  | done {found : Option Nat} : Trace m nested [] [] found (.ok found)
  | error {active : List Thread} {found : Option Nat} {e : MatchError} (left : active ≠ [])
      (generation : m.generation nested active .empty = .error e) :
      Trace m nested [active] active found (.error e)
  | turn {active : List Thread} {found matched : Option Nat} {q : Queue}
      {worklists : List (List Thread)} {r : MatchResult} (left : active ≠ [])
      (generation : m.generation nested active .empty = .ok (matched, q))
      (rest : Trace m nested worklists q.threads.toList (matched.or found) r) :
      Trace m nested (active :: worklists) active found r

/-- The loop ends before the number of generations runs out, so the number plays no part. -/
theorem exists_trace (hn : Prefixes nested) (fuel : Nat) {ts : List Thread}
    (hstalled : ∀ t ∈ ts, t.stalled ≤ m.code.size) (hfuel : ∀ t ∈ ts, m.potential t ≤ fuel)
    (hplaces : (ts.map Thread.place).Nodup) (found : Option Nat) :
    ∃ worklists, m.Trace nested worklists ts found (m.generations nested fuel ts found) ∧
      worklists.length ≤ fuel ∧ ∀ w ∈ worklists, (w.map Thread.place).Nodup := by
  -- Each turn lowers the potential of the threads, which the fuel bounds.
  induction fuel generalizing ts found with
  | zero =>
    obtain rfl := eq_nil_of_potential hstalled hfuel
    exact ⟨[], .done, Nat.le_refl 0, by simp⟩
  | succ fuel ih =>
    unfold generations
    by_cases hts : ts = []
    · subst hts
      exact ⟨[], .done, Nat.zero_le _, by simp⟩
    · rw [if_neg (by simpa using hts)]
      rcases hg : m.generation nested ts .empty with e | ⟨matched, q⟩
      · exact ⟨[ts], .error hts hg, by simp, by simpa using hplaces⟩
      · obtain ⟨worklists, htrace, hlength, hnodup⟩ :=
          ih (stalled_of_generation hg) (potential_of_generation hn hg hstalled hfuel)
            (nodup_of_generation hg) (matched.or found)
        refine ⟨ts :: worklists, .turn hts hg htrace, Nat.succ_le_succ hlength, ?_⟩
        rintro w (_ | ⟨_, hw⟩)
        · exact hplaces
        · exact hnodup w hw

/-- The run of a pattern that is `depth` references deep in another run. -/
def runNested (m : Machine) (depth : Nat) : Nat → List UInt8 → MatchResult :=
  m.runAt (m.recursionLimit + 1 - depth)

theorem runNested_of_lt {depth : Nat} (h : m.recursionLimit < depth) (start : Nat)
    (input : List UInt8) :
    m.runNested depth start input = .error (.recursionLimit m.recursionLimit) := by
  have hlevels : m.recursionLimit + 1 - depth = 0 := by omega
  rw [runNested, hlevels, runAt]

theorem runNested_of_le {depth : Nat} (h : depth ≤ m.recursionLimit) (start : Nat)
    (input : List UInt8) :
    m.runNested depth start input =
      m.generations (m.runNested (depth + 1)) (m.maxGenerations input) [.start start input]
        none := by
  have hlevels : m.recursionLimit + 1 - depth = m.recursionLimit + 1 - (depth + 1) + 1 := by omega
  rw [runNested, hlevels, runAt]
  rfl

/-- The runs that take place in the run of a pattern: the run itself, and a run of the target of
each reference that a thread comes to, where no thread before it has matched. -/
inductive Calls (m : Machine) (start : Nat) (input : List UInt8) :
    (depth index : Nat) → (rest : List UInt8) → Prop
  | outermost : Calls m start input 0 start input
  | reference {depth index target : Nat} {rest : List UInt8} {worklists : List (List Thread)}
      {r : MatchResult} {before after : List Thread} {t : Thread} {movement : Int}
      (outer : Calls m start input depth index rest) (le : depth ≤ m.recursionLimit)
      (trace : m.Trace (m.runNested (depth + 1)) worklists [.start index rest] none r)
      (mem : before ++ t :: after ∈ worklists)
      (passed : ∀ u ∈ before, ∃ us, m.step (m.runNested (depth + 1)) u = .ok (.threads us))
      (code : m.code[t.index]? = some ⟨.reference (some target), movement⟩) :
      Calls m start input (depth + 1) target t.rest

variable {start depth index : Nat} {input rest : List UInt8}

theorem Calls.depth_le (h : m.Calls start input depth index rest) :
    depth ≤ m.recursionLimit + 1 := by
  cases h with
  | outermost => exact Nat.zero_le _
  | reference _ le => exact Nat.succ_le_succ le

theorem runNested_le {n : Nat} (h : m.runNested depth index rest = .ok (some n)) :
    n ≤ rest.length :=
  m.prefixes_runAt _ h

/-- The loop of a run takes at most one turn for each instruction, and one more, at each place of
the input. -/
theorem exists_trace_runNested (h : depth ≤ m.recursionLimit) (index : Nat) (rest : List UInt8) :
    ∃ worklists, m.Trace (m.runNested (depth + 1)) worklists [.start index rest] none
        (m.runNested depth index rest) ∧
      worklists.length ≤ (m.code.size + 1) * (rest.length + 1) ∧
      ∀ w ∈ worklists, (w.map Thread.place).Nodup := by
  rw [runNested_of_le h]
  apply exists_trace (m.prefixes_runAt _)
  · simp [Thread.start]
  · simpa using m.potential_start_le index rest
  · simp

/-- Every run ends, and so do all runs that take place in it. Each of them is refused one level
beyond the limit, or its loop ends after so many turns, in each of which the threads stand at
different places. What they match is a prefix. -/
theorem run_terminates (m : Machine) (start : Nat) (input : List UInt8) :
    m.run start input = m.runNested 0 start input ∧
      ∀ depth index rest, m.Calls start input depth index rest →
        depth ≤ m.recursionLimit + 1 ∧
        (m.recursionLimit < depth →
          m.runNested depth index rest = .error (.recursionLimit m.recursionLimit)) ∧
        (depth ≤ m.recursionLimit →
          ∃ worklists, m.Trace (m.runNested (depth + 1)) worklists [.start index rest] none
              (m.runNested depth index rest) ∧
            worklists.length ≤ (m.code.size + 1) * (rest.length + 1) ∧
            ∀ w ∈ worklists, (w.map Thread.place).Nodup) ∧
        ∀ n, m.runNested depth index rest = .ok (some n) → n ≤ rest.length := by
  refine ⟨rfl, fun depth index rest h => ⟨h.depth_le, fun hlt => ?_, fun hle => ?_, fun n hr => ?_⟩⟩
  · exact runNested_of_lt hlt index rest
  · exact exists_trace_runNested hle index rest
  · exact runNested_le hr

/-- A pattern that refers to itself runs one level deep before it is refused. -/
theorem calls_endless : endless.Calls 0 [] 1 0 [] := by
  have hrefused : endless.generation (endless.runNested 1) [.start 0 []] .empty =
      .error (.recursionLimit 0) := rfl
  exact @Calls.reference endless 0 [] 0 0 0 [] _ _ [] [] (.start 0 []) 1 .outermost (Nat.le_refl 0)
    (.error (by simp) hrefused) (List.mem_singleton_self _) (by simp) rfl

theorem run_terminates_endless :
    endless.Calls 0 [] 1 0 [] ∧ 1 ≤ endless.recursionLimit + 1 ∧
      endless.runNested 1 0 [] = .error (.recursionLimit 0) :=
  have h := (run_terminates endless 0 []).2 1 0 [] calls_endless
  ⟨calls_endless, h.1, h.2.1 (by decide)⟩

end Machine
end LexicalPatterns
