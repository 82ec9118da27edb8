import LexicalPatterns.Proofs.Except
import LexicalPatterns.Proofs.Machine.Moves

/-!
# Generations

What one generation does, on lists: it takes the threads up to the first that matches, in order, and
queues what their instructions make of them. The queue keeps a thread that has not stalled too long
and stands at a place of its own.
-/

namespace LexicalPatterns

namespace Queue

def enqueue (maxStalled : Nat) (ts : List Thread) (t : Thread) : List Thread :=
  if maxStalled < t.stalled ∨ ∃ s ∈ ts, s.index = t.index ∧ s.consumed = t.consumed then ts
  else ts ++ [t]

/-- Whether a queue has these threads, and knows where they stand. -/
def Holds (q : Queue) (ts : List Thread) : Prop :=
  q.threads.toList = ts ∧
    ∀ i c, q.places.contains (i, c) = true ↔ ∃ s ∈ ts, s.index = i ∧ s.consumed = c

theorem holds_empty : empty.Holds [] := by
  simp [Holds, empty]

theorem Holds.schedule {q : Queue} {ts : List Thread} (h : q.Holds ts) (maxStalled : Nat)
    (t : Thread) : (q.schedule maxStalled t).Holds (enqueue maxStalled ts t) := by
  obtain ⟨hts, hplaces⟩ := h
  unfold Queue.schedule enqueue
  by_cases hlt : maxStalled < t.stalled
  · rw [if_pos hlt, if_pos (.inl hlt)]
    exact ⟨hts, hplaces⟩
  by_cases hmem : q.places.contains (t.index, t.consumed)
  · rw [if_neg hlt, if_pos hmem, if_pos (.inr ((hplaces _ _).1 hmem))]
    exact ⟨hts, hplaces⟩
  · have hno : ¬ ∃ s ∈ ts, s.index = t.index ∧ s.consumed = t.consumed :=
      fun hs => hmem ((hplaces _ _).2 hs)
    rw [if_neg hlt, if_neg hmem, if_neg (not_or.2 ⟨hlt, hno⟩)]
    refine ⟨by simp [hts], fun i c => ?_⟩
    simp only [Std.HashSet.contains_insert, Bool.or_eq_true, hplaces, beq_iff_eq, Prod.mk.injEq,
      List.mem_append, List.mem_singleton]
    constructor
    · rintro (⟨hi, hc⟩ | ⟨s, hs, hplace⟩)
      · exact ⟨t, .inr rfl, hi, hc⟩
      · exact ⟨s, .inl hs, hplace⟩
    · rintro ⟨s, hs | rfl, hplace⟩
      · exact .inr ⟨s, hs, hplace⟩
      · exact .inl hplace

theorem Holds.foldl_schedule {q : Queue} {ts : List Thread} (h : q.Holds ts) (maxStalled : Nat)
    (us : List Thread) :
    (us.foldl (Queue.schedule maxStalled) q).Holds (us.foldl (enqueue maxStalled) ts) := by
  induction us generalizing q ts with
  | nil => exact h
  | cons u us ih => exact ih (h.schedule maxStalled u)

theorem mem_foldl_enqueue {maxStalled : Nat} {ts us : List Thread} {u : Thread}
    (h : u ∈ us.foldl (enqueue maxStalled) ts) : u ∈ ts ∨ u ∈ us ∧ u.stalled ≤ maxStalled := by
  induction us generalizing ts with
  | nil => exact .inl h
  | cons t us ih =>
    rcases ih h with hu | ⟨hu, hle⟩
    · unfold enqueue at hu
      split at hu
      · exact .inl hu
      · next hno =>
        rcases List.mem_append.1 hu with hu | hu
        · exact .inl hu
        · obtain rfl := List.mem_singleton.1 hu
          exact .inr ⟨by simp, Nat.not_lt.1 fun hlt => hno (.inl hlt)⟩
    · exact .inr ⟨by simp [hu], hle⟩

end Queue

/-- Whether a thread stands in the input where the bytes that it consumed end. -/
def Thread.On (input : List UInt8) (t : Thread) : Prop := t.rest = input.drop t.consumed

theorem Thread.On.goTo {input : List UInt8} {t : Thread} (h : t.On input) (j taken : Nat) :
    (t.goTo j taken).On input := by
  unfold On at h ⊢
  simp only [Thread.goTo, h, List.drop_drop]

theorem Thread.on_start (index : Nat) (input : List UInt8) : (start index input).On input := rfl

namespace Machine

variable {m : Machine} {nested : Nat → List UInt8 → MatchResult}

/-- The threads of a generation up to the first that decides, and its match if it matches. -/
def scan (m : Machine) (nested : Nat → List UInt8 → MatchResult) :
    List Thread → Except MatchError (Option Nat × List Thread)
  | [] => .ok (none, [])
  | t :: ts =>
    match m.step nested t with
    | .error e => .error e
    | .ok .matched => .ok (some t.consumed, [])
    | .ok (.threads _) => (scan m nested ts).map fun r => (r.1, t :: r.2)

theorem generation_eq (m : Machine) (nested : Nat → List UInt8 → MatchResult) (ts : List Thread)
    (q : Queue) :
    m.generation nested ts q = (m.scan nested ts).map fun r =>
      (r.1, (r.2.flatMap (m.made nested)).foldl (Queue.schedule m.code.size) q) := by
  induction ts generalizing q with
  | nil => rfl
  | cons t ts ih =>
    rcases hs : m.step nested t with e | _ | next
    · simp [generation, scan, hs, bind, Except.bind, Except.map]
    · simp [generation, scan, hs, bind, Except.bind, Except.map, pure, Except.pure]
    · have hnext : m.generation nested (t :: ts) q =
          m.generation nested ts (next.foldl (Queue.schedule m.code.size) q) := by
        simp [generation, hs, bind, Except.bind]
      rw [hnext, ih, scan, hs]
      rcases m.scan nested ts with e | r
      · rfl
      · simp [Except.map, made_of_step hs]

/-- All threads are scanned, or those before the first that matches. -/
theorem scan_eq_ok {ts passed : List Thread} {found : Option Nat}
    (h : m.scan nested ts = .ok (found, passed)) :
    (∀ t ∈ passed, m.step nested t = .ok (.threads (m.made nested t))) ∧
      (ts = passed ∧ found = none ∨
        ∃ t rest, ts = passed ++ t :: rest ∧ m.step nested t = .ok .matched ∧
          found = some t.consumed) := by
  induction ts generalizing passed with
  | nil =>
    obtain ⟨rfl, rfl⟩ : found = none ∧ passed = [] := by simpa [scan, eq_comm] using h
    exact ⟨by simp, .inl ⟨rfl, rfl⟩⟩
  | cons t ts ih =>
    rcases hs : m.step nested t with e | _ | next
    · simp [scan, hs] at h
    · obtain ⟨rfl, rfl⟩ : found = some t.consumed ∧ passed = [] := by
        simpa [scan, hs, eq_comm] using h
      exact ⟨by simp, .inr ⟨t, ts, rfl, hs, rfl⟩⟩
    · rw [scan, hs] at h
      obtain ⟨⟨found', passed⟩, hscan, heq⟩ := map_eq_ok.1 h
      obtain ⟨rfl, rfl⟩ := Prod.mk.inj heq
      obtain ⟨hpassed, hend⟩ := ih hscan
      refine ⟨?_, ?_⟩
      · rintro u (_ | ⟨_, hu⟩)
        · rw [made_of_step hs, hs]
        · exact hpassed u hu
      · rcases hend with ⟨rfl, rfl⟩ | ⟨u, rest, rfl, hu, rfl⟩
        · exact .inl ⟨rfl, rfl⟩
        · exact .inr ⟨u, rest, rfl, hu, rfl⟩

theorem subset_of_scan {ts passed : List Thread} {found : Option Nat}
    (h : m.scan nested ts = .ok (found, passed)) : passed ⊆ ts := by
  rcases (scan_eq_ok h).2 with ⟨rfl, -⟩ | ⟨t, rest, rfl, -⟩ <;> simp

theorem generation_eq_ok {ts : List Thread} {q q' : Queue} {found : Option Nat}
    (h : m.generation nested ts q = .ok (found, q')) :
    ∃ passed, m.scan nested ts = .ok (found, passed) ∧
      q' = (passed.flatMap (m.made nested)).foldl (Queue.schedule m.code.size) q := by
  rw [generation_eq] at h
  obtain ⟨⟨found', passed⟩, hscan, heq⟩ := map_eq_ok.1 h
  obtain ⟨rfl, rfl⟩ := Prod.mk.inj heq
  exact ⟨passed, hscan, rfl⟩

theorem mem_of_generation {ts : List Thread} {q : Queue} {found : Option Nat}
    (h : m.generation nested ts .empty = .ok (found, q)) {u : Thread}
    (hu : u ∈ q.threads.toList) :
    ∃ t ∈ ts, u ∈ m.made nested t ∧ u.stalled ≤ m.code.size := by
  obtain ⟨passed, hscan, rfl⟩ := generation_eq_ok h
  rw [(Queue.holds_empty.foldl_schedule m.code.size (passed.flatMap (m.made nested))).1] at hu
  rcases Queue.mem_foldl_enqueue hu with hu | ⟨hu, hle⟩
  · simp at hu
  · obtain ⟨t, ht, hut⟩ := List.mem_flatMap.1 hu
    exact ⟨t, subset_of_scan hscan ht, hut, hle⟩

theorem generations_nil (fuel : Nat) (found : Option Nat) :
    m.generations nested fuel [] found = .ok found := by
  cases fuel <;> simp [generations]

theorem potential_pos {t : Thread} (h : t.stalled ≤ m.code.size) : 0 < m.potential t := by
  unfold potential
  omega

theorem eq_nil_of_potential {ts : List Thread} (hstalled : ∀ t ∈ ts, t.stalled ≤ m.code.size)
    (h : ∀ t ∈ ts, m.potential t ≤ 0) : ts = [] := by
  apply List.eq_nil_iff_forall_not_mem.2
  intro t ht
  have := potential_pos (hstalled t ht)
  have := h t ht
  omega

theorem exists_fuel {ts : List Thread} (hts : ts ≠ [])
    (hstalled : ∀ t ∈ ts, t.stalled ≤ m.code.size) {fuel : Nat}
    (hfuel : ∀ t ∈ ts, m.potential t ≤ fuel) : ∃ k, fuel = k + 1 := by
  cases fuel with
  | zero => exact absurd (eq_nil_of_potential hstalled hfuel) hts
  | succ k => exact ⟨k, rfl⟩

/-- After a generation, one generation less is enough. -/
theorem potential_of_generation (hn : Prefixes nested) {ts : List Thread} {q : Queue}
    {found : Option Nat} (h : m.generation nested ts .empty = .ok (found, q))
    (hstalled : ∀ t ∈ ts, t.stalled ≤ m.code.size) {fuel : Nat}
    (hfuel : ∀ t ∈ ts, m.potential t ≤ fuel + 1) :
    ∀ u ∈ q.threads.toList, m.potential u ≤ fuel := by
  intro u hu
  obtain ⟨t, ht, hut, -⟩ := mem_of_generation h hu
  have hless := potential_lt_of_mem_made hn (hstalled t ht) hut
  exact Nat.le_of_lt_succ (Nat.lt_of_lt_of_le hless (hfuel t ht))

theorem stalled_of_generation {ts : List Thread} {q : Queue} {found : Option Nat}
    (h : m.generation nested ts .empty = .ok (found, q)) :
    ∀ u ∈ q.threads.toList, u.stalled ≤ m.code.size := by
  intro u hu
  obtain ⟨t, -, -, hle⟩ := mem_of_generation h hu
  exact hle

theorem potential_start_le (m : Machine) (start : Nat) (input : List UInt8) :
    m.potential (.start start input) ≤ m.maxGenerations input := by
  simp only [potential, Thread.start, maxGenerations]
  rw [Nat.mul_comm (m.code.size + 1), Nat.add_mul]
  omega

end Machine
end LexicalPatterns
