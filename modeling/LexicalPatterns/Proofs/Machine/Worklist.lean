import LexicalPatterns.Proofs.Machine.Generation

/-!
# The worklist without dropped threads

The loop of a run where the queue drops no thread for another that stands where it does: it only
gives up the threads that stalled too long. The loop finds what depth-first matching finds, since a
branch puts its alternatives where it stood and the thread that matches ends the threads behind it.
-/

namespace LexicalPatterns

namespace MatchResult

theorem first_flatMap {α β : Type} (xs : List α) (f : α → List β) (g : β → MatchResult) :
    first ((xs.flatMap f).map g) = first (xs.map fun x => first ((f x).map g)) := by
  induction xs with
  | nil => rfl
  | cons x xs ih =>
    rw [List.flatMap_cons, List.map_append, first_append, ih, List.map_cons, first_cons]

end MatchResult

namespace Queue

/-- Adds a thread behind the others, unless it is given up. -/
def keep (maxStalled : Nat) (ts : List Thread) (t : Thread) : List Thread :=
  if t.stalled > maxStalled then ts else ts ++ [t]

theorem foldl_keep (maxStalled : Nat) (ts us : List Thread) :
    us.foldl (keep maxStalled) ts = ts ++ us.filter (·.stalled ≤ maxStalled) := by
  induction us generalizing ts with
  | nil => simp
  | cons u us ih =>
    rw [List.foldl_cons, ih, keep]
    by_cases h : u.stalled > maxStalled
    · rw [if_pos h, List.filter_cons_of_neg (by simpa using h)]
    · rw [if_neg h, List.filter_cons_of_pos (by simpa using h), List.append_assoc]
      rfl

end Queue

namespace Machine

/-- A generation that drops no thread for another. -/
def fullGeneration (m : Machine) (runAt : Nat → List UInt8 → Except MatchError (Option Nat)) :
    List Thread → List Thread → Except MatchError (Option Nat × List Thread)
  | [], q => .ok (none, q)
  | t :: ts, q => do
    match ← m.step runAt t with
    | .matched => return (some t.consumed, q)
    | .threads next => fullGeneration m runAt ts (next.foldl (Queue.keep m.code.size) q)

/-- The loop of a run that drops no thread for another: generations as long as a thread is left,
where `found` is the match so far, and the result. -/
inductive FullLoop (m : Machine) (nested : Nat → List UInt8 → MatchResult) :
    (active : List Thread) → (found : Option Nat) → MatchResult → Prop
  | done {found : Option Nat} : FullLoop m nested [] found (.ok found)
  | error {active : List Thread} {found : Option Nat} {e : MatchError}
      (generation : m.fullGeneration nested active [] = .error e) :
      FullLoop m nested active found (.error e)
  | turn {active next : List Thread} {found matched : Option Nat} {r : MatchResult}
      (left : active ≠ []) (generation : m.fullGeneration nested active [] = .ok (matched, next))
      (rest : FullLoop m nested next (matched.or found) r) : FullLoop m nested active found r

variable {m : Machine} {nested : Nat → List UInt8 → MatchResult}

theorem fullGeneration_eq (m : Machine) (nested : Nat → List UInt8 → MatchResult)
    (ts q : List Thread) :
    m.fullGeneration nested ts q = (m.scan nested ts).map fun r =>
      (r.1, q ++ (r.2.flatMap (m.made nested)).filter (·.stalled ≤ m.code.size)) := by
  induction ts generalizing q with
  | nil => simp [fullGeneration, scan, Except.map]
  | cons t ts ih =>
    rcases hs : m.step nested t with e | _ | next
    · simp [fullGeneration, scan, hs, bind, Except.bind, Except.map]
    · simp [fullGeneration, scan, hs, bind, Except.bind, Except.map, pure, Except.pure]
    · have hnext : m.fullGeneration nested (t :: ts) q =
          m.fullGeneration nested ts (next.foldl (Queue.keep m.code.size) q) := by
        simp [fullGeneration, hs, bind, Except.bind]
      rw [hnext, ih, Queue.foldl_keep, scan, hs]
      rcases m.scan nested ts with e | r
      · rfl
      · simp [Except.map, made_of_step hs]

theorem fullGeneration_eq_ok {ts next : List Thread} {found : Option Nat}
    (h : m.fullGeneration nested ts [] = .ok (found, next)) :
    ∃ passed, m.scan nested ts = .ok (found, passed) ∧
      next = (passed.flatMap (m.made nested)).filter (·.stalled ≤ m.code.size) := by
  rw [fullGeneration_eq] at h
  obtain ⟨⟨found', passed⟩, hscan, heq⟩ := map_eq_ok.1 h
  obtain ⟨rfl, rfl⟩ := Prod.mk.inj heq
  exact ⟨passed, hscan, rfl⟩

theorem mem_of_fullGeneration {ts next : List Thread} {found : Option Nat}
    (h : m.fullGeneration nested ts [] = .ok (found, next)) {u : Thread} (hu : u ∈ next) :
    ∃ t ∈ ts, u ∈ m.made nested t ∧ u.stalled ≤ m.code.size := by
  obtain ⟨passed, hscan, rfl⟩ := fullGeneration_eq_ok h
  obtain ⟨hu, hle⟩ := List.mem_filter.1 hu
  obtain ⟨t, ht, hut⟩ := List.mem_flatMap.1 hu
  exact ⟨t, subset_of_scan hscan ht, hut, of_decide_eq_true hle⟩

/-- The loop that drops nothing ends. -/
theorem exists_fullLoop (hn : Prefixes nested) (bound : Nat) {ts : List Thread}
    (hstalled : ∀ t ∈ ts, t.stalled ≤ m.code.size) (hbound : ∀ t ∈ ts, m.potential t ≤ bound)
    (found : Option Nat) : ∃ r, m.FullLoop nested ts found r := by
  induction bound generalizing ts found with
  | zero =>
    obtain rfl := eq_nil_of_potential hstalled hbound
    exact ⟨_, .done⟩
  | succ bound ih =>
    by_cases hts : ts = []
    · subst hts
      exact ⟨_, .done⟩
    · rcases hg : m.fullGeneration nested ts [] with e | ⟨matched, next⟩
      · exact ⟨_, .error hg⟩
      · have hnext : ∀ u ∈ next, u.stalled ≤ m.code.size ∧ m.potential u ≤ bound := by
          intro u hu
          obtain ⟨t, ht, hut, hle⟩ := mem_of_fullGeneration hg hu
          have hless := potential_lt_of_mem_made hn (hstalled t ht) hut
          exact ⟨hle, Nat.le_of_lt_succ (Nat.lt_of_lt_of_le hless (hbound t ht))⟩
        obtain ⟨r, hr⟩ :=
          ih (fun u hu => (hnext u hu).1) (fun u hu => (hnext u hu).2) (matched.or found)
        exact ⟨r, .turn hts hg hr⟩

/-- What the threads find, one after the other. -/
def firstOf (m : Machine) (nested : Nat → List UInt8 → MatchResult) (ts : List Thread) :
    MatchResult :=
  .first (ts.map (m.backtrack nested))

theorem firstOf_append (ts us : List Thread) :
    m.firstOf nested (ts ++ us) = (m.firstOf nested ts).orElse (m.firstOf nested us) := by
  rw [firstOf, List.map_append, MatchResult.first_append, firstOf, firstOf]

theorem firstOf_flatMap_made (hn : Prefixes nested) {ts : List Thread}
    (hstep : ∀ t ∈ ts, m.step nested t = .ok (.threads (m.made nested t)))
    (hstalled : ∀ t ∈ ts, t.stalled ≤ m.code.size) :
    m.firstOf nested (ts.flatMap (m.made nested)) = m.firstOf nested ts := by
  rw [firstOf, MatchResult.first_flatMap, firstOf]
  congr 1
  apply List.map_congr_left
  intro t ht
  rw [backtrack_eq_step hn (hstalled t ht), hstep t ht]

theorem firstOf_filter (ts : List Thread) :
    m.firstOf nested (ts.filter (·.stalled ≤ m.code.size)) = m.firstOf nested ts := by
  induction ts with
  | nil => rfl
  | cons t ts ih =>
    have hcons : m.firstOf nested (t :: ts) =
        (m.backtrack nested t).orElse (m.firstOf nested ts) := rfl
    by_cases h : t.stalled ≤ m.code.size
    · rw [List.filter_cons_of_pos (by simpa using h), hcons, ← ih]
      rfl
    · rw [List.filter_cons_of_neg (by simpa using h), hcons, ih,
        backtrack_of_stalled (Nat.not_le.1 h), MatchResult.none_orElse]

/-- The loop that drops nothing finds what its threads find, one after the other. -/
theorem FullLoop.firstOf_eq (hn : Prefixes nested) {ts : List Thread} {found : Option Nat}
    {result : MatchResult} (h : m.FullLoop nested ts found result)
    (hstalled : ∀ t ∈ ts, t.stalled ≤ m.code.size) {r : Option Nat} (hr : result = .ok r) :
    (m.firstOf nested ts).orElse (.ok found) = .ok r := by
  induction h with
  | done => exact hr
  | error => cases hr
  | @turn ts next found matched result left generation rest ih =>
    have hnext := ih (fun u hu => (mem_of_fullGeneration generation hu).choose_spec.2.2) hr
    obtain ⟨passed, hscan, rfl⟩ := fullGeneration_eq_ok generation
    obtain ⟨hstep, hend⟩ := scan_eq_ok hscan
    have hpassed : ∀ t ∈ passed, t.stalled ≤ m.code.size :=
      fun t ht => hstalled t (subset_of_scan hscan ht)
    rw [firstOf_filter, firstOf_flatMap_made hn hstep hpassed, ← MatchResult.orElse_ok,
      ← MatchResult.orElse_assoc] at hnext
    rw [← hnext]
    congr 1
    rcases hend with ⟨rfl, rfl⟩ | ⟨t, rest, rfl, ht, rfl⟩
    · rw [MatchResult.orElse_none]
    · have hbt : m.backtrack nested t = .ok (some t.consumed) := by
        rw [backtrack_eq_step hn (hstalled t (by simp)), ht]
      rw [firstOf_append, firstOf, firstOf, List.map_cons, MatchResult.first_cons, hbt,
        MatchResult.some_orElse]

end Machine
end LexicalPatterns
