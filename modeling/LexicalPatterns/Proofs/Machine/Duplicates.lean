import LexicalPatterns.Proofs.Machine.Worklist
import LexicalPatterns.Proofs.Machine.Stall

/-!
# Dropped threads

The queue drops a thread that stands where one before it stands, although the one before may have
stalled for longer and so be given up sooner. Yet a loop that drops threads comes to the same result
as the loop that drops none: whatever a dropped thread comes to, a thread before it comes to
something in no more steps. If the thread at the same place has stalled for longer, it comes from a
thread that consumed its last byte earlier, and what can be come to from there is come to before the
dropped thread, be it on another way.
-/

namespace LexicalPatterns

/-- Whether a thread has consumed less than another, or as much and later. -/
def Thread.Behind (u t : Thread) : Prop :=
  u.consumed < t.consumed ∨ u.consumed = t.consumed ∧ u.stalled < t.stalled

theorem Thread.Behind.of_goTo {t s : Thread} {j j' taken : Nat}
    (h : (t.goTo j taken).Behind (s.goTo j' 0)) : t.Behind s := by
  simp only [Behind, goTo, if_true] at h ⊢
  split at h <;> omega

theorem Thread.not_behind_self (t : Thread) : ¬ t.Behind t := by
  simp [Behind]

/-- The thread, had it just consumed a byte. -/
def Thread.rewound (t : Thread) : Thread := { t with stalled := 0 }

namespace Machine

variable {m : Machine} {nested : Nat → List UInt8 → MatchResult}

/-- Whether one of some threads comes to something in no more steps than a thread does. -/
def Covers (m : Machine) (nested : Nat → List UInt8 → MatchResult) (ts : List Thread)
    (t : Thread) : Prop :=
  ∀ steps, m.DecidesWithin nested steps t → ∃ s ∈ ts, m.DecidesWithin nested steps s

section Covers

variable {ts us : List Thread} {t u : Thread}

theorem covers_of_mem (h : t ∈ ts) : m.Covers nested ts t :=
  fun _ hsteps => ⟨t, h, hsteps⟩

theorem covers_of_stalled (h : m.code.size < t.stalled) : m.Covers nested ts t :=
  fun _ hsteps => absurd hsteps.stalled_le (Nat.not_le.2 h)

theorem Covers.trans (h : m.Covers nested ts t) (hus : ∀ s ∈ ts, m.Covers nested us s) :
    m.Covers nested us t := by
  intro steps hsteps
  obtain ⟨s, hs, hsteps⟩ := h steps hsteps
  exact hus s hs steps hsteps

theorem Covers.subset (h : m.Covers nested ts t) (hsub : ts ⊆ us) : m.Covers nested us t :=
  h.trans fun _ hs => covers_of_mem (hsub hs)

theorem DecidesWithin.exists_made {steps : Nat} (h : m.DecidesWithin nested steps t)
    (hstep : m.step nested t = .ok (.threads (m.made nested t))) :
    ∃ k, steps = k + 1 ∧ ∃ u ∈ m.made nested t, m.DecidesWithin nested k u := by
  cases h with
  | now _ decides =>
    rcases m.step_cases nested t with ⟨e, hs, -⟩ | ⟨hs, -⟩ | ⟨us, -, hno, -⟩
    · simp [hs] at hstep
    · simp [hs] at hstep
    · exact absurd decides (hno _)
  | later _ moves next => exact ⟨_, rfl, _, mem_made.2 ⟨_, _, moves, rfl⟩, next⟩

theorem Covers.flatMap_made (h : m.Covers nested ts t)
    (hstep : ∀ s ∈ ts, m.step nested s = .ok (.threads (m.made nested s)))
    (hu : ∀ steps, m.DecidesWithin nested steps u → m.DecidesWithin nested (steps + 1) t) :
    m.Covers nested (ts.flatMap (m.made nested)) u := by
  intro steps hsteps
  obtain ⟨s, hs, hsteps⟩ := h (steps + 1) (hu steps hsteps)
  obtain ⟨k, hk, v, hv, hsteps⟩ := hsteps.exists_made (hstep s hs)
  obtain rfl := Nat.succ_inj.1 hk
  exact ⟨v, List.mem_flatMap.2 ⟨s, hs, hv⟩, hsteps⟩

theorem Covers.of_mem_made (h : m.Covers nested ts t) (ht : t.stalled ≤ m.code.size)
    (hstep : ∀ s ∈ ts, m.step nested s = .ok (.threads (m.made nested s)))
    (hu : u ∈ m.made nested t) : m.Covers nested (ts.flatMap (m.made nested)) u := by
  obtain ⟨j, taken, hm, rfl⟩ := mem_made.1 hu
  exact h.flatMap_made hstep fun steps hsteps => .later ht hm hsteps

end Covers

/-- Whether threads that stand behind others are `Guarded`: where one stands behind a thread that it
is `Behind`, the threads before it cover what that thread would come to, had it not stalled. -/
def Guarded (m : Machine) (nested : Nat → List UInt8 → MatchResult) :
    (before ts : List Thread) → Prop
  | _, [] => True
  | before, u :: ts =>
    (∀ t ∈ before, u.Behind t → m.Covers nested before t.rewound) ∧
      Guarded m nested (before ++ [u]) ts

theorem guarded_append {before ts us : List Thread} :
    m.Guarded nested before (ts ++ us) ↔
      m.Guarded nested before ts ∧ m.Guarded nested (before ++ ts) us := by
  induction ts generalizing before with
  | nil => simp [Guarded]
  | cons t ts ih => simp [Guarded, ih, and_assoc]

theorem guarded_singleton (t : Thread) : m.Guarded nested [] [t] := by
  simp [Guarded]

/-- The threads that one instruction makes are guarded by those that stand before them. -/
theorem guarded_made {before earlier us : List Thread} {t : Thread}
    (hstep : ∀ s ∈ before, m.step nested s = .ok (.threads (m.made nested s)))
    (ht : ∀ s ∈ before, t.Behind s → m.Covers nested before s.rewound)
    (hsub : before.flatMap (m.made nested) ⊆ earlier)
    (hearlier : ∀ v ∈ earlier, ∃ s, (s ∈ before ∨ s = t) ∧ v ∈ m.made nested s)
    (hus : ∀ u ∈ us, u ∈ m.made nested t) : m.Guarded nested earlier us := by
  induction us generalizing earlier with
  | nil => trivial
  | cons u us ih =>
    refine ⟨fun v hv hbehind => ?_, ih ?_ ?_ fun w hw => hus w (by simp [hw])⟩
    · obtain ⟨s, hs, hvs⟩ := hearlier v hv
      obtain ⟨j, taken, -, rfl⟩ := mem_made.1 (hus u (by simp))
      obtain ⟨j', taken', hm, rfl⟩ := mem_made.1 hvs
      rcases Nat.eq_zero_or_pos taken' with rfl | hpos
      -- A thread that consumed nothing goes back to one of the generation before.
      · rcases hs with hs | rfl
        · refine Covers.subset ((ht s hs hbehind.of_goTo).flatMap_made hstep ?_) hsub
          exact fun steps hsteps => hsteps.of_moves hm
        · exact absurd hbehind.of_goTo (Thread.not_behind_self s)
      · apply covers_of_mem
        rwa [Thread.goTo_of_pos _ _ hpos] at hv ⊢
    · exact List.Subset.trans hsub (List.subset_append_left _ _)
    · intro v hv
      rcases List.mem_append.1 hv with hv | hv
      · exact hearlier v hv
      · obtain rfl := List.mem_singleton.1 hv
        exact ⟨t, .inr rfl, hus v (by simp)⟩

theorem Guarded.flatMap_made {before ts : List Thread} (h : m.Guarded nested before ts)
    (hbefore : ∀ s ∈ before, m.step nested s = .ok (.threads (m.made nested s)))
    (hts : ∀ s ∈ ts, m.step nested s = .ok (.threads (m.made nested s))) :
    m.Guarded nested (before.flatMap (m.made nested)) (ts.flatMap (m.made nested)) := by
  induction ts generalizing before with
  | nil => trivial
  | cons t ts ih =>
    obtain ⟨ht, hrest⟩ := h
    rw [List.flatMap_cons, guarded_append]
    constructor
    · refine guarded_made hbefore ht (fun _ hv => hv) (fun v hv => ?_) fun _ hu => hu
      obtain ⟨s, hs, hvs⟩ := List.mem_flatMap.1 hv
      exact ⟨s, .inl hs, hvs⟩
    · have hmore := ih hrest ?_ fun s hs => hts s (by simp [hs])
      · simpa using hmore
      · intro s hs
        rcases List.mem_append.1 hs with hs | hs
        · exact hbefore s hs
        · exact hts s (by simp_all)

/-- Whether some threads are others without some that are covered by those before them. The threads
`before` stand before all others. -/
inductive Thins (m : Machine) (nested : Nat → List UInt8 → MatchResult) :
    (before full thin : List Thread) → Prop
  | nil {before : List Thread} : Thins m nested before [] []
  | keep {before full thin : List Thread} {t : Thread}
      (rest : Thins m nested (before ++ [t]) full thin) :
      Thins m nested before (t :: full) (t :: thin)
  | drop {before full thin : List Thread} {t : Thread} (covered : m.Covers nested before t)
      (rest : Thins m nested before full thin) : Thins m nested before (t :: full) thin

section Thins

variable {before full thin : List Thread}

theorem thins_refl (before ts : List Thread) : m.Thins nested before ts ts := by
  induction ts generalizing before with
  | nil => exact .nil
  | cons t ts ih => exact .keep (ih _)

theorem Thins.subset (h : m.Thins nested before full thin) : thin ⊆ full := by
  induction h with
  | nil => exact fun _ h => h
  | keep _ ih => exact List.cons_subset_cons _ ih
  | drop _ _ ih => exact List.Subset.trans ih (List.subset_cons_self _ _)

theorem Thins.keep_append {ts : List Thread} (h : m.Thins nested (before ++ ts) full thin) :
    m.Thins nested before (ts ++ full) (ts ++ thin) := by
  induction ts generalizing before with
  | nil => simpa using h
  | cons t ts ih => exact .keep (ih (by simpa using h))

theorem Thins.drop_append {ts : List Thread} (hts : ∀ t ∈ ts, m.Covers nested before t)
    (h : m.Thins nested before full thin) : m.Thins nested before (ts ++ full) thin := by
  induction ts with
  | nil => exact h
  | cons t ts ih => exact .drop (hts t (by simp)) (ih fun s hs => hts s (by simp [hs]))

theorem Thins.scan (h : m.Thins nested before full thin)
    (hbefore : ∀ s ∈ before, m.step nested s = .ok (.threads (m.made nested s)))
    (hfull : ∀ t ∈ full, t.stalled ≤ m.code.size) :
    (∃ e, m.scan nested full = .error e ∧ m.scan nested thin = .error e) ∨
      ∃ found passed passed', m.scan nested full = .ok (found, passed) ∧
        m.scan nested thin = .ok (found, passed') ∧ m.Thins nested before passed passed' := by
  induction h with
  | nil => exact .inr ⟨none, [], [], rfl, rfl, .nil⟩
  | @keep before full thin t _ ih =>
    rcases hs : m.step nested t with e | _ | next
    · exact .inl ⟨e, by simp [Machine.scan, hs], by simp [Machine.scan, hs]⟩
    · exact .inr ⟨some t.consumed, [], [], by simp [Machine.scan, hs], by simp [Machine.scan, hs],
        .nil⟩
    · have hbefore' : ∀ s ∈ before ++ [t],
          m.step nested s = .ok (.threads (m.made nested s)) := by
        intro s hmem
        rcases List.mem_append.1 hmem with hmem | hmem
        · exact hbefore s hmem
        · rw [List.mem_singleton.1 hmem, made_of_step hs, hs]
      rcases ih hbefore' fun s hmem => hfull s (by simp [hmem]) with
        ⟨e, hscan, hscan'⟩ | ⟨found, passed, passed', hscan, hscan', hthins⟩
      · exact .inl ⟨e, by simp [Machine.scan, hs, hscan, Except.map],
          by simp [Machine.scan, hs, hscan', Except.map]⟩
      · exact .inr ⟨found, t :: passed, t :: passed', by simp [Machine.scan, hs, hscan, Except.map],
          by simp [Machine.scan, hs, hscan', Except.map], .keep hthins⟩
  | @drop before full thin t covered _ ih =>
    -- A thread that decided at once would be covered by one that does.
    have hno : ∀ v, ¬ m.Decides nested t.index t.consumed t.rest v := by
      intro v hd
      obtain ⟨s, hmem, hsteps⟩ := covered 0 (.now (hfull t (by simp)) hd)
      obtain ⟨k, hk, -⟩ := hsteps.exists_made (hbefore s hmem)
      cases hk
    rcases m.step_cases nested t with ⟨e, -, hd⟩ | ⟨-, hd⟩ | ⟨ts, hs, -, -⟩
    · exact absurd hd (hno _)
    · exact absurd hd (hno _)
    · rcases ih hbefore fun s hmem => hfull s (by simp [hmem]) with
        ⟨e, hscan, hscan'⟩ | ⟨found, passed, passed', hscan, hscan', hthins⟩
      · exact .inl ⟨e, by simp [Machine.scan, hs, hscan, Except.map], hscan'⟩
      · exact .inr ⟨found, t :: passed, passed', by simp [Machine.scan, hs, hscan, Except.map],
          hscan', .drop covered hthins⟩

theorem Thins.flatMap_made (h : m.Thins nested before full thin)
    (hbefore : ∀ s ∈ before, m.step nested s = .ok (.threads (m.made nested s)))
    (hstep : ∀ s ∈ full, m.step nested s = .ok (.threads (m.made nested s)))
    (hfull : ∀ t ∈ full, t.stalled ≤ m.code.size) :
    m.Thins nested (before.flatMap (m.made nested)) (full.flatMap (m.made nested))
      (thin.flatMap (m.made nested)) := by
  induction h with
  | nil => exact .nil
  | @keep before full thin t _ ih =>
    rw [List.flatMap_cons, List.flatMap_cons]
    have hrest := ih ?_ (fun s hs => hstep s (by simp [hs])) fun s hs => hfull s (by simp [hs])
    · rw [List.flatMap_append, List.flatMap_singleton] at hrest
      exact hrest.keep_append
    · intro s hs
      rcases List.mem_append.1 hs with hs | hs
      · exact hbefore s hs
      · exact hstep s (by simp_all)
  | @drop before full thin t covered _ ih =>
    rw [List.flatMap_cons]
    refine .drop_append (fun u hu => covered.of_mem_made (hfull t (by simp)) hbefore hu) (ih hbefore
      (fun s hs => hstep s (by simp [hs])) fun s hs => hfull s (by simp [hs]))

/-- A thread at the place of one before it is covered by the guarded threads before it. -/
theorem covers_of_place {input : List UInt8} {s t : Thread}
    (hguard : ∀ s ∈ before, t.Behind s → m.Covers nested before s.rewound) (hs : s ∈ before)
    (hon : s.On input) (ht : t.On input) (hindex : s.index = t.index)
    (hconsumed : s.consumed = t.consumed) : m.Covers nested before t := by
  have hrest : s.rest = t.rest := by rw [hon, ht, hconsumed]
  obtain ⟨i, c, rest, stalled⟩ := s
  obtain ⟨i', c', rest', stalled'⟩ := t
  obtain ⟨rfl, rfl, rfl⟩ : i = i' ∧ c = c' ∧ rest = rest' := ⟨hindex, hconsumed, hrest⟩
  by_cases hle : stalled ≤ stalled'
  · exact fun steps hsteps => ⟨_, hs, hsteps.of_stalled_le hle⟩
  · intro steps hsteps
    exact hguard _ hs (.inr ⟨rfl, Nat.not_le.1 hle⟩) steps (hsteps.of_stalled_le (Nat.zero_le _))

/-- The queue drops threads that are covered, and what it keeps of guarded threads is guarded. -/
theorem Thins.enqueue {input : List UInt8} {kept : List Thread}
    (h : m.Thins nested before full thin) (hbefore : ∀ t ∈ before, t.On input)
    (hthin : ∀ t ∈ thin, t.On input) (hguard : m.Guarded nested before thin)
    (hsub : kept ⊆ before) (hkept : ∀ t ∈ before, m.Covers nested kept t) :
    ∃ thin', thin.foldl (Queue.enqueue m.code.size) kept = kept ++ thin' ∧
      m.Thins nested kept (full.filter (·.stalled ≤ m.code.size)) thin' ∧
      m.Guarded nested kept thin' := by
  induction h generalizing kept with
  | nil => exact ⟨[], by simp, .nil, trivial⟩
  | @keep before full thin t _ ih =>
    obtain ⟨ht, hguard⟩ := hguard
    have hbefore' : ∀ s ∈ before ++ [t], s.On input := by
      intro s hs
      rcases List.mem_append.1 hs with hs | hs
      · exact hbefore s hs
      · exact hthin s (by simp_all)
    have hthin' : ∀ s ∈ thin, s.On input := fun s hs => hthin s (by simp [hs])
    have hsub' : kept ⊆ before ++ [t] := List.Subset.trans hsub (List.subset_append_left _ _)
    have hwith {us : List Thread} (hus : kept ⊆ us) (hcovers : m.Covers nested us t) :
        ∀ s ∈ before ++ [t], m.Covers nested us s := by
      intro s hs
      rcases List.mem_append.1 hs with hs | hs
      · exact (hkept s hs).subset hus
      · rwa [List.mem_singleton.1 hs]
    rw [List.foldl_cons, Queue.enqueue]
    by_cases hstalled : m.code.size < t.stalled
    · rw [if_pos (.inl hstalled), List.filter_cons_of_neg (by simpa using hstalled)]
      exact ih hbefore' hthin' hguard hsub'
        (hwith (fun _ hs => hs) (covers_of_stalled hstalled))
    · rw [List.filter_cons_of_pos (by simpa using hstalled)]
      by_cases hplace : ∃ s ∈ kept, s.index = t.index ∧ s.consumed = t.consumed
      · rw [if_pos (.inr hplace)]
        obtain ⟨s, hs, hindex, hconsumed⟩ := hplace
        have hcovers : m.Covers nested kept t :=
          (covers_of_place ht (hsub hs) (hbefore s (hsub hs)) (hthin t (by simp)) hindex
            hconsumed).trans hkept
        obtain ⟨thin', heq, hthins, hguarded⟩ :=
          ih hbefore' hthin' hguard hsub' (hwith (fun _ hs => hs) hcovers)
        exact ⟨thin', heq, .drop hcovers hthins, hguarded⟩
      · rw [if_neg (not_or.2 ⟨hstalled, hplace⟩)]
        have hnew : kept ++ [t] ⊆ before ++ [t] :=
          List.append_subset.2 ⟨hsub', List.subset_append_right _ _⟩
        obtain ⟨thin', heq, hthins, hguarded⟩ := ih hbefore' hthin' hguard hnew
          (hwith (List.subset_append_left _ _) (covers_of_mem (by simp)))
        refine ⟨t :: thin', by rw [heq, List.append_assoc]; rfl, .keep hthins, ?_, hguarded⟩
        exact fun s hs hbehind => (ht s (hsub hs) hbehind).trans hkept
  | @drop before full thin t covered _ ih =>
    obtain ⟨thin', heq, hthins, hguarded⟩ := ih hbefore hthin hguard hsub hkept
    refine ⟨thin', heq, ?_, hguarded⟩
    by_cases hstalled : t.stalled ≤ m.code.size
    · rw [List.filter_cons_of_pos (by simpa using hstalled)]
      exact .drop (covered.trans hkept) hthins
    · rwa [List.filter_cons_of_neg (by simpa using hstalled)]

end Thins

theorem Guarded.of_scan {before ts passed : List Thread} {found : Option Nat}
    (h : m.Guarded nested before ts) (hscan : m.scan nested ts = .ok (found, passed)) :
    m.Guarded nested before passed := by
  rcases (scan_eq_ok hscan).2 with ⟨rfl, -⟩ | ⟨t, rest, rfl, -⟩
  · exact h
  · exact (guarded_append.1 h).1

theorem generations_succ {fuel : Nat} {ts passed : List Thread} (hts : ts ≠ [])
    {matched : Option Nat} (hscan : m.scan nested ts = .ok (matched, passed))
    (found : Option Nat) :
    m.generations nested (fuel + 1) ts found =
      m.generations nested fuel
        ((passed.flatMap (m.made nested)).foldl (Queue.enqueue m.code.size) [])
        (matched.or found) := by
  rw [← (Queue.holds_empty.foldl_schedule m.code.size (passed.flatMap (m.made nested))).1,
    generations, if_neg (by simpa using hts), generation_eq, hscan]
  rfl

theorem generations_error_of_scan {fuel : Nat} {ts : List Thread} (hts : ts ≠ []) {e : MatchError}
    (hscan : m.scan nested ts = .error e) (found : Option Nat) :
    m.generations nested (fuel + 1) ts found = .error e := by
  rw [generations, if_neg (by simpa using hts), generation_eq, hscan]
  rfl

/-- One turn of both loops: the same thread matches, if any does, and what the loop that drops
threads is left with is still the other's without covered threads. -/
theorem Thins.turn {input : List UInt8} {full thin passed : List Thread} {matched : Option Nat}
    (hthins : m.Thins nested [] full thin) (hguard : m.Guarded nested [] thin)
    (hfull : ∀ t ∈ full, t.stalled ≤ m.code.size) (hon : ∀ t ∈ thin, t.On input)
    (hscan : m.scan nested full = .ok (matched, passed)) :
    ∃ passed' thin', m.scan nested thin = .ok (matched, passed') ∧
      (passed'.flatMap (m.made nested)).foldl (Queue.enqueue m.code.size) [] = thin' ∧
      m.Thins nested [] ((passed.flatMap (m.made nested)).filter (·.stalled ≤ m.code.size)) thin' ∧
      m.Guarded nested [] thin' ∧ (∀ u ∈ thin', u.On input) ∧
      ∀ u ∈ thin', ∃ t ∈ thin, u ∈ m.made nested t := by
  rcases hthins.scan (by simp) hfull with ⟨e, he, -⟩ | ⟨found, passed₁, passed', hok, hthin, hp⟩
  · simp [hscan] at he
  obtain ⟨rfl, rfl⟩ : matched = found ∧ passed = passed₁ := by
    simpa [hscan] using hok
  have hmade : ∀ u ∈ passed'.flatMap (m.made nested), ∃ t ∈ thin, u ∈ m.made nested t := by
    intro u hu
    obtain ⟨t, ht, hut⟩ := List.mem_flatMap.1 hu
    exact ⟨t, subset_of_scan hthin ht, hut⟩
  have hmadeOn : ∀ u ∈ passed'.flatMap (m.made nested), u.On input := by
    intro u hu
    obtain ⟨t, ht, hut⟩ := hmade u hu
    obtain ⟨j, taken, -, rfl⟩ := mem_made.1 hut
    exact (hon t ht).goTo j taken
  have hpassed := hp.flatMap_made (by simp) (scan_eq_ok hscan).1
    fun t ht => hfull t (subset_of_scan hscan ht)
  have hguarded := (hguard.of_scan hthin).flatMap_made (by simp) (scan_eq_ok hthin).1
  obtain ⟨thin', henqueue, hthins', hguard'⟩ := hpassed.enqueue (by simp) hmadeOn hguarded
    (List.Subset.refl []) (by simp)
  rw [List.nil_append] at henqueue
  have hmem : ∀ u ∈ thin', u ∈ passed'.flatMap (m.made nested) := by
    intro u hu
    exact ((Queue.mem_foldl_enqueue (henqueue ▸ hu)).resolve_left (by simp)).1
  exact ⟨passed', thin', hthin, henqueue, hthins', hguard', fun u hu => hmadeOn u (hmem u hu),
    fun u hu => hmade u (hmem u hu)⟩

/-- The loop that drops threads for others comes to what the loop comes to that drops none. -/
theorem FullLoop.generations_eq (hn : Prefixes nested) {input : List UInt8}
    {full thin : List Thread} {found : Option Nat} {r : MatchResult}
    (h : m.FullLoop nested full found r) (hthins : m.Thins nested [] full thin)
    (hguard : m.Guarded nested [] thin) (hfull : ∀ t ∈ full, t.stalled ≤ m.code.size)
    (hon : ∀ t ∈ thin, t.On input) {fuel : Nat} (hfuel : ∀ t ∈ thin, m.potential t ≤ fuel) :
    m.generations nested fuel thin found = r := by
  induction h generalizing thin fuel with
  | done =>
    cases hthins
    exact generations_nil fuel _
  | @error full found e generation =>
    have hscan : m.scan nested full = .error e := by
      rw [fullGeneration_eq] at generation
      rcases hs : m.scan nested full with e' | r
      · simpa [hs, Except.map] using generation
      · simp [hs, Except.map] at generation
    rcases hthins.scan (by simp) hfull with ⟨e', he, hthin⟩ | ⟨_, _, _, hok, -⟩
    · obtain rfl : e = e' := by simpa [hscan] using he
      have hne : thin ≠ [] := by
        rintro rfl
        cases hthin
      obtain ⟨fuel, rfl⟩ := exists_fuel hne (fun t ht => hfull t (hthins.subset ht)) hfuel
      exact generations_error_of_scan hne hthin found
    · simp [hscan] at hok
  | @turn full next found matched r left generation rest ih =>
    obtain ⟨passed, hscan, rfl⟩ := fullGeneration_eq_ok generation
    obtain ⟨passed', thin', hthin, henqueue, hthins', hguard', hon', hmade⟩ :=
      hthins.turn hguard hfull hon hscan
    have hnext : ∀ u ∈ (passed.flatMap (m.made nested)).filter (·.stalled ≤ m.code.size),
        u.stalled ≤ m.code.size :=
      fun u hu => of_decide_eq_true (List.mem_filter.1 hu).2
    by_cases hne : thin = []
    -- The loop that drops none goes on with threads that come to nothing.
    · subst hne
      obtain ⟨rfl, -⟩ : matched = none ∧ passed' = [] := by
        simpa [Machine.scan, eq_comm] using hthin
      obtain rfl : thin' = [] := List.eq_nil_iff_forall_not_mem.2 fun u hu => by
        simpa using hmade u hu
      have hzero : ∀ t ∈ ([] : List Thread), m.potential t ≤ 0 := by simp
      have hrest := ih hthins' hguard' hnext hon' hzero
      rw [generations_nil, Option.none_or] at hrest
      rw [generations_nil]
      exact hrest
    · obtain ⟨fuel, rfl⟩ := exists_fuel hne (fun t ht => hfull t (hthins.subset ht)) hfuel
      rw [generations_succ hne hthin, henqueue]
      refine ih hthins' hguard' hnext hon' fun u hu => ?_
      obtain ⟨t, ht, hut⟩ := hmade u hu
      have hless := potential_lt_of_mem_made hn (hfull t (hthins.subset ht)) hut
      exact Nat.le_of_lt_succ (Nat.lt_of_lt_of_le hless (hfuel t ht))

/-- The loop of a run finds what its threads find, one after the other. -/
theorem generations_firstOf (hn : Prefixes nested) {input : List UInt8} (fuel : Nat)
    {ts : List Thread} (hon : ∀ t ∈ ts, t.On input) (hguard : m.Guarded nested [] ts)
    (hstalled : ∀ t ∈ ts, t.stalled ≤ m.code.size) (hfuel : ∀ t ∈ ts, m.potential t ≤ fuel)
    {found r : Option Nat} (h : m.generations nested fuel ts found = .ok r) :
    (m.firstOf nested ts).orElse (.ok found) = .ok r := by
  obtain ⟨result, hloop⟩ := exists_fullLoop hn fuel hstalled hfuel found
  refine hloop.firstOf_eq hn hstalled ?_
  rw [← hloop.generations_eq hn (thins_refl [] ts) hguard hstalled hon hfuel, h]

end Machine
end LexicalPatterns
