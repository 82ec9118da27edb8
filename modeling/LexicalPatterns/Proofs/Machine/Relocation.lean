import LexicalPatterns.Proofs.Machine.DepthFirst

/-!
# Code at other places

Two machines run alike when the second has the code of the first at other places: `ρ` leads each
index of the first to its place in the second, different indices to different places, and jumps,
branches and references lead from places to places. Threads then differ in their index only, and a
queue drops the same ones. How many instructions there are matters only for giving threads up.
-/

namespace LexicalPatterns

/-- The action where `ρ` leads the target of a reference to its place. -/
def Action.relocate (ρ : Nat → Nat) : Action → Action
  | .reference target => .reference (target.map ρ)
  | action => action

def Instruction.relocate (ρ : Nat → Nat) (i : Instruction) : Instruction :=
  { i with action := i.action.relocate ρ }

def Thread.relocate (ρ : Nat → Nat) (t : Thread) : Thread := { t with index := ρ t.index }

def Step.relocate (ρ : Nat → Nat) : Step → Step
  | .matched => .matched
  | .threads next => .threads (next.map (Thread.relocate ρ))

theorem Action.relocate_id (a : Action) : a.relocate id = a := by
  cases a with
  | reference target => cases target <;> rfl
  | _ => rfl

theorem Instruction.relocate_id : Instruction.relocate id = id := by
  funext i
  exact congrArg (Instruction.mk · i.movement) i.action.relocate_id

theorem Instruction.accepts_relocate (ρ : Nat → Nat) (i : Instruction) (b : UInt8) :
    (i.relocate ρ).accepts b = i.accepts b := by
  obtain ⟨action, movement⟩ := i
  cases action <;> rfl

theorem Thread.relocate_id : Thread.relocate id = id := rfl

theorem Thread.relocate_start (ρ : Nat → Nat) (index : Nat) (input : List UInt8) :
    (start index input).relocate ρ = start (ρ index) input := rfl

theorem Thread.relocate_advance {ρ : Nat → Nat} {t : Thread} {movement : Int}
    (h : ρ (moved t.index movement) = moved (ρ t.index) movement) (taken : Nat) :
    (t.advance taken movement).relocate ρ = (t.relocate ρ).advance taken movement := by
  simp [relocate, advance, h]

theorem Thread.relocate_fork {ρ : Nat → Nat} {t : Thread} {offset : Nat}
    (h : ρ (t.index + offset) = ρ t.index + offset) :
    (t.fork offset).relocate ρ = (t.relocate ρ).fork offset := by
  simp [relocate, fork, h]

theorem Queue.enqueue_relocate {ρ : Nat → Nat} {maxStalled maxStalled' : Nat} {ts : List Thread}
    {t : Thread} (hstalled : maxStalled < t.stalled ↔ maxStalled' < t.stalled)
    (hinj : ∀ s ∈ ts, ρ s.index = ρ t.index → s.index = t.index) :
    enqueue maxStalled' (ts.map (Thread.relocate ρ)) (t.relocate ρ) =
      (enqueue maxStalled ts t).map (Thread.relocate ρ) := by
  have hplace : (∃ s ∈ ts.map (Thread.relocate ρ), s.index = ρ t.index ∧
      s.consumed = t.consumed) ↔ ∃ s ∈ ts, s.index = t.index ∧ s.consumed = t.consumed := by
    constructor
    · rintro ⟨_, hmem, hindex, hconsumed⟩
      obtain ⟨s, hs, rfl⟩ := List.mem_map.1 hmem
      exact ⟨s, hs, hinj s hs hindex, hconsumed⟩
    · rintro ⟨s, hs, hindex, hconsumed⟩
      exact ⟨s.relocate ρ, List.mem_map_of_mem hs, congrArg ρ hindex, hconsumed⟩
  have hcond : (maxStalled' < (t.relocate ρ).stalled ∨ ∃ s ∈ ts.map (Thread.relocate ρ),
      s.index = (t.relocate ρ).index ∧ s.consumed = (t.relocate ρ).consumed) ↔
        (maxStalled < t.stalled ∨ ∃ s ∈ ts, s.index = t.index ∧ s.consumed = t.consumed) :=
    or_congr hstalled.symm hplace
  unfold enqueue
  by_cases h : maxStalled < t.stalled ∨ ∃ s ∈ ts, s.index = t.index ∧ s.consumed = t.consumed
  · rw [if_pos h, if_pos (hcond.2 h)]
  · rw [if_neg h, if_neg (mt hcond.1 h), List.map_append]
    rfl

namespace Machine

/-- Whether a machine has the code of another at the places where `ρ` leads, as far as runs from the
indices in `entry` come. The threads of such runs satisfy `inv`, which may depend on how references
are run. -/
structure Relocates (m m' : Machine) (ρ : Nat → Nat) (entry : Nat → Prop)
    (inv : (Nat → List UInt8 → MatchResult) → Thread → Prop) : Prop where
  limit : m.recursionLimit = m'.recursionLimit
  size_le : m.code.size ≤ m'.code.size
  start : ∀ levels start input, entry start → inv (m.runAt levels) (.start start input)
  code : ∀ nested t, inv nested t →
    m'.code[ρ t.index]? = m.code[t.index]?.map (Instruction.relocate ρ)
  jump : ∀ nested t action movement, inv nested t →
    m.code[t.index]? = some ⟨action, movement⟩ → action ≠ .terminal →
      (∀ count, action ≠ .branch count) →
        ρ (Thread.moved t.index movement) = Thread.moved (ρ t.index) movement
  fork : ∀ nested t count movement offset, inv nested t →
    m.code[t.index]? = some ⟨.branch count, movement⟩ → 1 ≤ offset → offset ≤ count →
      ρ (t.index + offset) = ρ t.index + offset
  target : ∀ nested t target movement, inv nested t →
    m.code[t.index]? = some ⟨.reference (some target), movement⟩ → entry target
  move : ∀ nested t j taken, inv nested t → m.Moves nested t.index t.rest j taken →
    inv nested (t.goTo j taken)
  stalled : ∀ nested t, inv nested t → (m.code.size < t.stalled ↔ m'.code.size < t.stalled)
  injective : ∀ nested t u, inv nested t → inv nested u → ρ t.index = ρ u.index →
    t.index = u.index

variable {m m' : Machine} {ρ : Nat → Nat} {entry : Nat → Prop}
  {inv : (Nat → List UInt8 → MatchResult) → Thread → Prop}
  {nested nested' : Nat → List UInt8 → MatchResult}

theorem step_of_isByte {t : Thread} {i : Instruction} (code : m.code[t.index]? = some i)
    (h : i.action.isByte) :
    m.step nested t =
      .ok (.threads (if t.rest.head?.any i.accepts then [t.advance 1 i.movement] else [])) := by
  obtain ⟨action, movement⟩ := i
  rw [step, code]
  cases action with
  | literal _ | range _ _ => cases t.rest <;> rfl
  | _ => simp [Action.isByte] at h

theorem Relocates.step_eq (h : m.Relocates m' ρ entry inv)
    (hnested : ∀ start input, entry start → nested' (ρ start) input = nested start input)
    {t : Thread} (ht : inv nested t) :
    m'.step nested' (t.relocate ρ) = (m.step nested t).map (Step.relocate ρ) := by
  have hcode : m'.code[(t.relocate ρ).index]? = m.code[t.index]?.map (Instruction.relocate ρ) :=
    h.code nested t ht
  cases code : m.code[t.index]? with
  | none =>
    rw [step, step, hcode, code]
    rfl
  | some i =>
    obtain ⟨action, movement⟩ := i
    rw [code] at hcode
    have hjump (hterminal : action ≠ .terminal) (hbranch : ∀ count, action ≠ .branch count)
        (taken : Nat) :
        (t.advance taken movement).relocate ρ = (t.relocate ρ).advance taken movement :=
      Thread.relocate_advance (h.jump nested t action movement ht code hterminal hbranch) taken
    have hbyte (hisByte : action.isByte) (hterminal : action ≠ .terminal)
        (hbranch : ∀ count, action ≠ .branch count) :
        m'.step nested' (t.relocate ρ) = (m.step nested t).map (Step.relocate ρ) := by
      have hisByte' : (Instruction.relocate ρ ⟨action, movement⟩).action.isByte := by
        cases action <;> exact hisByte
      have haccepts : (Instruction.relocate ρ ⟨action, movement⟩).accepts =
          Instruction.accepts ⟨action, movement⟩ := funext (Instruction.accepts_relocate ρ _)
      rw [step_of_isByte hcode hisByte', step_of_isByte code hisByte, haccepts]
      change Except.ok (Step.threads (if t.rest.head?.any _ then
        [(t.relocate ρ).advance 1 movement] else [])) = _
      rw [← hjump hterminal hbranch]
      split <;> rfl
    cases action with
    | literal b => exact hbyte rfl (by simp) (by simp)
    | range low high => exact hbyte rfl (by simp) (by simp)
    | terminal =>
      rw [step, step, hcode, code]
      rfl
    | empty =>
      rw [step, step, hcode, code]
      exact congrArg (fun u => Except.ok (Step.threads [u])) (hjump (by simp) (by simp) 0).symm
    | branch count =>
      have hforks : (List.range' 1 count).map (t.relocate ρ).fork =
          ((List.range' 1 count).map t.fork).map (Thread.relocate ρ) := by
        rw [List.map_map]
        apply List.map_congr_left
        intro offset hoffset
        rw [List.mem_range'_1] at hoffset
        exact (Thread.relocate_fork
          (h.fork nested t count movement offset ht code (by omega) (by omega))).symm
      rw [step, step, hcode, code]
      exact congrArg (fun us => Except.ok (Step.threads us)) hforks
    | reference target =>
      rw [step, step, hcode, code]
      cases target with
      | none => rfl
      | some target =>
        have hrun : nested' (ρ target) (t.relocate ρ).rest = nested target t.rest :=
          hnested target t.rest (h.target nested t target movement ht code)
        simp only [Instruction.relocate, Action.relocate, Option.map_some, hrun]
        rcases nested target t.rest with e | _ | taken
        · rfl
        · rfl
        · exact congrArg (fun u => Except.ok (Step.threads [u]))
            (hjump (by simp) (by simp) taken).symm

theorem Relocates.foldl_enqueue_eq (h : m.Relocates m' ρ entry inv) {ts us : List Thread}
    (hts : ∀ t ∈ ts, inv nested t) (hus : ∀ u ∈ us, inv nested u) :
    (us.map (Thread.relocate ρ)).foldl (Queue.enqueue m'.code.size)
        (ts.map (Thread.relocate ρ)) =
      (us.foldl (Queue.enqueue m.code.size) ts).map (Thread.relocate ρ) := by
  induction us generalizing ts with
  | nil => rfl
  | cons u us ih =>
    have hu := hus u (by simp)
    have hstep := Queue.enqueue_relocate (h.stalled nested u hu)
      fun s hs => h.injective nested s u (hts s hs) hu
    rw [List.map_cons, List.foldl_cons, List.foldl_cons, hstep]
    refine ih (fun t ht => ?_) fun v hv => hus v (by simp [hv])
    have hmem := @Queue.mem_foldl_enqueue m.code.size ts [u] t (by simpa using ht)
    rcases hmem with ht | ⟨ht, -⟩
    · exact hts t ht
    · exact List.mem_singleton.1 ht ▸ hu

theorem Relocates.generation_eq (h : m.Relocates m' ρ entry inv)
    (hnested : ∀ start input, entry start → nested' (ρ start) input = nested start input)
    {ts qs : List Thread} (hts : ∀ t ∈ ts, inv nested t) {q q' : Queue} (hq : q.Holds qs)
    (hq' : q'.Holds (qs.map (Thread.relocate ρ))) (hqs : ∀ t ∈ qs, inv nested t) :
    (m'.generation nested' (ts.map (Thread.relocate ρ)) q').map
        (fun r => (r.1, r.2.threads.toList)) =
      (m.generation nested ts q).map
        (fun r => (r.1, r.2.threads.toList.map (Thread.relocate ρ))) := by
  induction ts generalizing q q' qs with
  | nil => simp [generation, Except.map, hq.1, hq'.1]
  | cons t ts ih =>
    have ht := hts t (by simp)
    rw [List.map_cons, generation, generation, h.step_eq hnested ht]
    rcases hs : m.step nested t with e | _ | next
    · rfl
    · simp [Except.map, Step.relocate, bind, Except.bind, pure, Except.pure, hq.1, hq'.1]
      rfl
    · have hnext : ∀ u ∈ next, inv nested u := by
        intro u hu
        obtain ⟨j, taken, hm, rfl⟩ := (mem_of_step hs).1 hu
        exact h.move nested t j taken ht hm
      have hholds' := hq'.foldl_schedule m'.code.size (next.map (Thread.relocate ρ))
      rw [h.foldl_enqueue_eq hqs hnext] at hholds'
      refine ih (fun u hu => hts u (by simp [hu])) (hq.foldl_schedule m.code.size next) hholds' ?_
      intro u hu
      rcases Queue.mem_foldl_enqueue hu with hu | ⟨hu, -⟩
      · exact hqs u hu
      · exact hnext u hu

theorem Relocates.generations_eq (h : m.Relocates m' ρ entry inv) (hn : Prefixes nested)
    (hnested : ∀ start input, entry start → nested' (ρ start) input = nested start input)
    {ts : List Thread} (hts : ∀ t ∈ ts, inv nested t)
    (hstalled : ∀ t ∈ ts, t.stalled ≤ m.code.size)
    {fuel fuel' : Nat} (hfuel : ∀ t ∈ ts, m.potential t ≤ fuel)
    (hfuel' : ∀ t ∈ ts, m.potential t ≤ fuel') (found : Option Nat) :
    m'.generations nested' fuel' (ts.map (Thread.relocate ρ)) found =
      m.generations nested fuel ts found := by
  -- Neither machine runs out of generations, so their numbers need not be the same.
  induction fuel generalizing ts fuel' found with
  | zero =>
    obtain rfl := eq_nil_of_potential hstalled hfuel
    rw [List.map_nil, generations_nil, generations_nil]
  | succ fuel ih =>
    rcases ts with _ | ⟨t, ts⟩
    · rw [List.map_nil, generations_nil, generations_nil]
    · obtain ⟨fuel', rfl⟩ : ∃ f, fuel' = f + 1 := by
        have := potential_pos (hstalled t (by simp))
        have := hfuel' t (by simp)
        exact ⟨fuel' - 1, by omega⟩
      have hgeneration := h.generation_eq hnested hts Queue.holds_empty Queue.holds_empty (by simp)
      rw [List.map_cons] at hgeneration ⊢
      rw [generations, generations]
      rcases hg : m.generation nested (t :: ts) .empty with e | ⟨matched, q⟩
      · rcases hg' : m'.generation nested' (t.relocate ρ :: ts.map (Thread.relocate ρ)) .empty with
          e' | ⟨matched', q'⟩
        · obtain rfl : e' = e := by simpa [hg, hg', Except.map] using hgeneration
          rfl
        · simp [hg, hg', Except.map] at hgeneration
      · rcases hg' : m'.generation nested' (t.relocate ρ :: ts.map (Thread.relocate ρ)) .empty with
          e' | ⟨matched', q'⟩
        · simp [hg, hg', Except.map] at hgeneration
        · obtain ⟨rfl, hthreads⟩ : matched' = matched ∧
              q'.threads.toList = q.threads.toList.map (Thread.relocate ρ) := by
            simpa [hg, hg', Except.map] using hgeneration
          have hq : ∀ u ∈ q.threads.toList, inv nested u := by
            intro u hu
            obtain ⟨s, hs, hmade, -⟩ := mem_of_generation hg hu
            obtain ⟨j, taken, hm, rfl⟩ := mem_made.1 hmade
            exact h.move nested s j taken (hts s hs) hm
          have hrest := ih hq (stalled_of_generation hg)
            (potential_of_generation hn hg hstalled hfuel)
            (potential_of_generation hn hg hstalled hfuel') (matched'.or found)
          rw [← hthreads] at hrest
          exact hrest

/-- A run from an index gives what the run from its other place gives, whatever the result. -/
theorem Relocates.runAt_eq (h : m.Relocates m' ρ entry inv) (levels : Nat) {start : Nat}
    (hstart : entry start) (input : List UInt8) :
    m'.runAt levels (ρ start) input = m.runAt levels start input := by
  induction levels generalizing start input with
  | zero => rw [runAt, runAt, h.limit]
  | succ levels ih =>
    rw [runAt, runAt, ← Thread.relocate_start]
    change m'.generations _ _ ([Thread.start start input].map (Thread.relocate ρ)) none = _
    refine h.generations_eq (m.prefixes_runAt levels) (fun _ _ hs => ih hs _) ?_ ?_ ?_ ?_ none
    · simpa using h.start levels start input hstart
    · simp [Thread.start]
    · simpa using m.potential_start_le start input
    · have hmore : m.maxGenerations input ≤ m'.maxGenerations input :=
        Nat.mul_le_mul_right _ (Nat.succ_le_succ h.size_le)
      simpa using Nat.le_trans (m.potential_start_le start input) hmore

end Machine
end LexicalPatterns
