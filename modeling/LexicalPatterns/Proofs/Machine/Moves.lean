import LexicalPatterns.Proofs.Machine.Backtrack

/-!
# Moves

What one instruction can do at a place of the input, apart from the threads that do it: it moves on
to other instructions and consumes bytes, or it decides the search there. Everything that threads do
is a move, so facts about searches are facts about moves.
-/

namespace LexicalPatterns

def Action.isByte : Action → Bool
  | literal _ | range _ _ => true
  | _ => false

namespace Machine

/-- One step from index `i` before the text `rest` to index `j`, which consumes some bytes. -/
inductive Moves (m : Machine) (nested : Nat → List UInt8 → MatchResult) :
    (i : Nat) → (rest : List UInt8) → (j taken : Nat) → Prop
  | branch {i count offset : Nat} {movement : Int} {rest : List UInt8}
      (code : m.code[i]? = some ⟨.branch count, movement⟩)
      (pos : 1 ≤ offset) (le : offset ≤ count) :
      Moves m nested i rest (i + offset) 0
  | jump {i : Nat} {movement : Int} {rest : List UInt8}
      (code : m.code[i]? = some ⟨.empty, movement⟩) :
      Moves m nested i rest (Thread.moved i movement) 0
  | byte {i : Nat} {instruction : Instruction} {b : UInt8} {rest : List UInt8}
      (code : m.code[i]? = some instruction) (next : rest.head? = some b)
      (accepts : instruction.accepts b = true) :
      Moves m nested i rest (Thread.moved i instruction.movement) 1
  | reference {i target taken : Nat} {movement : Int} {rest : List UInt8}
      (code : m.code[i]? = some ⟨.reference (some target), movement⟩)
      (matched : nested target rest = .ok (some taken)) :
      Moves m nested i rest (Thread.moved i movement) taken

/-- The result of an instruction that ends the search of its thread, with `consumed` bytes. -/
inductive Decides (m : Machine) (nested : Nat → List UInt8 → MatchResult) :
    (i consumed : Nat) → (rest : List UInt8) → MatchResult → Prop
  | terminal {i consumed : Nat} {movement : Int} {rest : List UInt8}
      (code : m.code[i]? = some ⟨.terminal, movement⟩) :
      Decides m nested i consumed rest (.ok (some consumed))
  | refused {i consumed target : Nat} {movement : Int} {rest : List UInt8} {e : MatchError}
      (code : m.code[i]? = some ⟨.reference (some target), movement⟩)
      (error : nested target rest = .error e) :
      Decides m nested i consumed rest (.error e)

variable {m : Machine} {nested : Nat → List UInt8 → MatchResult}

theorem Moves.lt_size {i j taken : Nat} {rest : List UInt8}
    (h : m.Moves nested i rest j taken) : i < m.code.size := by
  cases h <;> exact (Array.getElem?_eq_some_iff.1 ‹_›).1

theorem Decides.lt_size {i consumed : Nat} {rest : List UInt8} {v : MatchResult}
    (h : m.Decides nested i consumed rest v) : i < m.code.size := by
  cases h <;> exact (Array.getElem?_eq_some_iff.1 ‹_›).1

theorem Moves.taken_le (hn : Prefixes nested) {i j taken : Nat} {rest : List UInt8}
    (h : m.Moves nested i rest j taken) : taken ≤ rest.length := by
  cases h with
  | branch => exact Nat.zero_le _
  | jump => exact Nat.zero_le _
  | byte _ next => cases rest <;> simp_all
  | reference _ matched => exact hn matched

section Instructions

variable {i j taken consumed : Nat} {rest : List UInt8} {movement : Int} {v : MatchResult}

theorem not_moves_outside (code : m.code[i]? = none) : ¬ m.Moves nested i rest j taken := by
  intro h
  cases h <;> simp_all

theorem not_decides_outside (code : m.code[i]? = none) :
    ¬ m.Decides nested i consumed rest v := by
  intro h
  cases h <;> simp_all

theorem not_moves_terminal (code : m.code[i]? = some ⟨.terminal, movement⟩) :
    ¬ m.Moves nested i rest j taken := by
  intro h
  cases h <;> grind [Instruction.accepts]

theorem moves_jump (code : m.code[i]? = some ⟨.empty, movement⟩) :
    m.Moves nested i rest j taken ↔ j = Thread.moved i movement ∧ taken = 0 := by
  constructor
  · intro h
    cases h <;> grind [Instruction.accepts]
  · rintro ⟨rfl, rfl⟩
    exact .jump code

theorem moves_branch {count : Nat} (code : m.code[i]? = some ⟨.branch count, movement⟩) :
    m.Moves nested i rest j taken ↔
      (∃ offset, (1 ≤ offset ∧ offset ≤ count) ∧ j = i + offset) ∧ taken = 0 := by
  constructor
  · intro h
    cases h with
    | branch code' pos le =>
      obtain ⟨rfl, -⟩ : _ = count ∧ _ = movement := by simpa using code'.symm.trans code
      exact ⟨⟨_, ⟨pos, le⟩, rfl⟩, rfl⟩
    | _ => grind [Instruction.accepts]
  · rintro ⟨⟨offset, ⟨pos, le⟩, rfl⟩, rfl⟩
    exact .branch code pos le

theorem moves_reference {target : Option Nat}
    (code : m.code[i]? = some ⟨.reference target, movement⟩) :
    m.Moves nested i rest j taken ↔
      (∃ start, target = some start ∧ nested start rest = .ok (some taken)) ∧
        j = Thread.moved i movement := by
  constructor
  · intro h
    cases h <;> grind [Instruction.accepts]
  · rintro ⟨⟨start, rfl, matched⟩, rfl⟩
    exact .reference code matched

theorem moves_byte {instruction : Instruction} (code : m.code[i]? = some instruction)
    (h : instruction.action.isByte) :
    m.Moves nested i rest j taken ↔
      (∃ b, rest.head? = some b ∧ instruction.accepts b) ∧
        j = Thread.moved i instruction.movement ∧ taken = 1 := by
  constructor
  · intro hm
    cases hm <;> grind [Action.isByte]
  · rintro ⟨⟨b, next, accepts⟩, rfl, rfl⟩
    exact .byte code next accepts

theorem not_decides {instruction : Instruction} (code : m.code[i]? = some instruction)
    (h : instruction.action ≠ .terminal)
    (hr : ∀ start, instruction.action = .reference (some start) →
      ∀ e, nested start rest ≠ .error e) :
    ¬ m.Decides nested i consumed rest v := by
  intro hd
  cases hd <;> grind

theorem not_decides_byte {instruction : Instruction} (code : m.code[i]? = some instruction)
    (h : instruction.action.isByte) : ¬ m.Decides nested i consumed rest v := by
  apply not_decides code
  · intro h'
    simp [h', Action.isByte] at h
  · intro start h'
    simp [h', Action.isByte] at h

end Instructions

theorem step_byte {t : Thread} {instruction : Instruction}
    (code : m.code[t.index]? = some instruction) (h : instruction.action.isByte) :
    ∃ ts, m.step nested t = .ok (.threads ts) ∧
      (∀ v, ¬ m.Decides nested t.index t.consumed t.rest v) ∧
      ∀ u, u ∈ ts ↔ ∃ j taken, m.Moves nested t.index t.rest j taken ∧ u = t.goTo j taken := by
  have hd : ∀ v, ¬ m.Decides nested t.index t.consumed t.rest v :=
    fun v => not_decides_byte code h
  obtain ⟨action, movement⟩ := instruction
  cases hr : t.rest with
  | nil =>
    refine ⟨[], ?_, hr ▸ hd, fun u => by simp [moves_byte code h]⟩
    cases action <;> simp_all [step, Action.isByte]
  | cons b rest =>
    by_cases ha : Instruction.accepts ⟨action, movement⟩ b
    · refine ⟨[t.goTo (Thread.moved t.index movement) 1], ?_, hr ▸ hd, fun u => ?_⟩
      · cases action <;> simp_all [step, Action.isByte, Thread.advance_eq]
      · simp [moves_byte code h, ha, and_assoc]
    · refine ⟨[], ?_, hr ▸ hd, fun u => by simp [moves_byte code h, ha]⟩
      cases action <;> simp_all [step, Action.isByte]

/-- An instruction decides, or what it makes of a thread are its moves. -/
theorem step_cases (m : Machine) (nested : Nat → List UInt8 → MatchResult) (t : Thread) :
    (∃ e, m.step nested t = .error e ∧ m.Decides nested t.index t.consumed t.rest (.error e)) ∨
    (m.step nested t = .ok .matched ∧
      m.Decides nested t.index t.consumed t.rest (.ok (some t.consumed))) ∨
    (∃ ts, m.step nested t = .ok (.threads ts) ∧
      (∀ v, ¬ m.Decides nested t.index t.consumed t.rest v) ∧
      ∀ u, u ∈ ts ↔ ∃ j taken, m.Moves nested t.index t.rest j taken ∧ u = t.goTo j taken) := by
  cases code : m.code[t.index]? with
  | none =>
    exact .inr (.inr ⟨[], by simp [step, code], fun v => not_decides_outside code,
      fun u => by simp [not_moves_outside code]⟩)
  | some i =>
    obtain ⟨action, movement⟩ := i
    cases action with
    | terminal => exact .inr (.inl ⟨by simp [step, code], .terminal code⟩)
    | empty =>
      refine .inr (.inr ⟨_, by rw [step, code], fun v => not_decides code (by simp) (by simp),
        fun u => ?_⟩)
      simp only [List.mem_singleton, moves_jump code]
      constructor
      · rintro rfl
        exact ⟨_, 0, ⟨rfl, rfl⟩, rfl⟩
      · rintro ⟨_, _, ⟨rfl, rfl⟩, rfl⟩
        rfl
    | branch count =>
      refine .inr (.inr ⟨_, by rw [step, code], fun v => not_decides code (by simp) (by simp),
        fun u => ?_⟩)
      simp only [moves_branch code, List.mem_map, List.mem_range'_1, Thread.fork_eq]
      constructor
      · rintro ⟨offset, hoffset, rfl⟩
        exact ⟨_, 0, ⟨⟨offset, by omega, rfl⟩, rfl⟩, rfl⟩
      · rintro ⟨_, _, ⟨⟨offset, hoffset, rfl⟩, rfl⟩, rfl⟩
        exact ⟨offset, by omega, rfl⟩
    | literal b => exact .inr (.inr (step_byte code rfl))
    | range low high => exact .inr (.inr (step_byte code rfl))
    | reference target =>
      rcases target with _ | start
      · exact .inr (.inr ⟨[], by rw [step, code], fun v => not_decides code (by simp) (by simp),
          fun u => by simp [moves_reference code]⟩)
      · rcases hv : nested start t.rest with e | _ | taken
        · exact .inl ⟨e, by simp [step, code, hv, bind, Except.bind], .refused code hv⟩
        · refine .inr (.inr ⟨[], by simp [step, code, hv, bind, Except.bind, pure, Except.pure],
            fun v => not_decides code (by simp) ?_, fun u => ?_⟩)
          · rintro start ⟨⟩ e
            simp [hv]
          · simp [moves_reference code, hv]
        · refine .inr (.inr ⟨[t.goTo (Thread.moved t.index movement) taken],
            by simp [step, code, hv, bind, Except.bind, pure, Except.pure, Thread.advance_eq],
            fun v => not_decides code (by simp) ?_, fun u => ?_⟩)
          · rintro start ⟨⟩ e
            simp [hv]
          · simp only [List.mem_singleton, moves_reference code]
            constructor
            · rintro rfl
              exact ⟨_, _, ⟨⟨start, rfl, hv⟩, rfl⟩, rfl⟩
            · rintro ⟨_, taken', ⟨⟨start', ⟨⟩, hv'⟩, rfl⟩, rfl⟩
              obtain rfl : taken = taken' := by simpa using hv.symm.trans hv'
              rfl

theorem Decides.not_moves {i consumed j taken : Nat} {rest : List UInt8} {v : MatchResult}
    (h : m.Decides nested i consumed rest v) : ¬ m.Moves nested i rest j taken := by
  cases h with
  | terminal code => exact not_moves_terminal code
  | refused code error => simp [moves_reference code, error]

theorem Decides.unique {i consumed : Nat} {rest : List UInt8} {v v' : MatchResult}
    (h : m.Decides nested i consumed rest v) (h' : m.Decides nested i consumed rest v') :
    v = v' := by
  cases h <;> cases h' <;> simp_all

/-- The threads that an instruction makes of a thread. -/
def made (m : Machine) (nested : Nat → List UInt8 → MatchResult) (t : Thread) : List Thread :=
  match m.step nested t with
  | .ok (.threads ts) => ts
  | _ => []

theorem made_of_step {t : Thread} {ts : List Thread} (h : m.step nested t = .ok (.threads ts)) :
    m.made nested t = ts := by
  unfold made
  rw [h]

theorem mem_made {t u : Thread} :
    u ∈ m.made nested t ↔
      ∃ j taken, m.Moves nested t.index t.rest j taken ∧ u = t.goTo j taken := by
  rcases m.step_cases nested t with ⟨e, hs, hd⟩ | ⟨hs, hd⟩ | ⟨ts, hs, -, hts⟩
  · simp [made, hs, hd.not_moves]
  · simp [made, hs, hd.not_moves]
  · rw [made_of_step hs]
    exact hts u

theorem mem_of_step {t u : Thread} {ts : List Thread} (h : m.step nested t = .ok (.threads ts)) :
    u ∈ ts ↔ ∃ j taken, m.Moves nested t.index t.rest j taken ∧ u = t.goTo j taken := by
  rw [← made_of_step h, mem_made]

theorem exists_of_first {t : Thread} {ts : List Thread} {v : MatchResult}
    (hs : m.step nested t = .ok (.threads ts))
    (h : MatchResult.first (ts.map (m.backtrack nested)) = v) (hv : v ≠ .ok none) :
    ∃ j taken, m.Moves nested t.index t.rest j taken ∧
      m.backtrack nested (t.goTo j taken) = v := by
  obtain ⟨u, hu, hfound⟩ := List.mem_map.1 (MatchResult.mem_of_first h hv)
  obtain ⟨j, taken, hm, rfl⟩ := (mem_of_step hs).1 hu
  exact ⟨j, taken, hm, hfound⟩

theorem terminal_of_step {t : Thread} (h : m.step nested t = .ok .matched) :
    ∃ movement, m.code[t.index]? = some ⟨.terminal, movement⟩ := by
  rcases m.step_cases nested t with ⟨e, hs, -⟩ | ⟨-, hd⟩ | ⟨ts, hs, -⟩
  · simp [hs] at h
  · cases hd with
    | terminal code => exact ⟨_, code⟩
  · simp [hs] at h

theorem potential_lt_of_mem_made (hn : Prefixes nested) {t u : Thread}
    (h : t.stalled ≤ m.code.size) (hu : u ∈ m.made nested t) : m.potential u < m.potential t := by
  obtain ⟨j, taken, hm, rfl⟩ := mem_made.1 hu
  exact m.potential_goTo_lt h j (hm.taken_le hn)

/-- A search is given up, ends with an instruction, or goes on with moves, so that what holds of the
searches after the moves of a thread may be used for the search from it. -/
theorem backtrack_induction {P : Thread → MatchResult → Prop} (hn : Prefixes nested)
    (stalled : ∀ t, m.code.size < t.stalled → P t (.ok none))
    (error : ∀ t e, t.stalled ≤ m.code.size → m.step nested t = .error e → P t (.error e))
    (matched : ∀ t, t.stalled ≤ m.code.size → m.step nested t = .ok .matched →
      P t (.ok (some t.consumed)))
    (threads : ∀ t ts, t.stalled ≤ m.code.size → m.step nested t = .ok (.threads ts) →
      (∀ j taken, m.Moves nested t.index t.rest j taken →
        P (t.goTo j taken) (m.backtrack nested (t.goTo j taken))) →
      P t (.first (ts.map (m.backtrack nested))))
    (t : Thread) : P t (m.backtrack nested t) := by
  by_cases hlt : m.code.size < t.stalled
  · rw [backtrack_of_stalled hlt]
    exact stalled t hlt
  · have hle : t.stalled ≤ m.code.size := Nat.not_lt.1 hlt
    rw [backtrack_eq_step hn hle]
    rcases hs : m.step nested t with e | _ | ts
    · exact error t e hle hs
    · exact matched t hle hs
    · apply threads t ts hle hs
      intro j taken hm
      have hless := m.potential_goTo_lt hle j (hm.taken_le hn)
      exact backtrack_induction hn stalled error matched threads (t.goTo j taken)
termination_by m.potential t

/-- Nothing is found from a thread when its instruction does not decide and nothing is found after
any of its moves. -/
theorem backtrack_eq_none_iff (hn : Prefixes nested) {t : Thread} (h : t.stalled ≤ m.code.size) :
    m.backtrack nested t = .ok none ↔
      (∀ v, ¬ m.Decides nested t.index t.consumed t.rest v) ∧
        ∀ j taken, m.Moves nested t.index t.rest j taken →
          m.backtrack nested (t.goTo j taken) = .ok none := by
  rw [backtrack_eq_step hn h]
  rcases m.step_cases nested t with ⟨e, hs, hd⟩ | ⟨hs, hd⟩ | ⟨ts, hs, hd, hts⟩
  · simp only [hs, reduceCtorEq, false_iff, not_and]
    intro hno
    exact absurd hd (hno _)
  · simp only [hs, Except.ok.injEq, reduceCtorEq, false_iff, not_and]
    intro hno
    exact absurd hd (hno _)
  · simp only [hs, MatchResult.first_map_eq_none, hts]
    constructor
    · intro hu
      exact ⟨hd, fun j taken hm => hu _ ⟨j, taken, hm, rfl⟩⟩
    · rintro ⟨-, hu⟩ _ ⟨j, taken, hm, rfl⟩
      exact hu j taken hm

end Machine
end LexicalPatterns
