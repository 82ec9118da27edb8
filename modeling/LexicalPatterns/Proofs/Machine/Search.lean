import LexicalPatterns.Proofs.Machine.Reachable

/-!
# Searches that end by themselves

The result of a search without a bound on its steps, where there is one: a derivation is finite, so
no way from its start goes round without consuming a byte. On such ways threads are never given up.
A thread that has not been at the same instruction before, at its place of the input, is `Fresh`,
and it stays so with every move.
-/

namespace LexicalPatterns

namespace MatchResult

theorem first_map_eq_of_mem_iff {α : Type} {xs : List α} {x : α} (h : ∀ y, y ∈ xs ↔ y = x)
    (f : α → MatchResult) : first (xs.map f) = f x := by
  have hx : x ∈ xs := (h x).2 rfl
  by_cases hf : f x = .ok none
  · rw [hf, first_map_eq_none]
    intro y hy
    exact (h y).1 hy ▸ hf
  · have hmem : first (xs.map f) ∈ xs.map f := by
      refine mem_of_first rfl fun hnone => hf ?_
      exact first_map_eq_none.1 hnone x hx
    obtain ⟨y, hy, hfy⟩ := List.mem_map.1 hmem
    rw [← hfy, (h y).1 hy]

end MatchResult

namespace Machine

/-- What a search finds from an index, after `consumed` bytes and before the text `rest`, where no
path is given up. -/
inductive Finds (m : Machine) (nested : Nat → List UInt8 → MatchResult) :
    (i consumed : Nat) → (rest : List UInt8) → MatchResult → Prop
  | decides {i consumed : Nat} {rest : List UInt8} {v : MatchResult}
      (h : m.Decides nested i consumed rest v) : Finds m nested i consumed rest v
  | stuck {i consumed : Nat} {rest : List UInt8}
      (decides : ∀ v, ¬ m.Decides nested i consumed rest v)
      (moves : ∀ j taken, ¬ m.Moves nested i rest j taken) :
      Finds m nested i consumed rest (.ok none)
  | moves {i consumed j taken : Nat} {rest : List UInt8} {v : MatchResult}
      (moves : ∀ j' taken', m.Moves nested i rest j' taken' ↔ j' = j ∧ taken' = taken)
      (next : Finds m nested j (consumed + taken) (rest.drop taken) v) :
      Finds m nested i consumed rest v
  | branch {i consumed : Nat} {movement : Int} {rest : List UInt8} {vs : List MatchResult}
      (code : m.code[i]? = some ⟨.branch vs.length, movement⟩)
      (each : ∀ k v, vs[k]? = some v → Finds m nested (i + 1 + k) consumed rest v) :
      Finds m nested i consumed rest (.first vs)

variable {m : Machine} {nested : Nat → List UInt8 → MatchResult}

section Instructions

variable {i consumed : Nat} {rest : List UInt8} {movement : Int} {v : MatchResult}

theorem Finds.jump (code : m.code[i]? = some ⟨.empty, movement⟩)
    (next : m.Finds nested (Thread.moved i movement) consumed rest v) :
    m.Finds nested i consumed rest v :=
  .moves (fun _ _ => moves_jump code) (by simpa using next)

theorem Finds.byte {instruction : Instruction} {b : UInt8}
    (code : m.code[i]? = some instruction) (h : instruction.action.isByte)
    (accepts : instruction.accepts b)
    (next : m.Finds nested (Thread.moved i instruction.movement) (consumed + 1) rest v) :
    m.Finds nested i consumed (b :: rest) v := by
  have hm : ∀ j taken, m.Moves nested i (b :: rest) j taken ↔
      j = Thread.moved i instruction.movement ∧ taken = 1 := by
    simp [moves_byte code h, accepts]
  exact .moves hm next

theorem Finds.no_byte {instruction : Instruction} (code : m.code[i]? = some instruction)
    (h : instruction.action.isByte) (no : ∀ b, rest.head? = some b → ¬ instruction.accepts b) :
    m.Finds nested i consumed rest (.ok none) := by
  refine .stuck (fun v => not_decides_byte code h) fun j taken => ?_
  rw [moves_byte code h]
  rintro ⟨⟨b, hb, ha⟩, -⟩
  exact no b hb ha

theorem Finds.reference_error {target : Nat} {e : MatchError}
    (code : m.code[i]? = some ⟨.reference (some target), movement⟩)
    (error : nested target rest = .error e) : m.Finds nested i consumed rest (.error e) :=
  .decides (.refused code error)

theorem Finds.reference_none {target : Option Nat}
    (code : m.code[i]? = some ⟨.reference target, movement⟩)
    (no : ∀ start, target = some start → nested start rest = .ok none) :
    m.Finds nested i consumed rest (.ok none) := by
  refine .stuck (fun v => not_decides code (by simp) ?_) fun j taken => ?_
  · rintro start h
    simp [no start (by simpa using h)]
  · rw [moves_reference code]
    rintro ⟨⟨start, rfl, matched⟩, -⟩
    simp [no start rfl] at matched

theorem Finds.reference {target taken : Nat}
    (code : m.code[i]? = some ⟨.reference (some target), movement⟩)
    (matched : nested target rest = .ok (some taken))
    (next : m.Finds nested (Thread.moved i movement) (consumed + taken) (rest.drop taken) v) :
    m.Finds nested i consumed rest v := by
  refine .moves (fun j' taken' => ?_) next
  rw [moves_reference code]
  constructor
  · rintro ⟨⟨start, ⟨⟩, matched'⟩, rfl⟩
    simpa using matched'.symm.trans matched
  · rintro ⟨rfl, rfl⟩
    exact ⟨⟨target, rfl, matched⟩, rfl⟩

end Instructions

/-- No way from a place of the code before a text goes on for ever. -/
def Ends (m : Machine) (nested : Nat → List UInt8 → MatchResult) (i : Nat) (rest : List UInt8) :
    Prop :=
  Acc (fun q p => m.Leads nested p q) (i, rest)

theorem Ends.of_moves {i j taken : Nat} {rest : List UInt8} (h : m.Ends nested i rest)
    (hm : m.Moves nested i rest j taken) : m.Ends nested j (rest.drop taken) :=
  h.inv hm.leads

theorem ends_of_moves {i : Nat} {rest : List UInt8}
    (h : ∀ j taken, m.Moves nested i rest j taken → m.Ends nested j (rest.drop taken)) :
    m.Ends nested i rest := by
  apply Acc.intro _
  rintro ⟨j, left⟩ ⟨taken, hm, rfl⟩
  exact h j taken hm

theorem Finds.ends {i consumed : Nat} {rest : List UInt8} {v : MatchResult}
    (h : m.Finds nested i consumed rest v) : m.Ends nested i rest := by
  induction h with
  | decides h => exact ends_of_moves fun j taken hm => absurd hm h.not_moves
  | stuck _ moves => exact ends_of_moves fun j taken hm => absurd hm (moves j taken)
  | moves moves _ ih =>
    apply ends_of_moves
    intro j taken hm
    obtain ⟨rfl, rfl⟩ := (moves j taken).1 hm
    exact ih
  | @branch i consumed movement rest vs code _ ih =>
    apply ends_of_moves
    intro j taken hm
    obtain ⟨⟨offset, ⟨hpos, hle⟩, rfl⟩, rfl⟩ := (moves_branch code).1 hm
    have hk : offset - 1 < vs.length := by omega
    have hoffset : i + 1 + (offset - 1) = i + offset := by omega
    simpa [hoffset] using ih (offset - 1) _ (List.getElem?_eq_getElem hk)

/-- Where every way ends, no way comes back to its start. -/
theorem Ends.not_transGen {i : Nat} {rest : List UInt8} (h : m.Ends nested i rest) :
    ¬ Relation.TransGen (m.Leads nested) (i, rest) (i, rest) := by
  unfold Ends at h
  generalize (i, rest) = p at h
  induction h with
  | intro p _ ih =>
    intro hloop
    obtain ⟨q, hpq, hqp⟩ := Relation.TransGen.head'_iff.1 hloop
    exact ih q hpq (Relation.TransGen.tail' hqp hpq)

/-- Whether the steps that a thread has made since it last consumed a byte led through as many
instructions. -/
def Fresh (m : Machine) (nested : Nat → List UInt8 → MatchResult) (t : Thread) : Prop :=
  ∃ seen : Finset Nat, seen ⊆ Finset.range m.code.size ∧ t.stalled ≤ seen.card ∧
    ∀ j ∈ seen, Relation.TransGen (m.Leads nested) (j, t.rest) (t.index, t.rest)

theorem fresh_of_not_stalled {t : Thread} (h : t.stalled = 0) : m.Fresh nested t :=
  ⟨∅, by simp [h]⟩

theorem Fresh.stalled_le {t : Thread} (h : m.Fresh nested t) : t.stalled ≤ m.code.size := by
  obtain ⟨seen, hsub, hle, -⟩ := h
  simpa using Nat.le_trans hle (Finset.card_le_card hsub)

theorem Fresh.goTo {t : Thread} (h : m.Fresh nested t) (hends : m.Ends nested t.index t.rest)
    {j taken : Nat} (hm : m.Moves nested t.index t.rest j taken) :
    m.Fresh nested (t.goTo j taken) := by
  rcases Nat.eq_zero_or_pos taken with rfl | hpos
  · obtain ⟨seen, hsub, hle, hseen⟩ := h
    have hnew : t.index ∉ seen := fun hmem => hends.not_transGen (hseen _ hmem)
    have hlead : m.Leads nested (t.index, t.rest) (j, t.rest) := ⟨0, hm, rfl⟩
    refine ⟨insert t.index seen, ?_, ?_, ?_⟩
    · exact Finset.insert_subset (Finset.mem_range.2 hm.lt_size) hsub
    · rw [Finset.card_insert_of_notMem hnew]
      exact Nat.succ_le_succ hle
    · intro k hk
      rcases Finset.mem_insert.1 hk with rfl | hk
      · exact .single hlead
      · exact (hseen k hk).tail hlead
  · rw [t.goTo_of_pos j hpos]
    exact fresh_of_not_stalled rfl

/-- Depth-first matching finds what a search without a bound finds. -/
theorem Finds.backtrack_eq (hn : Prefixes nested) {i consumed : Nat} {rest : List UInt8}
    {v : MatchResult} (h : m.Finds nested i consumed rest v) {stalled : Nat}
    (hfresh : m.Fresh nested ⟨i, consumed, rest, stalled⟩) :
    m.backtrack nested ⟨i, consumed, rest, stalled⟩ = v := by
  have hends := h.ends
  -- A fresh thread is not given up, and its moves are fresh as long as no way comes back.
  have hle := hfresh.stalled_le
  induction h generalizing stalled with
  | @decides i consumed rest v h =>
    rw [backtrack_eq_step hn hle]
    rcases m.step_cases nested ⟨i, consumed, rest, stalled⟩ with
      ⟨e, hs, hd⟩ | ⟨hs, hd⟩ | ⟨ts, -, hno, -⟩
    · rw [hs]
      exact hd.unique h
    · rw [hs]
      exact hd.unique h
    · exact absurd h (hno v)
  | stuck decides moves =>
    exact (backtrack_eq_none_iff hn hle).2 ⟨decides, fun j taken hm => absurd hm (moves j taken)⟩
  | @moves i consumed j taken rest v moves next ih =>
    have hm : m.Moves nested i rest j taken := (moves j taken).2 ⟨rfl, rfl⟩
    have hgo := hfresh.goTo hends hm
    rw [backtrack_eq_step hn hle]
    rcases m.step_cases nested ⟨i, consumed, rest, stalled⟩ with
      ⟨e, -, hd⟩ | ⟨-, hd⟩ | ⟨ts, hs, -, hts⟩
    · exact absurd hm hd.not_moves
    · exact absurd hm hd.not_moves
    · have hmem : ∀ u, u ∈ ts ↔ u = Thread.goTo ⟨i, consumed, rest, stalled⟩ j taken := by
        simp [hts, moves]
      rw [hs]
      exact (MatchResult.first_map_eq_of_mem_iff hmem _).trans
        (ih hgo (hends.of_moves hm) hgo.stalled_le)
  | @branch i consumed movement rest vs code each ih =>
    rw [backtrack_eq_step hn hle, step, code]
    simp only [List.map_map]
    congr 1
    apply List.ext_getElem (by simp)
    intro k hk hk'
    have hm : m.Moves nested i rest (i + (1 + k)) 0 := .branch code (by omega) (by omega)
    have hgo := hfresh.goTo hends hm
    have hindex : i + (1 + 1 * k) = i + 1 + k := by omega
    simp only [List.getElem_map, List.getElem_range', Function.comp_apply, Thread.fork, hindex]
    rw [← Nat.add_assoc] at hm hgo
    exact ih k _ (List.getElem?_eq_getElem hk') hgo (hends.of_moves hm) hgo.stalled_le

end Machine
end LexicalPatterns
