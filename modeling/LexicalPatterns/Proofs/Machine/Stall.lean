import Mathlib.Data.Finset.Card
import Mathlib.Data.Finset.Range
import LexicalPatterns.Proofs.Machine.Moves

/-!
# Stalled threads

A thread is given up once it has made more steps than there are instructions without consuming a
byte. Then it has visited an instruction twice at the same place of the input, and what it may still
come to is come to sooner without the detour. So giving up loses no decision of a search, but it may
lose the order of preference: the way without the detour can be a less preferred one.
-/

namespace LexicalPatterns

/-- If every index that needs `k + 1` steps has a successor that needs `k`, then no index among `n`
needs `n` steps. -/
theorem exists_lt_of_layers {n : ℕ} {P : ℕ → ℕ → Prop} (hlt : ∀ k i, P k i → i < n)
    (hstep : ∀ k < n, ∀ i, P (k + 1) i → ¬ P k i → ∃ j, P k j ∧ ∀ l ≤ k, P l j → P (l + 1) i)
    {i : ℕ} (h : P n i) : ∃ k < n, P k i := by
  classical
  let within (k : ℕ) : Finset ℕ := (Finset.range n).filter fun j => ∃ l ≤ k, P l j
  have hcard : ∀ k ≤ n, ∀ i, P k i → (∀ l < k, ¬ P l i) → k < (within k).card := by
    intro k
    induction k with
    | zero =>
      intro _ i hi _
      exact Finset.card_pos.2 ⟨i, by simpa [within] using ⟨hlt 0 i hi, hi⟩⟩
    | succ k ih =>
      intro hk i hi hmin
      obtain ⟨j, hj, hback⟩ := hstep k hk i hi (hmin k (Nat.lt_succ_self k))
      have hfew : k < (within k).card :=
        ih (Nat.le_of_succ_le hk) j hj fun l hl hlj =>
          hmin (l + 1) (Nat.succ_lt_succ hl) (hback l (Nat.le_of_lt hl) hlj)
      have hmore : (within k).card < (within (k + 1)).card := by
        apply Finset.card_lt_card
        refine Finset.ssubset_iff_of_subset ?_ |>.2 ⟨i, ?_, ?_⟩
        · intro x hx
          simp only [within, Finset.mem_filter] at hx ⊢
          obtain ⟨hx, l, hl, hlx⟩ := hx
          exact ⟨hx, l, Nat.le_succ_of_le hl, hlx⟩
        · simp only [within, Finset.mem_filter, Finset.mem_range]
          exact ⟨hlt _ i hi, k + 1, le_rfl, hi⟩
        · simp only [within, Finset.mem_filter, not_and, not_exists]
          intro _ l hl
          exact hmin l (Nat.lt_succ_of_le hl)
      omega
  by_contra hno
  have hfull := hcard n le_rfl i h fun l hl hli => hno ⟨l, hl, hli⟩
  have hle := Finset.card_filter_le (Finset.range n) fun j => ∃ l ≤ n, P l j
  rw [Finset.card_range] at hle
  exact absurd hfull (Nat.not_lt.2 hle)

namespace Machine

/-- Whether a thread comes to an instruction that decides, in so many steps at most and without
being given up on the way. -/
inductive DecidesWithin (m : Machine) (nested : Nat → List UInt8 → MatchResult) :
    (steps : Nat) → Thread → Prop
  | now {steps : Nat} {t : Thread} {v : MatchResult} (stalled : t.stalled ≤ m.code.size)
      (decides : m.Decides nested t.index t.consumed t.rest v) : DecidesWithin m nested steps t
  | later {steps j taken : Nat} {t : Thread} (stalled : t.stalled ≤ m.code.size)
      (moves : m.Moves nested t.index t.rest j taken)
      (next : DecidesWithin m nested steps (t.goTo j taken)) :
      DecidesWithin m nested (steps + 1) t

variable {m : Machine} {nested : Nat → List UInt8 → MatchResult}

theorem DecidesWithin.stalled_le {steps : Nat} {t : Thread} (h : m.DecidesWithin nested steps t) :
    t.stalled ≤ m.code.size := by
  cases h with
  | now stalled => exact stalled
  | later stalled => exact stalled

theorem DecidesWithin.index_lt {steps : Nat} {t : Thread} (h : m.DecidesWithin nested steps t) :
    t.index < m.code.size := by
  cases h with
  | now _ decides => exact decides.lt_size
  | later _ moves => exact moves.lt_size

theorem DecidesWithin.mono {steps steps' : Nat} {t : Thread}
    (h : m.DecidesWithin nested steps t) (hle : steps ≤ steps') :
    m.DecidesWithin nested steps' t := by
  induction h generalizing steps' with
  | now stalled decides => exact .now stalled decides
  | later stalled moves _ ih =>
    obtain ⟨steps', rfl⟩ : ∃ k, steps' = k + 1 := ⟨steps' - 1, by omega⟩
    exact .later stalled moves (ih (Nat.le_of_succ_le_succ hle))

theorem DecidesWithin.of_stalled_le {steps i c s s' : Nat} {rest : List UInt8}
    (h : m.DecidesWithin nested steps ⟨i, c, rest, s'⟩) (hs : s ≤ s') :
    m.DecidesWithin nested steps ⟨i, c, rest, s⟩ := by
  generalize ht : (⟨i, c, rest, s'⟩ : Thread) = t at h
  induction h generalizing i c rest s s' with
  | now stalled decides =>
    subst ht
    exact .now (Nat.le_trans hs stalled) decides
  | later stalled moves _ ih =>
    subst ht
    refine .later (Nat.le_trans hs stalled) moves (ih ?_ rfl)
    dsimp only
    split <;> omega

theorem backtrack_ne_none_iff (hn : Prefixes nested) {t : Thread} :
    m.backtrack nested t ≠ .ok none ↔ ∃ steps, m.DecidesWithin nested steps t := by
  constructor
  · apply backtrack_induction
      (P := fun t v => v ≠ .ok none → ∃ steps, m.DecidesWithin nested steps t) hn
    case stalled =>
      intro t hlt h
      exact absurd rfl h
    case error =>
      intro t e hle hs _
      rcases m.step_cases nested t with ⟨e', -, hd⟩ | ⟨hs', -⟩ | ⟨ts, hs', -⟩
      · exact ⟨0, .now hle hd⟩
      · simp [hs'] at hs
      · simp [hs'] at hs
    case matched =>
      intro t hle hs _
      obtain ⟨movement, code⟩ := terminal_of_step hs
      exact ⟨0, .now hle (.terminal code)⟩
    case threads =>
      intro t ts hle hs ih h
      obtain ⟨j, taken, hm, hfound⟩ := exists_of_first hs rfl h
      obtain ⟨steps, hnext⟩ := ih j taken hm (hfound ▸ h)
      exact ⟨steps + 1, .later hle hm hnext⟩
  · rintro ⟨steps, h⟩
    induction h with
    | now stalled decides =>
      rw [ne_eq, backtrack_eq_none_iff hn stalled]
      exact fun hno => hno.1 _ decides
    | later stalled moves _ ih =>
      rw [ne_eq, backtrack_eq_none_iff hn stalled]
      exact fun hno => ih (hno.2 _ _ moves)

/-- Whether so many steps at most that consume nothing lead from an index to one from where no
more than `left` steps are left, of which the first consumes or decides. -/
def Near (m : Machine) (nested : Nat → List UInt8 → MatchResult) (c : Nat) (rest : List UInt8)
    (left : Nat) : (steps : Nat) → (i : Nat) → Prop
  | 0, i => m.DecidesWithin nested left ⟨i, c, rest, m.code.size⟩
  | steps + 1, i =>
    Near m nested c rest left steps i ∨
      ∃ j, m.Moves nested i rest j 0 ∧ Near m nested c rest left steps j

section Near

variable {c left steps i : Nat} {rest : List UInt8}

theorem Near.index_lt (h : m.Near nested c rest left steps i) : i < m.code.size := by
  induction steps generalizing i with
  | zero => exact DecidesWithin.index_lt h
  | succ steps ih =>
    rcases h with h | ⟨j, moves, -⟩
    · exact ih h
    · exact moves.lt_size

theorem Near.decidesWithin (h : m.Near nested c rest left steps i) {s : Nat}
    (hs : s + steps ≤ m.code.size) :
    m.DecidesWithin nested (steps + left) ⟨i, c, rest, s⟩ := by
  induction steps generalizing i s with
  | zero =>
    rw [Nat.zero_add]
    exact DecidesWithin.of_stalled_le h hs
  | succ steps ih =>
    rcases h with h | ⟨j, moves, h⟩
    · exact (ih h (by omega)).mono (by omega)
    · rw [Nat.add_right_comm]
      have hnext : m.DecidesWithin nested (steps + left) ⟨j, c, rest, s + 1⟩ := ih h (by omega)
      exact .later (by dsimp only; omega) moves hnext

theorem DecidesWithin.exists_near {s : Nat}
    (h : m.DecidesWithin nested steps ⟨i, c, rest, s⟩) :
    ∃ k left, m.Near nested c rest left k i ∧ k + left ≤ steps ∧ s + k ≤ m.code.size := by
  generalize ht : (⟨i, c, rest, s⟩ : Thread) = t at h
  induction h generalizing i s with
  | @now steps t v stalled decides =>
    subst ht
    exact ⟨0, steps, .now (Nat.le_refl _) decides, by omega, stalled⟩
  | @later steps j taken t stalled moves next ih =>
    subst ht
    rcases Nat.eq_zero_or_pos taken with rfl | hpos
    · obtain ⟨k, left, hnear, hsteps, hk⟩ := @ih j (s + 1) rfl
      exact ⟨k + 1, left, .inr ⟨j, moves, hnear⟩, by omega, by omega⟩
    · refine ⟨0, steps + 1, .later (Nat.le_refl _) moves ?_, by omega, stalled⟩
      rwa [Thread.goTo_of_pos _ _ hpos] at next ⊢

/-- What a thread comes to that has just consumed a byte, it comes to with one step less before it
is given up. -/
theorem DecidesWithin.one_stalled (h : m.DecidesWithin nested steps ⟨i, c, rest, 0⟩) :
    m.DecidesWithin nested steps ⟨i, c, rest, 1⟩ := by
  obtain ⟨k, left, hnear, hsteps, hk⟩ := h.exists_near
  rw [Nat.zero_add] at hk
  have hfew : ∃ k' < m.code.size, k' ≤ k ∧ m.Near nested c rest left k' i := by
    rcases Nat.lt_or_eq_of_le hk with hlt | rfl
    · exact ⟨k, hlt, Nat.le_refl k, hnear⟩
    · have hstep : ∀ k < m.code.size, ∀ i, m.Near nested c rest left (k + 1) i →
          ¬ m.Near nested c rest left k i → ∃ j, m.Near nested c rest left k j ∧
            ∀ l ≤ k, m.Near nested c rest left l j → m.Near nested c rest left (l + 1) i := by
        intro k _ i hmore hless
        obtain ⟨j, moves, hj⟩ := Or.resolve_left hmore hless
        exact ⟨j, hj, fun l _ hl => .inr ⟨j, moves, hl⟩⟩
      obtain ⟨k', hlt, hnear'⟩ := exists_lt_of_layers (P := m.Near nested c rest left)
        (fun _ _ h => h.index_lt) hstep hnear
      exact ⟨k', hlt, Nat.le_of_lt hlt, hnear'⟩
  obtain ⟨k', hlt, hle, hnear'⟩ := hfew
  exact (hnear'.decidesWithin (by omega)).mono (by omega)

end Near

/-- What a thread comes to after a move, had it just consumed a byte, it comes to in one step more
had it just consumed a byte before the move. -/
theorem DecidesWithin.of_moves {steps i c j taken : Nat} {rest : List UInt8}
    (hm : m.Moves nested i rest j taken)
    (h : m.DecidesWithin nested steps ⟨j, c + taken, rest.drop taken, 0⟩) :
    m.DecidesWithin nested (steps + 1) ⟨i, c, rest, 0⟩ := by
  refine .later (Nat.zero_le _) hm ?_
  rcases Nat.eq_zero_or_pos taken with rfl | hpos
  · exact h.one_stalled
  · rwa [Thread.goTo_of_pos _ _ hpos]

/-- Where nothing is found from a thread that has just consumed a byte, nothing is found after any
of its moves either, although some of them leave it fewer steps. -/
theorem backtrack_none_of_moves (hn : Prefixes nested) {i c j taken : Nat} {rest : List UInt8}
    (hm : m.Moves nested i rest j taken) (h : m.backtrack nested ⟨i, c, rest, 0⟩ = .ok none) :
    m.backtrack nested ⟨j, c + taken, rest.drop taken, 0⟩ = .ok none := by
  by_contra hj
  obtain ⟨steps, hsteps⟩ := (backtrack_ne_none_iff hn).1 hj
  exact (backtrack_ne_none_iff hn).2 ⟨_, hsteps.of_moves hm⟩ h

end Machine
end LexicalPatterns
