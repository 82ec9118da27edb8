import Mathlib.Logic.Relation
import LexicalPatterns.Proofs.Machine.DepthFirst

/-!
# Reachable terminals

A run finds a match exactly when some way through the code, of any length, ends at a terminal. The
ways may go round in the code without consuming a byte, as often as they like. A run gives such
ways up, and cuts others short, but it never loses the last way to a terminal.
-/

namespace LexicalPatterns.Machine

/-- One step from an index before a text to an index before what is left of the text. -/
def Leads (m : Machine) (nested : Nat → List UInt8 → MatchResult) (p q : Nat × List UInt8) : Prop :=
  ∃ taken, m.Moves nested p.1 p.2 q.1 taken ∧ q.2 = p.2.drop taken

/-- Whether some way from an index before a text leads to a terminal. -/
def ReachesTerminal (m : Machine) (nested : Nat → List UInt8 → MatchResult) (i : Nat)
    (rest : List UInt8) : Prop :=
  ∃ j left movement, Relation.ReflTransGen (m.Leads nested) (i, rest) (j, left) ∧
    m.code[j]? = some ⟨.terminal, movement⟩

variable {m : Machine} {nested : Nat → List UInt8 → MatchResult}

theorem Moves.leads {i j taken : Nat} {rest : List UInt8} (h : m.Moves nested i rest j taken) :
    m.Leads nested (i, rest) (j, rest.drop taken) :=
  ⟨taken, h, rfl⟩

theorem ReachesTerminal.of_leads {i j : Nat} {rest left : List UInt8}
    (h : m.Leads nested (i, rest) (j, left)) (hj : m.ReachesTerminal nested j left) :
    m.ReachesTerminal nested i rest := by
  obtain ⟨k, left', movement, hpath, code⟩ := hj
  exact ⟨k, left', movement, hpath.head h, code⟩

theorem reachesTerminal_of_backtrack (hn : Prefixes nested) (t : Thread) :
    ∀ consumed, m.backtrack nested t = .ok (some consumed) →
      m.ReachesTerminal nested t.index t.rest := by
  apply backtrack_induction
    (P := fun t v => ∀ consumed, v = .ok (some consumed) →
      m.ReachesTerminal nested t.index t.rest) hn
  case stalled =>
    intro t hlt consumed h
    simp at h
  case error =>
    intro t e hle hs consumed h
    cases h
  case matched =>
    intro t hle hs consumed h
    obtain ⟨movement, code⟩ := terminal_of_step hs
    exact ⟨t.index, t.rest, movement, .refl, code⟩
  case threads =>
    intro t ts hle hs ih consumed h
    obtain ⟨j, taken, hm, hfound⟩ := exists_of_first hs h (by simp)
    exact (ih j taken hm consumed hfound).of_leads hm.leads

/-- From the start of a way to a terminal a search finds something, although its own ways are
bounded. -/
theorem backtrack_ne_none_of_reachesTerminal (hn : Prefixes nested) {i : Nat} {rest : List UInt8}
    (h : m.ReachesTerminal nested i rest) (consumed : Nat) :
    m.backtrack nested ⟨i, consumed, rest, 0⟩ ≠ .ok none := by
  obtain ⟨j, left, movement, hpath, code⟩ := h
  generalize hp : (i, rest) = p at hpath
  induction hpath using Relation.ReflTransGen.head_induction_on generalizing i rest consumed with
  | refl =>
    obtain ⟨rfl, rfl⟩ := Prod.mk.inj hp
    rw [ne_eq, backtrack_eq_none_iff hn (Nat.zero_le _)]
    intro hno
    exact hno.1 _ (.terminal code)
  | head hpq _ ih =>
    subst hp
    obtain ⟨taken, hm, hleft⟩ := hpq
    intro hno
    exact ih (consumed + taken) rfl (hleft ▸ backtrack_none_of_moves hn hm hno)

/-- A run that ends without an error finds a match if and only if some way leads from its start to
a terminal. A reference on the way consumes what a run of its target, one level deeper, matches. -/
theorem run_isSome_iff_reachesTerminal {m : Machine} {start : Nat} {input : List UInt8}
    {r : Option Nat} (h : m.run start input = .ok r) :
    r.isSome ↔ m.ReachesTerminal (m.runAt m.recursionLimit) start input := by
  have hn := m.prefixes_runAt m.recursionLimit
  have hfound := runAt_refines_backtrack hn start input r h
  constructor
  · intro hr
    obtain ⟨consumed, rfl⟩ := Option.isSome_iff_exists.1 hr
    exact reachesTerminal_of_backtrack hn (.start start input) consumed hfound
  · intro hreach
    rw [Option.isSome_iff_ne_none]
    rintro rfl
    exact backtrack_ne_none_of_reachesTerminal hn hreach 0 hfound

theorem run_isSome_iff_reachesTerminal_cycle :
    cycle.run 0 [] = .ok (some 0) ∧
      ((some 0).isSome ↔ cycle.ReachesTerminal (cycle.runAt 0) 0 []) :=
  ⟨run_cycle, run_isSome_iff_reachesTerminal run_cycle⟩

end LexicalPatterns.Machine
