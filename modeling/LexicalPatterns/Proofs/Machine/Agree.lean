import LexicalPatterns.Proofs.Machine.Relocation

/-!
# Machines that agree

Two machines run alike from the places where they agree: as long as their threads stay among
instructions that both have, refer only to such places, and are given up by both or by neither. The
size of a machine matters only for the last.
-/

namespace LexicalPatterns.Machine

/-- Whether two machines run alike from the indices in `entry`. The threads of such runs satisfy
`inv`, which may depend on how references are run. -/
structure Agree (m m' : Machine) (entry : Nat → Prop)
    (inv : (Nat → List UInt8 → MatchResult) → Thread → Prop) : Prop where
  limit : m.recursionLimit = m'.recursionLimit
  size_le : m.code.size ≤ m'.code.size
  start : ∀ levels start input, entry start → inv (m.runAt levels) (.start start input)
  code : ∀ nested t, inv nested t → m.code[t.index]? = m'.code[t.index]?
  target : ∀ nested t target movement, inv nested t →
    m.code[t.index]? = some ⟨.reference (some target), movement⟩ → entry target
  move : ∀ nested t j taken, inv nested t → m.Moves nested t.index t.rest j taken →
    inv nested (t.goTo j taken)
  stalled : ∀ nested t, inv nested t → (m.code.size < t.stalled ↔ m'.code.size < t.stalled)

variable {m m' : Machine} {entry : Nat → Prop}
  {inv : (Nat → List UInt8 → MatchResult) → Thread → Prop}

/-- Code on which machines agree stays where it is. -/
theorem Agree.relocates (h : m.Agree m' entry inv) : m.Relocates m' id entry inv where
  limit := h.limit
  size_le := h.size_le
  start := h.start
  code := by
    intro nested t ht
    rw [Instruction.relocate_id, Option.map_id_fun, id, id]
    exact (h.code nested t ht).symm
  jump := fun _ _ _ _ _ _ _ _ => rfl
  fork := fun _ _ _ _ _ _ _ _ _ => rfl
  target := h.target
  move := h.move
  stalled := h.stalled
  injective := fun _ _ _ _ _ heq => heq

/-- Machines that agree run alike, whatever the result. -/
theorem Agree.runAt_eq (h : m.Agree m' entry inv) (levels : Nat) {start : Nat}
    (hstart : entry start) (input : List UInt8) :
    m.runAt levels start input = m'.runAt levels start input :=
  (h.relocates.runAt_eq levels hstart input).symm

end LexicalPatterns.Machine
