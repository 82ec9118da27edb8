import LexicalPatterns.Machine.CodeBuffer

/-!
# Growth of code buffers

A buffer that has no room for an append moves to a larger place, and all that it holds is copied.
One append may copy far more than it adds. Over a run the appends pay for the copies: each growth at
least doubles the capacity, so the capacity bounds all that was copied to reach it, and a buffer
grows only when more has been appended than its capacity, however often it was cut off in between.
-/

namespace LexicalPatterns

theorem two_mul_le_grownCapacity (current required : Nat) :
    2 * current ≤ grownCapacity current required := by
  simp only [grownCapacity]
  omega

namespace CodeBuffer

/-- What can be done to a buffer. -/
inductive Edit where
  | push (i : Instruction)
  | duplicate (start stop : Nat)
  | truncate (size : Nat)
  | modify (index : Nat) (f : Instruction → Instruction)

def perform (b : CodeBuffer) : Edit → CodeBuffer
  | .push i => b.push i
  | .duplicate start stop => b.duplicate start stop
  | .truncate size => b.truncate size
  | .modify index f => b.modify index f

/-- How an edit may change the size and the capacity of a buffer. -/
structure Steady (b b' : CodeBuffer) : Prop where
  size_le : b'.size ≤ b'.capacity
  capacity_le : b.capacity ≤ b'.capacity
  doubles : b.capacity < b'.capacity → 2 * b.capacity ≤ b'.capacity
  /-- Up to half of what 64 bits can count, no term of `grownCapacity` overflows. -/
  fits : b.capacity < b'.capacity → b'.size ≤ UInt64.size / 2 →
    b.capacity * 2 < UInt64.size ∧ b'.size + b'.size / 2 < UInt64.size

variable {b b' : CodeBuffer}

/-- Whether an edit appends to a buffer what it has no room for. -/
structure Grows (b b' : CodeBuffer) : Prop where
  capacity_lt : b.capacity < b'.size
  size_le : b.size ≤ b'.size
  capacity_eq : b'.capacity = grownCapacity b.capacity b'.size

theorem Grows.capacity_ge (h : b.Grows b') :
    b'.size ≤ b'.capacity ∧ 2 * b.capacity ≤ b'.capacity := by
  rw [h.capacity_eq]
  exact ⟨grownCapacity_ge _ _, two_mul_le_grownCapacity _ _⟩

/-- An append that does not fit grows the buffer, and all others keep its capacity. -/
theorem grows_of_reserved {more : Nat} (hsize : b'.size = b.size + more)
    (hcapacity : b'.capacity = b.reserved more) :
    b.Grows b' ∨ b'.capacity = b.capacity ∧ b'.size ≤ b.capacity := by
  rw [reserved, ← hsize] at hcapacity
  split at hcapacity
  case isTrue hlt => exact .inl ⟨hlt, by omega, hcapacity⟩
  case isFalse hle => exact .inr ⟨hcapacity, by omega⟩

theorem grows_or_fits (b : CodeBuffer) (e : Edit) :
    b.Grows (b.perform e) ∨ (b.perform e).capacity = b.capacity ∧
      (b.size ≤ b.capacity → (b.perform e).size ≤ b.capacity) := by
  cases e with
  | push i =>
    exact (grows_of_reserved (size_push b i) rfl).imp_right fun h => ⟨h.1, fun _ => h.2⟩
  | duplicate start stop =>
    exact (grows_of_reserved (size_append b _) rfl).imp_right fun h => ⟨h.1, fun _ => h.2⟩
  | truncate size =>
    refine .inr ⟨rfl, fun h => ?_⟩
    rw [perform, size_truncate]
    omega
  | modify index f =>
    refine .inr ⟨rfl, fun h => ?_⟩
    rwa [perform, size_modify]

theorem steady_perform (h : b.size ≤ b.capacity) (e : Edit) : b.Steady (b.perform e) := by
  rcases b.grows_or_fits e with hgrows | ⟨hcapacity, hsize⟩
  · have ⟨hroom, hdouble⟩ := hgrows.capacity_ge
    have hlt := hgrows.capacity_lt
    exact ⟨hroom, by omega, fun _ => hdouble, fun _ hmax => by omega⟩
  · have hroom := hsize h
    constructor <;> omega

/-- A buffer, and how much was appended to it and copied in it since it was new. -/
structure Account where
  buffer : CodeBuffer
  appended : Nat
  copied : Nat

namespace Account

def empty : Account := ⟨.empty, 0, 0⟩

/-- What makes the buffer longer was appended. If its capacity changes, all that it held before was
copied. -/
def perform (a : Account) (e : Edit) : Account :=
  let b := a.buffer.perform e
  { buffer := b
    appended := a.appended + (b.size - a.buffer.size)
    copied := a.copied + if b.capacity = a.buffer.capacity then 0 else a.buffer.size }

/-- The account after some edits of a new buffer. -/
def after (es : List Edit) : Account := es.foldl perform empty

/-- What every edit keeps. The capacity bounds all that was copied. -/
structure Balanced (a : Account) : Prop where
  size_le_capacity : a.buffer.size ≤ a.buffer.capacity
  size_le_appended : a.buffer.size ≤ a.appended
  copied_le_capacity : a.copied ≤ a.buffer.capacity
  copied_le_appended : a.copied ≤ 2 * a.appended

theorem balanced_empty : empty.Balanced := by
  constructor <;> exact Nat.le_refl 0

variable {a : Account} {e : Edit}

@[simp] theorem buffer_perform : (a.perform e).buffer = a.buffer.perform e := rfl

theorem size_le_appended_perform (h : a.buffer.size ≤ a.appended) :
    (a.perform e).buffer.size ≤ (a.perform e).appended := by
  simp only [perform]
  omega

theorem copied_of_grows (h : a.buffer.Grows (a.buffer.perform e)) :
    (a.perform e).copied = a.copied + a.buffer.size := by
  have hle := h.capacity_ge.1
  have hlt := h.capacity_lt
  exact congrArg (a.copied + ·) (if_neg (by omega))

theorem copied_of_capacity_eq (h : (a.buffer.perform e).capacity = a.buffer.capacity) :
    (a.perform e).copied = a.copied :=
  congrArg (a.copied + ·) (if_pos h)

theorem Balanced.perform (h : a.Balanced) (e : Edit) : (a.perform e).Balanced := by
  obtain ⟨hroom, hsize, hreserved, hpaid⟩ := h
  have hsize' := size_le_appended_perform (e := e) hsize
  rcases a.buffer.grows_or_fits e with hgrows | ⟨hcapacity, hfits⟩
  · have ⟨hroom', hdouble⟩ := hgrows.capacity_ge
    -- The old capacity bounds what was copied before, and what is copied now.
    have hcopied : (a.perform e).copied ≤ a.buffer.capacity + a.buffer.size := by
      rw [copied_of_grows hgrows]
      omega
    refine ⟨hroom', hsize', ?_, ?_⟩
    · calc (a.perform e).copied
        _ ≤ 2 * a.buffer.capacity := by omega
        _ ≤ (a.perform e).buffer.capacity := hdouble
    · have hlt := hgrows.capacity_lt
      have hle := hgrows.size_le
      calc (a.perform e).copied
        _ ≤ 2 * (a.buffer.perform e).size := by omega
        _ ≤ 2 * (a.perform e).appended := Nat.mul_le_mul_left 2 hsize'
  · have hcopied := copied_of_capacity_eq hcapacity
    have happended : a.appended ≤ (a.perform e).appended := Nat.le_add_right _ _
    constructor
    · rw [buffer_perform, hcapacity]
      exact hfits hroom
    · exact hsize'
    · rwa [hcopied, buffer_perform, hcapacity]
    · omega

theorem balanced_after (es : List Edit) : (after es).Balanced :=
  List.foldlRecOn es perform balanced_empty fun _ h e _ => h.perform e

/-- Whatever is done to a new buffer, each edit finds or makes room for what it appends and gives
none up, each growth at least doubles the capacity, and all growths together copy at most twice as
many instructions as were appended. -/
theorem amortized_after (es : List Edit) :
    (∀ e, (after es).buffer.Steady (after (es ++ [e])).buffer) ∧
      (after es).copied ≤ 2 * (after es).appended := by
  constructor
  · intro e
    rw [after, after, List.foldl_append]
    exact steady_perform (balanced_after es).size_le_capacity e
  · exact (balanced_after es).copied_le_appended

/-- The first instruction makes room for sixteen. Cutting six off and duplicating six needs no more
room, and the next instruction moves the sixteen before it. -/
example :
    let a := after (.replicate 16 (.push (.jump 1)) ++
      [.truncate 10, .modify 0 fun _ => .jump 2, .duplicate 0 6, .push (.jump 3)])
    (a.buffer.size, a.buffer.capacity, a.appended, a.copied) = (17, 32, 23, 16) := by
  decide

end Account
end CodeBuffer
end LexicalPatterns
