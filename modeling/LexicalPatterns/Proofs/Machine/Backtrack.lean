import LexicalPatterns.Machine.Run

/-!
# Depth-first matching

The same code, run by plain backtracking: one thread at a time, a branch tries the instructions
behind it in order, and the first terminal that a thread reaches ends the search. A thread is given
up when it has made more steps than there are instructions since it last consumed a byte, which is
also why the search ends on every code.
-/

namespace LexicalPatterns

/-- What a search finds: an error, no match, or the length of a match. -/
abbrev MatchResult := Except MatchError (Option Nat)

namespace MatchResult

/-- The first result, unless it is that nothing matches. -/
def orElse : MatchResult → MatchResult → MatchResult
  | .ok none, b => b
  | a, _ => a

def first : List MatchResult → MatchResult
  | [] => .ok none
  | v :: vs => orElse v (first vs)

@[simp] theorem none_orElse (b : MatchResult) : orElse (.ok none) b = b := rfl

@[simp] theorem some_orElse (n : Nat) (b : MatchResult) :
    orElse (.ok (some n)) b = .ok (some n) := rfl

@[simp] theorem error_orElse (e : MatchError) (b : MatchResult) :
    orElse (.error e) b = .error e := rfl

@[simp] theorem orElse_none (a : MatchResult) : orElse a (.ok none) = a := by
  rcases a with e | _ | n <;> rfl

theorem orElse_of_ne {a : MatchResult} (h : a ≠ .ok none) (b : MatchResult) : orElse a b = a := by
  rcases a with e | _ | n
  · rfl
  · exact absurd rfl h
  · rfl

theorem orElse_assoc (a b c : MatchResult) : orElse (orElse a b) c = orElse a (orElse b c) := by
  rcases a with e | _ | n <;> rfl

theorem orElse_eq_none {a b : MatchResult} :
    orElse a b = .ok none ↔ a = .ok none ∧ b = .ok none := by
  rcases a with e | _ | n <;> simp

theorem orElse_ok (a b : Option Nat) : orElse (.ok a) (.ok b) = .ok (a.or b) := by
  cases a <;> rfl

@[simp] theorem first_nil : first [] = .ok none := rfl

@[simp] theorem first_cons (v : MatchResult) (vs : List MatchResult) :
    first (v :: vs) = orElse v (first vs) := rfl

theorem first_append (us vs : List MatchResult) :
    first (us ++ vs) = orElse (first us) (first vs) := by
  induction us with
  | nil => rfl
  | cons u us ih => rw [List.cons_append, first_cons, first_cons, ih, orElse_assoc]

theorem first_eq_none {vs : List MatchResult} : first vs = .ok none ↔ ∀ v ∈ vs, v = .ok none := by
  induction vs with
  | nil => simp
  | cons v vs ih => rw [first_cons, orElse_eq_none, ih, List.forall_mem_cons]

theorem first_map_eq_none {α : Type} {xs : List α} {f : α → MatchResult} :
    first (xs.map f) = .ok none ↔ ∀ x ∈ xs, f x = .ok none := by
  simp [first_eq_none]

theorem mem_of_first {vs : List MatchResult} {v : MatchResult} (h : first vs = v)
    (hv : v ≠ .ok none) : v ∈ vs := by
  induction vs with
  | nil => exact absurd h.symm hv
  | cons u us ih =>
    rw [first_cons] at h
    by_cases hu : u = .ok none
    · rw [hu, none_orElse] at h
      exact List.mem_cons_of_mem _ (ih h)
    · rw [orElse_of_ne hu] at h
      exact h ▸ List.mem_cons_self

/-- Another search finds the same, unless the first one ends in an error. -/
def Refines (a b : MatchResult) : Prop := ∀ r, a = .ok r → b = .ok r

theorem Refines.refl (a : MatchResult) : Refines a a := fun _ h => h

theorem refines_error (e : MatchError) (b : MatchResult) : Refines (.error e) b := by
  rintro r ⟨⟩

theorem Refines.orElse {a a' b b' : MatchResult} (ha : Refines a a') (hb : Refines b b') :
    Refines (a.orElse b) (a'.orElse b') := by
  intro r h
  rcases a with e | _ | n
  · cases h
  · rw [ha none rfl]
    exact hb r h
  · rw [ha (some n) rfl]
    exact h

theorem Refines.first {α : Type} {xs : List α} {f g : α → MatchResult}
    (h : ∀ x ∈ xs, Refines (f x) (g x)) : Refines (first (xs.map f)) (first (xs.map g)) := by
  induction xs with
  | nil => exact fun _ h => h
  | cons x xs ih =>
    exact Refines.orElse (h x (by simp)) (ih fun y hy => h y (by simp [hy]))

end MatchResult

/-- The index `movement` away from `index`, added up in a machine word. -/
def leap (index : Nat) (movement : Int) : Nat :=
  (UInt64.ofNat index + UInt64.ofInt movement).toNat

theorem leap_eq (index : Nat) (movement : Int) :
    leap index movement = Thread.moved index movement := by
  rw [leap, UInt64.toNat_add, UInt64.ofInt, UInt64.toNat_ofNat', UInt64.toNat_ofNat', Thread.moved,
    UInt64.size]
  omega

/-- The thread at another index after `taken` more bytes. -/
def Thread.goTo (t : Thread) (index taken : Nat) : Thread where
  index := index
  consumed := t.consumed + taken
  rest := t.rest.drop taken
  stalled := if taken = 0 then t.stalled + 1 else 0

theorem Thread.fork_eq (t : Thread) (offset : Nat) : t.fork offset = t.goTo (t.index + offset) 0 :=
  rfl

theorem Thread.goTo_of_pos (t : Thread) (index : Nat) {taken : Nat} (h : 0 < taken) :
    t.goTo index taken = ⟨index, t.consumed + taken, t.rest.drop taken, 0⟩ := by
  simp [goTo, Nat.ne_of_gt h]

theorem Thread.advance_eq (t : Thread) (taken : Nat) (movement : Int) :
    t.advance taken movement = t.goTo (moved t.index movement) taken := rfl

namespace Machine

/-- What bounds the steps that a thread has left: each of them makes it smaller. -/
def potential (m : Machine) (t : Thread) : Nat :=
  t.rest.length * (m.code.size + 1) + (m.code.size + 1 - t.stalled)

theorem potential_goTo_lt (m : Machine) {t : Thread} (h : t.stalled ≤ m.code.size) (index : Nat)
    {taken : Nat} (htaken : taken ≤ t.rest.length) :
    m.potential (t.goTo index taken) < m.potential t := by
  simp only [potential, Thread.goTo, List.length_drop]
  split
  · next h0 =>
    subst h0
    simp only [Nat.sub_zero]
    omega
  · have : (t.rest.length - taken + 1) * (m.code.size + 1) ≤ t.rest.length * (m.code.size + 1) :=
      Nat.mul_le_mul_right _ (by omega)
    rw [Nat.add_mul] at this
    omega

/-- Depth-first search from a thread. `nested` runs the target of a reference; what it matches is a
prefix of the rest. -/
def backtrack (m : Machine) (nested : Nat → List UInt8 → MatchResult) (t : Thread) : MatchResult :=
  if m.code.size < t.stalled then .ok none
  else
    match m.code[t.index]? with
    | none => .ok none
    | some i =>
      match i.action with
      | .terminal => .ok (some t.consumed)
      | .branch count =>
        .first ((List.range' 1 count).map fun offset =>
          m.backtrack nested (t.goTo (t.index + offset) 0))
      | .empty => m.backtrack nested (t.goTo (leap t.index i.movement) 0)
      | .literal _ | .range _ _ =>
        match _h : t.rest with
        | b :: _ =>
          if i.accepts b then m.backtrack nested (t.goTo (leap t.index i.movement) 1) else .ok none
        | [] => .ok none
      | .reference none => .ok none
      | .reference (some target) =>
        match nested target t.rest with
        | .error e => .error e
        | .ok none => .ok none
        | .ok (some taken) =>
          if taken ≤ t.rest.length then m.backtrack nested (t.goTo (leap t.index i.movement) taken)
          else .ok none
termination_by m.potential t
decreasing_by
  · exact m.potential_goTo_lt (by omega) (t.index + offset) (Nat.zero_le _)
  · exact m.potential_goTo_lt (by omega) (leap t.index i.movement) (Nat.zero_le _)
  · exact m.potential_goTo_lt (by omega) (leap t.index i.movement) (by simp [_h])
  · exact m.potential_goTo_lt (by omega) (leap t.index i.movement) ‹_›

def backtrackAt (m : Machine) : (levels : Nat) → Nat → List UInt8 → MatchResult
  | 0, _, _ => .error (.recursionLimit m.recursionLimit)
  | levels + 1, start, input => m.backtrack (backtrackAt m levels) ⟨start, 0, input, 0⟩

/-- Depth-first matching of the pattern at an index against a prefix of the input. -/
def backtrackRun (m : Machine) (start : Nat) (input : List UInt8) : MatchResult :=
  m.backtrackAt (m.recursionLimit + 1) start input

/-- The matches that a search for references gives are prefixes. -/
def Prefixes (nested : Nat → List UInt8 → MatchResult) : Prop :=
  ∀ ⦃start : Nat⦄ ⦃input : List UInt8⦄ ⦃taken : Nat⦄,
    nested start input = .ok (some taken) → taken ≤ input.length

variable {m : Machine} {nested : Nat → List UInt8 → MatchResult}

theorem backtrack_of_stalled {t : Thread} (h : m.code.size < t.stalled) :
    m.backtrack nested t = .ok none := by
  unfold backtrack
  rw [if_pos h]

/-- A search goes on with what one instruction makes of the thread. -/
theorem backtrack_eq_step (hn : Prefixes nested) {t : Thread} (h : t.stalled ≤ m.code.size) :
    m.backtrack nested t =
      match m.step nested t with
      | .error e => .error e
      | .ok .matched => .ok (some t.consumed)
      | .ok (.threads ts) => .first (ts.map (m.backtrack nested)) := by
  unfold backtrack
  rw [if_neg (Nat.not_lt.2 h), step]
  cases m.code[t.index]? with
  | none => rfl
  | some i =>
    obtain ⟨action, movement⟩ := i
    cases action with
    | terminal => rfl
    | empty => simp [leap_eq, Thread.advance_eq]
    | branch count => simp [Function.comp_def, Thread.fork_eq]
    | literal b =>
      cases hr : t.rest with
      | nil => rfl
      | cons c rest => dsimp only; split <;> simp [leap_eq, Thread.advance_eq]
    | range low high =>
      cases hr : t.rest with
      | nil => rfl
      | cons c rest => dsimp only; split <;> simp [leap_eq, Thread.advance_eq]
    | reference target =>
      cases target with
      | none => rfl
      | some target =>
        rcases hv : nested target t.rest with e | _ | taken
        · simp [hv, bind, Except.bind]
        · simp [hv, bind, Except.bind, pure, Except.pure]
        · simp [hv, bind, Except.bind, pure, Except.pure, hn hv, leap_eq, Thread.advance_eq]

end Machine
end LexicalPatterns
