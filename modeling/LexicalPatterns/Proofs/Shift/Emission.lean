import LexicalPatterns.Proofs.Emission.Steps
import LexicalPatterns.Proofs.Shift.Syntax

/-!
# Emitting shifted trees

The code of a shifted tree is the code of the tree. Only the references in it have shifted spans, as
has the reason for which it is refused. What stood in the code before is not copied, so its
references are as they were.
-/

namespace LexicalPatterns

def Fixup.shiftFrom (start k : Nat) (f : Fixup) : Fixup :=
  if start ≤ f.index then f.shift k else f

@[simp] theorem Fixup.index_shiftFrom (start k : Nat) (f : Fixup) :
    (f.shiftFrom start k).index = f.index := by
  unfold shiftFrom
  split <;> rfl

def Emitter.shiftFrom (start k : Nat) (e : Emitter) : Emitter :=
  { e with fixups := e.fixups.map (Fixup.shiftFrom start k) }

namespace Emit

variable {start k : Nat} {α β : Type}

/-- Whether one step does for references that are shifted from `start` on what another does for
those that are not. The result of both has the property `P`. -/
def Shifts (start k : Nat) (x x' : Emit α) (P : α → Prop) : Prop :=
  ∀ e, start ≤ e.buffer.size →
    start ≤ (x.run e).2.buffer.size ∧
    x'.run (e.shiftFrom start k) =
      ((x.run e).1.mapError (CompileError.shift k), (x.run e).2.shiftFrom start k) ∧
    ∀ a, (x.run e).1 = .ok a → P a

abbrev Moves (start k : Nat) (x x' : Emit α) : Prop := Shifts start k x x' fun _ => True

variable {x x' : Emit α} {f f' : α → Emit β} {P : α → Prop} {Q : β → Prop}

theorem Shifts.bind (hx : Shifts start k x x' P)
    (hf : ∀ a, P a → Shifts start k (f a) (f' a) Q) : Shifts start k (x >>= f) (x' >>= f') Q := by
  intro e he
  obtain ⟨hsize, hrun, hresult⟩ := hx e he
  rcases hfirst : x.run e with ⟨refusal | a, e₁⟩
  · rw [hfirst] at hsize hrun
    rw [run_bind_error hfirst, run_bind_error hrun]
    exact ⟨hsize, rfl, fun _ h => nomatch h⟩
  · rw [hfirst] at hsize hrun hresult
    rw [run_bind_ok hfirst, run_bind_ok hrun]
    exact hf a (hresult a rfl) e₁ hsize

theorem shifts_pure {a : α} (ha : P a) : Shifts start k (pure a) (pure a) P :=
  fun _ he => ⟨he, rfl, fun _ h => Except.ok.inj h ▸ ha⟩

theorem moves_pure (a : α) : Moves start k (pure a : Emit α) (pure a) := shifts_pure trivial

theorem moves_throw (refusal : CompileError) :
    Moves start k (throw refusal : Emit α) (throw (refusal.shift k)) :=
  fun _ he => ⟨he, rfl, fun _ _ => trivial⟩

theorem shifts_size : Shifts start k size size (start ≤ ·) :=
  fun _ he => ⟨he, rfl, fun _ h => Except.ok.inj h ▸ he⟩

theorem shifts_push (i : Instruction) : Shifts start k (push i) (push i) (start ≤ ·) := by
  intro e he
  refine ⟨?_, rfl, fun _ h => Except.ok.inj h ▸ he⟩
  change start ≤ (e.buffer.push i).size
  rw [CodeBuffer.size_push]
  exact Nat.le_succ_of_le he

theorem moves_pushReference (name : String) (span : Span) :
    Moves start k (pushReference name span) (pushReference name (span.shift k)) := by
  intro e he
  have hfixup : Fixup.shiftFrom start k ⟨e.buffer.size, name, span, e.origin⟩ =
      ⟨e.buffer.size, name, span.shift k, e.origin⟩ := if_pos he
  refine ⟨?_, ?_, fun _ _ => trivial⟩
  · change start ≤ (e.buffer.push _).size
    rw [CodeBuffer.size_push]
    exact Nat.le_succ_of_le he
  · refine Prod.ext rfl (congrArg (Emitter.mk _ · _ _) ?_)
    change (e.fixups.map _).push _ = (e.fixups.push _).map _
    rw [Array.map_push, hfixup]
    rfl

theorem moves_patchJump (index target : Nat) :
    Moves start k (patchJump index target) (patchJump index target) := by
  intro e he
  refine ⟨?_, rfl, fun _ _ => trivial⟩
  change start ≤ (e.buffer.setMovement index _).size
  simpa [CodeBuffer.setMovement] using he

/-- Copied code stands behind the code that was there before. -/
theorem moves_duplicate {first stop : Nat} (hfirst : start ≤ first) :
    Moves start k (duplicate first stop) (duplicate first stop) := by
  intro e he
  refine ⟨?_, ?_, fun _ _ => trivial⟩
  · change start ≤ (e.buffer.append _).size
    rw [CodeBuffer.size_append]
    exact Nat.le_add_right_of_le he
  · refine Prod.ext rfl (congrArg (Emitter.mk _ · _ _) ?_)
    let inside (f : Fixup) : Bool := first ≤ f.index ∧ f.index < stop
    let offset := e.buffer.size - first
    let moved (f : Fixup) : Fixup := { f with index := f.index + offset }
    have hinside : inside ∘ Fixup.shiftFrom start k = inside := by
      funext f
      simp [inside]
    have hmoved : ∀ f ∈ e.fixups.filter inside,
        moved (f.shiftFrom start k) = (moved f).shiftFrom start k := by
      intro f hf
      have hindex : first ≤ f.index ∧ f.index < stop := by
        simpa [inside] using (Array.mem_filter.1 hf).2
      have hstart : start ≤ f.index := Nat.le_trans hfirst hindex.1
      have hstart' : start ≤ (moved f).index := Nat.le_add_right_of_le hstart
      rw [Fixup.shiftFrom, if_pos hstart, Fixup.shiftFrom, if_pos hstart']
      rfl
    change e.fixups.map _ ++ ((e.fixups.map _).filter inside).map moved =
      (e.fixups ++ (e.fixups.filter inside).map moved).map _
    rw [Array.map_append, Array.filter_map, hinside, Array.map_map, Array.map_map]
    exact congrArg _ (Array.map_congr_left hmoved)

theorem moves_checkBudget (more : Nat) (span : Span) :
    Moves start k (checkBudget more span) (checkBudget more (span.shift k)) := by
  intro e he
  have hrun : (checkBudget more (span.shift k)).run (e.shiftFrom start k) =
      if e.buffer.size - e.start + more > maxPatternSize then
        (.error (.patternTooLarge (span.shift k)), e.shiftFrom start k)
      else (.ok (), e.shiftFrom start k) := run_checkBudget _ _ _
  rw [run_checkBudget, hrun]
  split <;> exact ⟨he, rfl, fun _ _ => trivial⟩

theorem moves_lift {check : Except CompileError α} :
    Moves start k (liftM check : Emit α)
      (liftM (check.mapError (CompileError.shift k)) : Emit α) := by
  intro e he
  cases check <;> exact ⟨he, rfl, fun _ _ => trivial⟩

theorem shifts_guard : Shifts start k guard guard (start ≤ ·) :=
  (shifts_push _).bind fun _ _ => (shifts_push _).bind fun _ _ => shifts_push _

/-- Whether the first copy of an operand, if it is written, stands in the code that is shifted. -/
def Template.From (start : Nat) (template : Template) : Prop := ∀ p ∈ template, start ≤ p.1

theorem from_none (start : Nat) : Template.From start none := by
  rintro p ⟨⟩

section Copies

variable {operand operand' : Emit Unit} (hoperand : Moves start k operand operand') (span : Span)
include hoperand

theorem shifts_copy {template : Template} (htemplate : template.From start) :
    Shifts start k (copy operand span template) (copy operand' (span.shift k) template)
      (Template.From start) := by
  cases template with
  | none =>
    refine shifts_size.bind fun first hfirst => hoperand.bind fun _ _ => shifts_size.bind
      fun stop _ => shifts_pure ?_
    rintro p ⟨⟩
    exact hfirst
  | some p =>
    obtain ⟨first, stop⟩ := p
    refine (moves_checkBudget _ span).bind fun _ _ =>
      (moves_duplicate (htemplate _ rfl)).bind fun _ _ => shifts_pure htemplate

theorem shifts_copies (count : Nat) {template : Template} (htemplate : template.From start) :
    Shifts start k (copies operand span count template)
      (copies operand' (span.shift k) count template) (Template.From start) := by
  induction count generalizing template with
  | zero => exact shifts_pure htemplate
  | succ count ih => exact (shifts_copy hoperand span htemplate).bind fun _ => ih

theorem moves_guarded (count : Nat) {template : Template} (htemplate : template.From start) :
    Moves start k (guarded operand span count template)
      (guarded operand' (span.shift k) count template) := by
  induction count generalizing template with
  | zero => exact moves_pure _
  | succ count ih =>
    exact shifts_guard.bind fun _ _ => (shifts_copy hoperand span htemplate).bind
      fun _ htemplate => (ih htemplate).bind fun _ _ => moves_pure _

end Copies

theorem moves_pushJumps (count : Nat) : Moves start k (pushJumps count) (pushJumps count) := by
  induction count with
  | zero => exact moves_pure _
  | succ count ih => exact (shifts_push _).bind fun _ _ => ih

theorem moves_pushLiterals (bs : List UInt8) :
    Moves start k (pushLiterals bs) (pushLiterals bs) := by
  induction bs with
  | nil => exact moves_pure _
  | cons b bs ih => exact (shifts_push _).bind fun _ _ => ih

theorem moves_patchJumps (target : Nat) (indices : List Nat) :
    Moves start k (patchJumps target indices) (patchJumps target indices) := by
  induction indices with
  | nil => exact moves_pure _
  | cons index indices ih => exact (moves_patchJump _ _).bind fun _ _ => ih

theorem checkRepeat_shift (count : Nat) (span : Span) :
    checkRepeat count (span.shift k) =
      (checkRepeat count span).mapError (CompileError.shift k) := by
  unfold checkRepeat
  split <;> rfl

theorem moves_checkRepeat (count : Nat) (span : Span) :
    Moves start k (liftM (checkRepeat count span) : Emit Unit)
      (liftM (checkRepeat count (span.shift k))) := by
  rw [checkRepeat_shift]
  exact moves_lift

section Repetitions

variable {operand operand' : Emit Unit} (hoperand : Moves start k operand operand') (span : Span)
include hoperand

theorem moves_exactly (count : Nat) :
    Moves start k (exactly operand span count) (exactly operand' (span.shift k) count) :=
  (moves_checkRepeat count span).bind fun _ _ =>
    (shifts_copies hoperand span count (from_none start)).bind fun _ _ => moves_pure _

theorem moves_between (min max : Nat) :
    Moves start k (between operand span min max) (between operand' (span.shift k) min max) := by
  unfold between
  dsimp only
  split
  · exact moves_throw _
  · refine (moves_checkRepeat max span).bind fun _ _ => ?_
    refine (shifts_copies hoperand span min (from_none start)).bind fun _ htemplate => ?_
    refine (moves_guarded hoperand span _ htemplate).bind fun _ _ => ?_
    exact shifts_size.bind fun _ _ => moves_patchJumps _ _

theorem moves_atLeast (min : Nat) :
    Moves start k (atLeast operand span min) (atLeast operand' (span.shift k) min) := by
  refine (moves_checkRepeat min span).bind fun _ _ => ?_
  refine (shifts_copies hoperand span min (from_none start)).bind fun _ htemplate => ?_
  refine shifts_size.bind fun _ _ => shifts_guard.bind fun _ _ => ?_
  refine (shifts_copy hoperand span htemplate).bind fun _ _ => (shifts_push _).bind fun _ _ => ?_
  exact (moves_patchJump _ _).bind fun _ _ => shifts_size.bind fun _ _ => moves_patchJump _ _

end Repetitions

section Trees

variable {source source' : String} {ts : List Tree}
  (h : ∀ t ∈ ts, Moves start k (tree source t) (tree source' (t.shift k)))
include h

theorem moves_trees : Moves start k (trees source ts) (trees source' (ts.map (Tree.shift k))) := by
  induction ts with
  | nil => exact moves_pure ()
  | cons t ts ih =>
    obtain ⟨ht, hts⟩ := List.forall_mem_cons.1 h
    exact ht.bind fun _ _ => ih hts

theorem moves_branches (entry : Nat) :
    Moves start k (branches source entry ts) (branches source' entry (ts.map (Tree.shift k))) := by
  induction ts generalizing entry with
  | nil => exact moves_pure []
  | cons t ts ih =>
    obtain ⟨ht, hts⟩ := List.forall_mem_cons.1 h
    refine shifts_size.bind fun _ _ => (moves_patchJump _ _).bind fun _ _ => ht.bind fun _ _ => ?_
    cases ts with
    | nil => exact moves_pure []
    | cons t' ts =>
      exact (shifts_push _).bind fun _ _ => (ih hts _).bind fun _ _ => moves_pure _

theorem moves_operand :
    Moves start k (operand source ts) (operand source' (ts.map (Tree.shift k))) := by
  cases ts with
  | nil => exact moves_pure ()
  | cons t ts => exact h t List.mem_cons_self

theorem moves_choice : Moves start k (do
      let first ← push (.next (.branch ts.length))
      pushJumps ts.length
      let exits ← branches source (first + 1) ts
      patchJumps (← size) exits) (do
      let first ← push (.next (.branch (ts.map (Tree.shift k)).length))
      pushJumps (ts.map (Tree.shift k)).length
      let exits ← branches source' (first + 1) (ts.map (Tree.shift k))
      patchJumps (← size) exits) := by
  rw [List.length_map]
  refine (shifts_push _).bind fun _ _ => (moves_pushJumps _).bind fun _ _ => ?_
  exact (moves_branches h _).bind fun _ _ => shifts_size.bind fun _ _ => moves_patchJumps _ _

end Trees

/-- The code of a shifted tree is the code of the tree. -/
theorem moves_tree {source source' : String} {t : Tree} (h : t.Names (SameText k source source')) :
    Moves start k (tree source t) (tree source' (t.shift k)) := by
  induction t using Tree.induction with
  | node kind span children ih =>
    have hchildren (hkind : kind ≠ .reference ∧ kind ≠ .declaration) : ∀ t ∈ children,
        Moves start k (tree source t) (tree source' (t.shift k)) :=
      fun t ht => ih t ht ((Tree.names_node hkind).1 h t ht)
    rw [Tree.shift_node]
    cases kind with
    | character b => exact (shifts_push _).bind fun _ _ => moves_pure ()
    | string bs => exact moves_pushLiterals bs
    | wildcard => exact (shifts_push _).bind fun _ _ => moves_pure ()
    | declaration => exact moves_pure ()
    | range low high =>
      rw [tree, tree]
      dsimp only
      split
      · exact moves_throw _
      · exact (shifts_push _).bind fun _ _ => moves_pure ()
    | reference =>
      have hname : SameText k source source' span :=
        h ⟨.reference, span, children.length⟩ List.mem_cons_self (.inl rfl)
      rw [tree, tree, hname]
      exact moves_pushReference _ _
    | definition => exact moves_trees (hchildren (by decide))
    | group => exact moves_trees (hchildren (by decide))
    | choice => exact moves_choice (hchildren (by decide))
    | exactly count => exact moves_exactly (moves_operand (hchildren (by simp))) span count
    | between min max => exact moves_between (moves_operand (hchildren (by simp))) span min max
    | atLeast min => exact moves_atLeast (moves_operand (hchildren (by simp))) span min

theorem moves_body {source source' : String} {items : List Tree}
    (h : ∀ t ∈ items, t.Names (SameText k source source')) :
    Moves start k (body source items) (body source' (items.map (Tree.shift k))) :=
  (moves_trees fun t ht => moves_tree (h t ht)).bind fun _ _ =>
    (shifts_push _).bind fun _ _ => moves_pure ()

end Emit
end LexicalPatterns
