import LexicalPatterns.Batch

/-!
# Origins of references

Each reference in a batch comes from the source that the batch was at when it was written, and a
copy of it from the same one. So a batch that has only been at sources below some bound has no
references from others, and if it cannot be finished, one of those sources is to blame.
-/

namespace LexicalPatterns

/-- Whether the references of an emitter come from sources below `bound`, and those to come do. -/
structure Emitter.Within (bound : Nat) (e : Emitter) : Prop where
  origin : e.origin < bound
  fixups : ∀ f ∈ e.fixups, f.origin < bound

namespace Emit

/-- Whether a step, however it ends, only adds references from the emitter's source. -/
def Keeps {α : Type} (x : Emit α) : Prop :=
  ∀ bound e, Emitter.Within bound e → Emitter.Within bound (x.run e).2

section

variable {α β : Type} {x : Emit α} {f : α → Emit β}

theorem keeps_pure (a : α) : Keeps (pure a : Emit α) := fun _ _ h => h

theorem keeps_throw (refusal : CompileError) : Keeps (throw refusal : Emit α) := fun _ _ h => h

theorem Keeps.bind (hx : Keeps x) (hf : ∀ a, Keeps (f a)) : Keeps (x >>= f) := by
  intro bound e h
  have hx := hx bound e h
  change Emitter.Within bound (ExceptT.bindCont f (x.run e).1 (x.run e).2).2
  cases (x.run e).1 with
  | error refusal => exact hx
  | ok a => exact hf a bound _ hx

theorem keeps_get : Keeps (get : Emit Emitter) := fun _ _ h => h

theorem keeps_lift (result : Except CompileError α) : Keeps (liftM result : Emit α) := by
  cases result with
  | error refusal => exact keeps_throw refusal
  | ok a => exact keeps_pure a

theorem keeps_write (g : Emitter → CodeBuffer) :
    Keeps (modify fun e => { e with buffer := g e } : Emit Unit) :=
  fun _ _ h => ⟨h.origin, h.fixups⟩

end

theorem keeps_size : Keeps size := keeps_get.bind fun _ => keeps_pure _

theorem keeps_push (i : Instruction) : Keeps (push i) :=
  keeps_size.bind fun _ => (keeps_write _).bind fun _ => keeps_pure _

theorem keeps_pushReference (name : String) (span : Span) : Keeps (pushReference name span) := by
  refine (keeps_push _).bind fun index => ?_
  intro bound e h
  refine ⟨h.origin, fun f hf => ?_⟩
  rcases Array.mem_push.1 hf with hf | rfl
  · exact h.fixups f hf
  · exact h.origin

theorem keeps_patchJump (index target : Nat) : Keeps (patchJump index target) := keeps_write _

theorem keeps_guard : Keeps guard :=
  (keeps_push _).bind fun _ => (keeps_push _).bind fun _ => keeps_push _

theorem keeps_duplicate (start stop : Nat) : Keeps (duplicate start stop) := by
  intro bound e h
  refine ⟨h.origin, fun f hf => ?_⟩
  rcases Array.mem_append.1 hf with hf | hf
  · exact h.fixups f hf
  · obtain ⟨g, hg, rfl⟩ := Array.mem_map.1 hf
    exact h.fixups g (Array.mem_filter.1 hg).1

theorem keeps_checkBudget (more : Nat) (span : Span) : Keeps (checkBudget more span) := by
  refine keeps_get.bind fun e => ?_
  split
  · exact keeps_throw _
  · exact keeps_pure _

section

variable {operand : Emit Unit} (hoperand : Keeps operand) (span : Span)

include hoperand

theorem keeps_copy (template : Template) : Keeps (copy operand span template) := by
  cases template with
  | some place =>
    exact (keeps_checkBudget _ span).bind fun _ => (keeps_duplicate _ _).bind fun _ => keeps_pure _
  | none =>
    exact keeps_size.bind fun _ => hoperand.bind fun _ => keeps_size.bind fun _ => keeps_pure _

theorem keeps_copies (count : Nat) (template : Template) :
    Keeps (copies operand span count template) := by
  induction count generalizing template with
  | zero => exact keeps_pure _
  | succ count ih => exact (keeps_copy hoperand span template).bind ih

theorem keeps_guarded (count : Nat) (template : Template) :
    Keeps (guarded operand span count template) := by
  induction count generalizing template with
  | zero => exact keeps_pure _
  | succ count ih =>
    exact keeps_guard.bind fun _ => (keeps_copy hoperand span template).bind fun template =>
      (ih template).bind fun _ => keeps_pure _

end

theorem keeps_pushJumps (count : Nat) : Keeps (pushJumps count) := by
  induction count with
  | zero => exact keeps_pure _
  | succ count ih => exact (keeps_push _).bind fun _ => ih

theorem keeps_pushLiterals (bs : List UInt8) : Keeps (pushLiterals bs) := by
  induction bs with
  | nil => exact keeps_pure _
  | cons b bs ih => exact (keeps_push _).bind fun _ => ih

theorem keeps_patchJumps (target : Nat) (indices : List Nat) :
    Keeps (patchJumps target indices) := by
  induction indices with
  | nil => exact keeps_pure _
  | cons index indices ih => exact (keeps_patchJump index target).bind fun _ => ih

section

variable {operand : Emit Unit} (hoperand : Keeps operand) (span : Span)

include hoperand

theorem keeps_exactly (count : Nat) : Keeps (exactly operand span count) :=
  (keeps_lift _).bind fun _ => (keeps_copies hoperand span count none).bind fun _ => keeps_pure _

theorem keeps_between (min max : Nat) : Keeps (between operand span min max) := by
  have hrest : Keeps (do
      liftM (checkRepeat max span)
      let template ← copies operand span min none
      let skips ← guarded operand span (max - min) template
      patchJumps (← size) skips) :=
    (keeps_lift _).bind fun _ => (keeps_copies hoperand span min none).bind fun template =>
      (keeps_guarded hoperand span (max - min) template).bind fun skips =>
      keeps_size.bind fun _ => keeps_patchJumps _ skips
  unfold between
  split
  · exact (keeps_throw _).bind fun _ => hrest
  · exact hrest

theorem keeps_atLeast (min : Nat) : Keeps (atLeast operand span min) :=
  (keeps_lift _).bind fun _ => (keeps_copies hoperand span min none).bind fun _ =>
    keeps_size.bind fun _ => keeps_guard.bind fun _ => (keeps_copy hoperand span _).bind fun _ =>
    (keeps_push _).bind fun _ => (keeps_patchJump _ _).bind fun _ => keeps_size.bind fun _ =>
    keeps_patchJump _ _

end

mutual

theorem keeps_tree (source : String) (t : Tree) : Keeps (tree source t) := by
  obtain ⟨kind, span, children⟩ := t
  cases kind with
  | character b => exact (keeps_push _).bind fun _ => keeps_pure _
  | string bs => exact keeps_pushLiterals bs
  | range low high =>
    have hrest : Keeps (do let _ ← push (.next (.range low high)) : Emit Unit) :=
      (keeps_push _).bind fun _ => keeps_pure _
    unfold tree
    dsimp only
    split
    · exact (keeps_throw _).bind fun _ => hrest
    · exact hrest
  | wildcard => exact (keeps_push _).bind fun _ => keeps_pure _
  | reference => exact keeps_pushReference _ span
  | declaration => exact keeps_pure _
  | definition | group => exact keeps_trees source children
  | choice =>
    exact (keeps_push _).bind fun first => (keeps_pushJumps _).bind fun _ =>
      (keeps_branches source (first + 1) children).bind fun exits =>
      keeps_size.bind fun _ => keeps_patchJumps _ exits
  | exactly count => exact keeps_exactly (keeps_operand source children) span count
  | between min max => exact keeps_between (keeps_operand source children) span min max
  | atLeast min => exact keeps_atLeast (keeps_operand source children) span min

theorem keeps_trees (source : String) (ts : List Tree) : Keeps (trees source ts) := by
  match ts with
  | [] => exact keeps_pure _
  | t :: ts => exact (keeps_tree source t).bind fun _ => keeps_trees source ts

theorem keeps_branches (source : String) (entry : Nat) (ts : List Tree) :
    Keeps (branches source entry ts) := by
  match ts with
  | [] => exact keeps_pure _
  | t :: ts =>
    refine keeps_size.bind fun _ => (keeps_patchJump _ _).bind fun _ =>
      (keeps_tree source t).bind fun _ => ?_
    split
    · exact keeps_pure _
    · exact (keeps_push _).bind fun _ =>
        (keeps_branches source (entry + 1) ts).bind fun _ => keeps_pure _

theorem keeps_operand (source : String) (ts : List Tree) : Keeps (operand source ts) := by
  match ts with
  | [] => exact keeps_pure _
  | t :: _ => exact keeps_tree source t

end

theorem keeps_body (source : String) (items : List Tree) : Keeps (body source items) :=
  (keeps_trees source items).bind fun _ => (keeps_push _).bind fun _ => keeps_pure _

end Emit

namespace Batch

/-- Whether the references that wait in a batch come from sources below `bound`. -/
def Within (b : Batch) (bound : Nat) : Prop := ∀ f ∈ b.fixups, f.origin < bound

theorem origin_compile (b : Batch) (source : String) (f : Forest) :
    (b.compile source f).2.origin = b.origin := by
  unfold compile
  split
  · split
    · rfl
    · dsimp only
      split
      · rfl
      · split <;> rfl
  · rfl
  · rfl

variable {b : Batch} {bound : Nat}

theorem Within.compile (h : b.Within bound) (horigin : b.origin < bound) (source : String)
    (f : Forest) : (b.compile source f).2.Within bound := by
  unfold Batch.compile
  split
  · dsimp only
    split
    · exact h
    · have hbody := Emit.keeps_body source f.items bound
        ⟨b.buffer, b.fixups, b.origin, b.buffer.size⟩ ⟨horigin, h⟩
      split
      · next _ e hresult =>
        rw [hresult] at hbody
        intro g hg
        have hg : g ∈ (e.fixups.take b.fixups.size).toList := hg.val
        rw [Array.take_eq_extract, Array.toList_extract, List.extract_eq_take_drop] at hg
        exact hbody.fixups g (.mk (List.mem_of_mem_take hg))
      · next hresult =>
        rw [hresult] at hbody
        split <;> exact hbody.fixups
  · exact h
  · exact h

theorem Within.defineAll (h : b.Within bound) (horigin : b.origin < bound) (source : String)
    (fs : List Forest) : (Batch.defineAll source fs b).2.Within bound := by
  induction fs generalizing b with
  | nil => exact h
  | cons f fs ih =>
    have hcompile := h.compile horigin source f
    have hsame := b.origin_compile source f
    unfold Batch.defineAll
    rcases hresult : b.compile source f with ⟨e | p, b'⟩ <;> rw [hresult] at hcompile hsame
    · exact hcompile
    · exact ih hcompile (hsame.symm ▸ horigin)

theorem Within.defineSource (h : b.Within bound) (horigin : b.origin < bound) (source : String) :
    (b.defineSource source).2.Within bound := by
  unfold Batch.defineSource
  split
  · exact h
  · exact h.defineAll horigin source _

/-- Only a reference can keep a batch from being finished. -/
theorem Within.origin_lt_of_finish (h : b.Within bound) {strict : Bool} {e : CompileError}
    (hfinish : b.finish strict = .error e) : e.origin < bound := by
  unfold finish at hfinish
  split at hfinish
  · next f fs hfilter =>
    obtain rfl := Except.error.inj hfinish
    have hf : f ∈ b.fixups.toList.filter (isDangling b.names) := hfilter ▸ List.mem_cons_self
    exact h f (.mk (List.mem_filter.1 hf).1)
  · cases hfinish

end Batch

end LexicalPatterns
