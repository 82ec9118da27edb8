import LexicalPatterns.Proofs.Emission.Check
import LexicalPatterns.Proofs.Emission.Trees

/-!
# Writing every copy afresh

The code of a definition can be written without templates: each copy that a repetition asks for is
then written from the tree of its operand, and no size is too large. This writes the same layouts,
and refuses a tree for the same nodes.
-/

namespace LexicalPatterns.Emit

namespace Afresh

/-- Writes an operand so many times. -/
def copies (operand : Emit Unit) : (count : Nat) → Emit Unit
  | 0 => return
  | count + 1 => do
    operand
    copies operand count

def guarded (operand : Emit Unit) : (count : Nat) → Emit (List Nat)
  | 0 => return []
  | count + 1 => do
    let skip ← guard
    operand
    let skips ← guarded operand count
    return skip :: skips

def exactly (operand : Emit Unit) (span : Span) (count : Nat) : Emit Unit := do
  liftM (checkRepeat count span)
  copies operand count

def between (operand : Emit Unit) (span : Span) (min max : Nat) : Emit Unit := do
  if min > max then throw (.malformedRepetition min max span)
  liftM (checkRepeat max span)
  copies operand min
  let skips ← guarded operand (max - min)
  patchJumps (← size) skips

def atLeast (operand : Emit Unit) (span : Span) (min : Nat) : Emit Unit := do
  liftM (checkRepeat min span)
  copies operand min
  let head ← size
  let exit ← guard
  operand
  let back ← push (.jump 0)
  patchJump back head
  patchJump exit (← size)

mutual

def tree (source : String) : Tree → Emit Unit
  | .node kind span children =>
    match kind with
    | .character b => do let _ ← push (.next (.literal b))
    | .string bs => pushLiterals bs
    | .range low high => do
      if low > high then throw (.invertedRange low high span)
      let _ ← push (.next (.range low high))
    | .wildcard => do let _ ← push (.next (.range 0 255))
    | .reference => pushReference (span.text source) span
    | .declaration => return
    | .definition | .group => trees source children
    | .choice => do
      let first ← push (.next (.branch children.length))
      pushJumps children.length
      let exits ← branches source (first + 1) children
      patchJumps (← size) exits
    | .exactly count => exactly (operand source children) span count
    | .between min max => between (operand source children) span min max
    | .atLeast min => atLeast (operand source children) span min

def trees (source : String) : List Tree → Emit Unit
  | [] => return
  | t :: ts => do
    tree source t
    trees source ts

def branches (source : String) (entry : Nat) : List Tree → Emit (List Nat)
  | [] => return []
  | t :: ts => do
    patchJump entry (← size)
    tree source t
    if ts.isEmpty then return []
    else
      let exit ← push (.jump 0)
      let exits ← branches source (entry + 1) ts
      return exit :: exits

def operand (source : String) : List Tree → Emit Unit
  | [] => return
  | t :: _ => tree source t

end

def body (source : String) (items : List Tree) : Emit Unit := do
  trees source items
  let _ ← push (.next .terminal)

theorem trees_eq (source : String) (ts : List Tree) :
    trees source ts = writeTrees (tree source) ts := by
  induction ts with
  | nil => rfl
  | cons t ts ih => rw [trees, writeTrees, ih]

theorem branches_eq (source : String) (entry : Nat) (ts : List Tree) :
    branches source entry ts = writeBranches (tree source) entry ts := by
  induction ts generalizing entry with
  | nil => rfl
  | cons t ts ih =>
    rw [branches, writeBranches]
    simp only [ih]

end Afresh

open Draft LexicalPatterns.Tree

variable {e₀ : Emitter} {ds body : List Draft} {operand : Emit Unit} {refusal : CompileError}

section Checked

variable {x : Emit Unit} {c : Except CompileError Unit}

theorem agrees_map (hok : c = .ok () → Gives e₀ ds x () (ds ++ body))
    (herror : ∀ refusal, c = .error refusal → Refuses e₀ ds x refusal) :
    Agrees e₀ ds x (c.map fun _ => body) := by
  cases c with
  | error refusal => exact herror refusal rfl
  | ok u => exact hok rfl

theorem Agrees.gives_of_map (h : Agrees e₀ ds x (c.map fun _ => body)) (hc : c = .ok ()) :
    Gives e₀ ds x () (ds ++ body) :=
  h.gives (by rw [hc]; rfl)

theorem Agrees.refuses_of_map (h : Agrees e₀ ds x (c.map fun _ => body))
    (hc : c = .error refusal) : Refuses e₀ ds x refusal :=
  h.refuses (by rw [hc]; rfl)

end Checked

theorem gives_copies_afresh (hoperand : ∀ ds, Gives e₀ ds operand () (ds ++ body)) (count : Nat) :
    Gives e₀ ds (Afresh.copies operand count) () (ds ++ Draft.copies count body) := by
  induction count generalizing ds with
  | zero =>
    rw [copies_zero, List.append_nil]
    exact gives_pure e₀ ds ()
  | succ count ih =>
    rw [copies_succ, ← List.append_assoc]
    exact (hoperand ds).bind ih

theorem gives_guarded_afresh (hoperand : ∀ ds, Gives e₀ ds operand () (ds ++ body))
    (count : Nat) :
    Gives e₀ ds (Afresh.guarded operand count)
      (skips (e₀.buffer.size + ds.length) body.length count) (ds ++ pending body count) := by
  induction count generalizing ds with
  | zero =>
    rw [pending, List.append_nil]
    exact gives_pure e₀ ds []
  | succ count ih => exact gives_guard_bind (hoperand _) ih

theorem refuses_copies_afresh (hoperand : Refuses e₀ ds operand refusal) (count : Nat) :
    Refuses e₀ ds (Afresh.copies operand (count + 1)) refusal :=
  hoperand.bind _

theorem refuses_guarded_afresh (hoperand : ∀ ds, Refuses e₀ ds operand refusal) (count : Nat) :
    Refuses e₀ ds (Afresh.guarded operand (count + 1)) refusal :=
  (gives_guard e₀ ds).bind_refuses ((hoperand _).bind _)

section Agreement

variable {cs : List (Except CompileError Unit)}
  (hoperand : ∀ ds, Agrees e₀ ds operand ((checkAll (cs.take 1)).map fun _ => body))
  (ds : List Draft) (span : Span)
include hoperand

theorem exactly_agrees_afresh (count : Nat) :
    Agrees e₀ ds (Afresh.exactly operand span count)
      ((do
        (NodeKind.exactly count).check span
        checkAll ((NodeKind.exactly count).written cs)).map fun _ => Draft.copies count body) := by
  rw [map_bind_eq]
  refine agrees_lift_bind fun _ _ => ?_
  cases count with
  | zero =>
    change Gives e₀ ds _ () (ds ++ [])
    rw [List.append_nil]
    exact gives_pure e₀ ds ()
  | succ count =>
    refine agrees_map (fun hc => ?_) fun refusal hc => ?_
    · exact gives_copies_afresh (fun ds => (hoperand ds).gives_of_map hc) (count + 1)
    · exact refuses_copies_afresh ((hoperand ds).refuses_of_map hc) count

theorem between_agrees_afresh (min max : Nat) :
    Agrees e₀ ds (Afresh.between operand span min max)
      ((do
        (NodeKind.between min max).check span
        checkAll ((NodeKind.between min max).written cs)).map fun _ =>
          Draft.copies min body ++ optional body (max - min)) := by
  rw [NodeKind.check, Afresh.between]
  dsimp only
  split
  · exact refuses_throw e₀ ds _
  · next hle =>
    rw [map_bind_eq]
    refine agrees_lift_bind fun _ _ => ?_
    rw [NodeKind.written]
    by_cases hmax : max = 0
    · obtain ⟨rfl, rfl⟩ : min = 0 ∧ max = 0 := by omega
      change Gives e₀ ds _ () (ds ++ [])
      rw [List.append_nil]
      exact (gives_pure e₀ ds ()).bind ((gives_pure e₀ ds []).bind
        ((gives_size e₀ ds).bind (gives_pure e₀ ds ())))
    · rw [if_neg hmax]
      refine agrees_map (fun hc => ?_) fun refusal hc => ?_
      · have hgives ds := (hoperand ds).gives_of_map hc
        rw [← List.append_assoc]
        exact (gives_copies_afresh hgives min).bind
          ((gives_guarded_afresh hgives (max - min)).bind
            ((gives_size e₀ _).bind (gives_patchJumps_skips e₀ _ body (max - min))))
      · have hrefuses ds := (hoperand ds).refuses_of_map hc
        cases min with
        | zero =>
          obtain ⟨count, hcount⟩ : ∃ n, max - 0 = n + 1 := ⟨max - 1, by omega⟩
          rw [hcount]
          exact (gives_pure e₀ ds ()).bind_refuses ((refuses_guarded_afresh hrefuses count).bind _)
        | succ min => exact (refuses_copies_afresh (hrefuses ds) min).bind _

theorem atLeast_agrees_afresh (min : Nat) :
    Agrees e₀ ds (Afresh.atLeast operand span min)
      ((do
        (NodeKind.atLeast min).check span
        checkAll ((NodeKind.atLeast min).written cs)).map fun _ =>
          Draft.copies min body ++ loop body) := by
  rw [map_bind_eq]
  refine agrees_lift_bind fun _ _ => agrees_map (fun hc => ?_) fun refusal hc => ?_
  · have hgives ds := (hoperand ds).gives_of_map hc
    rw [← List.append_assoc]
    exact (gives_copies_afresh hgives min).bind (gives_loop (hgives _))
  · have hrefuses ds := (hoperand ds).refuses_of_map hc
    cases min with
    | zero =>
      exact (gives_pure e₀ ds ()).bind_refuses ((gives_size e₀ ds).bind_refuses
        ((gives_guard e₀ ds).bind_refuses ((hrefuses _).bind _)))
    | succ min => exact (refuses_copies_afresh (hrefuses ds) min).bind _

end Agreement

/-- The layout of a tree, unless it is refused for one of its nodes. -/
def checkedDrafts (source : String) (t : Tree) : Except CompileError (List Draft) :=
  t.check.map fun _ => t.drafts source

theorem layoutTrees_checkedDrafts (source : String) (start : Nat) (ts : List Tree) :
    layoutTrees (fun _ => checkedDrafts source) start ts =
      (checkAll (checks ts)).map fun _ => (draftsAll source ts).flatten := by
  induction ts generalizing start with
  | nil => rfl
  | cons t ts ih =>
    rw [layoutTrees, checks, checkAll, draftsAll, checkedDrafts]
    cases t.check with
    | error refusal => rfl
    | ok u =>
      simp only [Except.map, ih]
      cases checkAll (checks ts) <;> rfl

theorem layoutBranches_checkedDrafts (source : String) (start : Nat) (ts : List Tree) :
    layoutBranches (fun _ => checkedDrafts source) start ts =
      (checkAll (checks ts)).map fun _ => draftsAll source ts := by
  induction ts generalizing start with
  | nil => rfl
  | cons t ts ih =>
    rw [layoutBranches, checks, checkAll, draftsAll, checkedDrafts]
    cases t.check with
    | error refusal => rfl
    | ok u =>
      simp only [Except.map, ih]
      cases checkAll (checks ts) <;> rfl

section Trees

variable {source : String} {ts : List Tree}
  (htrees : ∀ t ∈ ts, ∀ ds, Agrees e₀ ds (Afresh.tree source t) (checkedDrafts source t))
  (ds : List Draft)
include htrees

theorem trees_agrees_afresh :
    Agrees e₀ ds (Afresh.trees source ts)
      ((checkAll (checks ts)).map fun _ => (draftsAll source ts).flatten) := by
  rw [Afresh.trees_eq, ← layoutTrees_checkedDrafts source ds.length]
  exact writeTrees_agrees htrees ds

theorem choice_agrees_afresh :
    Agrees e₀ ds (writeChoice (Afresh.tree source) ts)
      ((checkAll (checks ts)).map fun _ => choice (draftsAll source ts)) := by
  have hchoice : Agrees e₀ ds (writeChoice (Afresh.tree source) ts) (do
      let bodies ← layoutBranches (fun _ => checkedDrafts source) (ds.length + 1 + ts.length) ts
      return choice bodies) :=
    writeChoice_agrees htrees ds
  rw [layoutBranches_checkedDrafts] at hchoice
  cases hc : checkAll (checks ts) with
  | error refusal => rwa [hc] at hchoice
  | ok u => rwa [hc] at hchoice

theorem operand_agrees_afresh :
    Agrees e₀ ds (Afresh.operand source ts)
      ((checkAll ((checks ts).take 1)).map fun _ => (draftsAll source ts).headD []) := by
  cases ts with
  | nil =>
    change Gives e₀ ds _ () (ds ++ [])
    rw [List.append_nil]
    exact gives_pure e₀ ds ()
  | cons t ts =>
    rw [checkAll_take_one]
    exact htrees t List.mem_cons_self ds

end Trees

/-- What is written afresh for a tree is its layout, wherever it stands. -/
theorem tree_agrees_afresh (e₀ : Emitter) (source : String) (t : Tree) (ds : List Draft) :
    Agrees e₀ ds (Afresh.tree source t) (checkedDrafts source t) := by
  induction t using Tree.induction generalizing ds with
  | node kind span children ih =>
    have htrees := trees_agrees_afresh fun t ht ds => ih t ht ds
    have hchoice := choice_agrees_afresh fun t ht ds => ih t ht ds
    have hoperand := operand_agrees_afresh fun t ht ds => ih t ht ds
    rw [checkedDrafts, check]
    cases kind with
    | definition => exact htrees ds
    | group => exact htrees ds
    | declaration =>
      change Gives e₀ ds _ () (ds ++ [])
      rw [List.append_nil]
      exact gives_pure e₀ ds ()
    | reference => exact gives_pushReference e₀ ds _ _
    | character b => exact (gives_push e₀ ds _).bind (gives_pure e₀ _ ())
    | string bs => exact gives_pushLiterals e₀ ds bs
    | wildcard => exact (gives_push e₀ ds _).bind (gives_pure e₀ _ ())
    | range low high =>
      rw [Afresh.tree, NodeKind.check]
      dsimp only
      split
      · exact refuses_throw e₀ ds _
      · exact (gives_push e₀ ds _).bind (gives_pure e₀ _ ())
    | choice =>
      rw [Afresh.tree]
      simp only [Afresh.branches_eq]
      exact hchoice ds
    | exactly count => exact exactly_agrees_afresh hoperand ds span count
    | between min max => exact between_agrees_afresh hoperand ds span min max
    | atLeast min => exact atLeast_agrees_afresh hoperand ds span min

theorem body_agrees_afresh (e₀ : Emitter) (source : String) (items : List Tree) :
    Agrees e₀ [] (Afresh.body source items) ((checkAll (checks items)).map fun _ =>
      (draftsAll source items).flatten ++ [.emit .terminal]) := by
  have htrees : Agrees e₀ [] (Afresh.trees source items) ((checkAll (checks items)).map fun _ =>
      (draftsAll source items).flatten) :=
    trees_agrees_afresh (fun t _ => tree_agrees_afresh e₀ source t) []
  refine agrees_map (fun hc => ?_) fun refusal hc => (htrees.refuses_of_map hc).bind _
  exact (htrees.gives_of_map hc).bind ((gives_push e₀ _ _).bind (gives_pure e₀ _ ()))

end LexicalPatterns.Emit
