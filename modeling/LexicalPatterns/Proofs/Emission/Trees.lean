import LexicalPatterns.Proofs.Emission.Repetitions
import LexicalPatterns.Proofs.Except

/-!
# Writing trees

What is written for a tree is its layout, and a tree is refused for the reason for which its layout
is. Each branch of a choice finds its entry jump unpatched; the jumps behind the branches are
patched when the last branch is written.
-/

namespace LexicalPatterns.Emit

open Draft

/-- The branches of a choice, each but the last with a jump that is not patched. -/
def withPending : List (List Draft) → List (List Draft)
  | [] => []
  | [b] => [b]
  | b :: bs => (b ++ [jump 0]) :: withPending bs

/-- Where the jumps behind the branches stand, if the first branch stands at `first`. -/
def exits (first : Nat) : List (List Draft) → List Nat
  | [] => []
  | [_] => []
  | b :: bs => (first + b.length) :: exits (first + b.length + 1) bs

theorem withPending_cons_cons (b b' : List Draft) (bs : List (List Draft)) :
    withPending (b :: b' :: bs) = (b ++ [jump 0]) :: withPending (b' :: bs) := rfl

theorem exits_cons_cons (first : Nat) (b b' : List Draft) (bs : List (List Draft)) :
    exits first (b :: b' :: bs) =
      (first + b.length) :: exits (first + b.length + 1) (b' :: bs) := rfl

theorem map_length_withPending (bodies : List (List Draft)) :
    (withPending bodies).map List.length = (withExits bodies).map List.length := by
  induction bodies with
  | nil => rfl
  | cons b bs ih =>
    cases bs with
    | nil => rfl
    | cons b' bs =>
      rw [withPending_cons_cons, withExits_cons_cons, List.map_cons, ih, List.map_cons,
        List.length_append, List.length_append]
      rfl

theorem length_flatten_withPending (bodies : List (List Draft)) :
    (withPending bodies).flatten.length = (withExits bodies).flatten.length := by
  rw [List.length_flatten, map_length_withPending, ← List.length_flatten]

/-- The jumps to the branches depend on the lengths of the branches only. -/
theorem entries_congr {bodies bodies' : List (List Draft)}
    (h : bodies.map List.length = bodies'.map List.length) (distance : Nat) :
    entries distance bodies = entries distance bodies' := by
  induction bodies generalizing bodies' distance with
  | nil =>
    obtain rfl := List.map_eq_nil_iff.1 h.symm
    rfl
  | cons b bs ih =>
    obtain ⟨b', bs', rfl, hb, hbs⟩ := List.map_eq_cons_iff.1 h.symm
    rw [entries, entries, hb, ih hbs.symm]

variable {e₀ : Emitter} {source : String}

theorem gives_pushJumps (e₀ : Emitter) (ds : List Draft) (count : Nat) :
    Gives e₀ ds (pushJumps count) () (ds ++ List.replicate count (jump 0)) := by
  induction count generalizing ds with
  | zero =>
    rw [List.replicate_zero, List.append_nil]
    exact gives_pure e₀ ds ()
  | succ count ih =>
    rw [List.replicate_succ, List.append_cons]
    exact (gives_push e₀ ds _).bind (ih _)

theorem gives_pushLiterals (e₀ : Emitter) (ds : List Draft) (bs : List UInt8) :
    Gives e₀ ds (pushLiterals bs) () (ds ++ bs.map fun b => emit (.literal b)) := by
  induction bs generalizing ds with
  | nil =>
    rw [List.map_nil, List.append_nil]
    exact gives_pure e₀ ds ()
  | cons b bs ih =>
    rw [List.map_cons, List.append_cons]
    exact (gives_push e₀ ds _).bind (ih _)

theorem gives_patchJumps_exits (e₀ : Emitter) (ds : List Draft) (bodies : List (List Draft)) :
    Gives e₀ (ds ++ (withPending bodies).flatten)
      (patchJumps (e₀.buffer.size + (ds ++ (withPending bodies).flatten).length)
        (exits (e₀.buffer.size + ds.length) bodies)) ()
      (ds ++ (withExits bodies).flatten) := by
  induction bodies generalizing ds with
  | nil => exact gives_pure e₀ _ ()
  | cons b bs ih =>
    cases bs with
    | nil => exact gives_pure e₀ _ ()
    | cons b' bs =>
      let rest := (withPending (b' :: bs)).flatten
      let exit := jump ((withExits (b' :: bs)).flatten.length + 1)
      have hpending : ds ++ (withPending (b :: b' :: bs)).flatten = ds ++ b ++ jump 0 :: rest := by
        rw [withPending_cons_cons, List.flatten_cons, List.append_assoc, List.append_assoc]
        rfl
      have hexits : ds ++ (withExits (b :: b' :: bs)).flatten =
          ds ++ b ++ [exit] ++ (withExits (b' :: bs)).flatten := by
        rw [withExits_cons_cons, List.flatten_cons]
        simp only [List.append_assoc]
        rfl
      have hpatch := gives_patchJump e₀ (ds ++ b) rest (ds ++ b ++ jump 0 :: rest).length
      have hmovement : ((ds ++ b ++ jump 0 :: rest).length : Int) - (ds ++ b).length =
          (withExits (b' :: bs)).flatten.length + 1 := by
        rw [List.length_append, List.length_cons, length_flatten_withPending]
        omega
      rw [hmovement, List.append_cons _ exit] at hpatch
      have hrest := ih (ds ++ b ++ [exit])
      have hlast : (ds ++ b ++ [exit] ++ rest).length = (ds ++ b ++ jump 0 :: rest).length := by
        simp
      have hfirst : e₀.buffer.size + (ds ++ b ++ [exit]).length =
          e₀.buffer.size + ds.length + b.length + 1 := by
        simp [Nat.add_assoc]
      have hindex : e₀.buffer.size + (ds ++ b).length = e₀.buffer.size + ds.length + b.length := by
        rw [List.length_append, Nat.add_assoc]
      rw [hlast, hfirst] at hrest
      rw [hindex] at hpatch
      rw [hpending, hexits]
      exact hpatch.bind hrest

/-- A choice while it is written: `pre` and its jumps, of which the last `count` are not patched,
and `mid` with the branches so far. -/
def awaiting (pre mid : List Draft) (count : Nat) : List Draft :=
  pre ++ List.replicate count (jump 0) ++ mid

theorem length_awaiting (pre mid : List Draft) (count : Nat) :
    (awaiting pre mid count).length = pre.length + count + mid.length := by
  rw [awaiting, List.length_append, List.length_append, List.length_replicate]

theorem awaiting_append (pre mid more : List Draft) (count : Nat) :
    awaiting pre mid count ++ more = awaiting pre (mid ++ more) count :=
  List.append_assoc _ _ _

/-- What stands before the jumps that are not patched, when one more of them is. -/
def enter (pre mid : List Draft) (count : Nat) : List Draft :=
  pre ++ [jump (count + 1 + mid.length : Nat)]

theorem length_enter (pre mid : List Draft) (count : Nat) :
    (enter pre mid count).length = pre.length + 1 := List.length_append

theorem gives_patchEntry (e₀ : Emitter) (pre mid : List Draft) (count : Nat) :
    Gives e₀ (awaiting pre mid (count + 1))
      (patchJump (e₀.buffer.size + pre.length)
        (e₀.buffer.size + (awaiting pre mid (count + 1)).length)) ()
      (awaiting (enter pre mid count) mid count) := by
  have hpatch := gives_patchJump e₀ pre (List.replicate count (jump 0) ++ mid)
    (awaiting pre mid (count + 1)).length
  have hmovement : ((awaiting pre mid (count + 1)).length : Int) - pre.length =
      (count + 1 + mid.length : Nat) := by
    rw [length_awaiting]
    omega
  rw [hmovement] at hpatch
  simpa [awaiting, enter, List.replicate_succ] using hpatch

section Layout

variable (layout : Nat → Tree → Except CompileError (List Draft))

def layoutTrees (start : Nat) : List Tree → Except CompileError (List Draft)
  | [] => .ok []
  | t :: ts => do
    let first ← layout start t
    let rest ← layoutTrees (start + first.length) ts
    return first ++ rest

def layoutBranches (start : Nat) : List Tree → Except CompileError (List (List Draft))
  | [] => .ok []
  | t :: ts => do
    let first ← layout start t
    let rest ← layoutBranches (start + first.length + 1) ts
    return first :: rest

theorem ofTrees_eq (source : String) (start : Nat) (ts : List Tree) :
    ofTrees source start ts = layoutTrees (ofTree source) start ts := by
  induction ts generalizing start with
  | nil => rfl
  | cons t ts ih =>
    rw [ofTrees, layoutTrees]
    simp only [ih]

theorem ofBranches_eq (source : String) (start : Nat) (ts : List Tree) :
    ofBranches source start ts = layoutBranches (ofTree source) start ts := by
  induction ts generalizing start with
  | nil => rfl
  | cons t ts ih =>
    rw [ofBranches, layoutBranches]
    simp only [ih]

variable {layout}

theorem length_layoutBranches {start : Nat} {ts : List Tree} {bodies : List (List Draft)}
    (h : layoutBranches layout start ts = .ok bodies) : bodies.length = ts.length := by
  induction ts generalizing start bodies with
  | nil =>
    obtain rfl := Except.ok.inj h
    rfl
  | cons t ts ih =>
    obtain ⟨first, -, h⟩ := bind_eq_ok.1 h
    obtain ⟨others, hothers, h⟩ := bind_eq_ok.1 h
    obtain rfl := Except.ok.inj h
    rw [List.length_cons, ih hothers, List.length_cons]

end Layout

section Write

variable (write : Tree → Emit Unit)

/-- Writes trees one after the other, where `write` writes each. -/
def writeTrees : List Tree → Emit Unit
  | [] => return
  | t :: ts => do
    write t
    writeTrees ts

def writeBranches (entry : Nat) : List Tree → Emit (List Nat)
  | [] => return []
  | t :: ts => do
    patchJump entry (← size)
    write t
    if ts.isEmpty then return []
    else
      let exit ← push (.jump 0)
      let exits ← writeBranches (entry + 1) ts
      return exit :: exits

def writeChoice (ts : List Tree) : Emit Unit := do
  let first ← push (.next (.branch ts.length))
  pushJumps ts.length
  let exits ← writeBranches write (first + 1) ts
  patchJumps (← size) exits

theorem trees_eq (source : String) (ts : List Tree) :
    trees source ts = writeTrees (tree source) ts := by
  induction ts with
  | nil => rfl
  | cons t ts ih => rw [trees, writeTrees, ih]

theorem branches_eq (source : String) (entry : Nat) (ts : List Tree) :
    branches source entry ts = writeBranches (tree source) entry ts := by
  induction ts generalizing entry with
  | nil => rfl
  | cons t ts ih =>
    rw [branches, writeBranches]
    simp only [ih]

end Write

variable {write : Tree → Emit Unit} {layout : Nat → Tree → Except CompileError (List Draft)}

theorem branch_agrees {t : Tree}
    (ht : ∀ ds, Agrees e₀ ds (write t) (layout ds.length t))
    (pre mid : List Draft) (count : Nat) :
    Agrees e₀ (awaiting (enter pre mid count) mid count) (write t)
      (layout (pre.length + (count + 1) + mid.length) t) := by
  have hlength : (awaiting (enter pre mid count) mid count).length =
      pre.length + (count + 1) + mid.length := by
    rw [length_awaiting, length_enter]
    omega
  rw [← hlength]
  exact ht _

theorem gives_pushExit (e₀ : Emitter) (pre mid first : List Draft) (count : Nat) :
    Gives e₀ (awaiting (enter pre mid count) (mid ++ first) count) (push (.jump 0))
      (e₀.buffer.size + (pre.length + (count + 1) + mid.length + first.length))
      (awaiting (enter pre mid count) (mid ++ first ++ [jump 0]) count) := by
  have hpush := gives_push e₀ (awaiting (enter pre mid count) (mid ++ first) count) (.jump 0)
  have hexit : (awaiting (enter pre mid count) (mid ++ first) count).length =
      pre.length + (count + 1) + mid.length + first.length := by
    rw [length_awaiting, length_enter, List.length_append]
    omega
  rwa [awaiting_append, hexit] at hpush

theorem next_place (pre mid first : List Draft) (count : Nat) :
    (enter pre mid count).length + count + (mid ++ first ++ [jump 0]).length =
      pre.length + (count + 1) + mid.length + first.length + 1 := by
  simp only [length_enter, List.length_append, List.length_singleton]
  omega

section Branches

variable {ts : List Tree} (htrees : ∀ t ∈ ts, ∀ ds, Agrees e₀ ds (write t) (layout ds.length t))
include htrees

theorem writeTrees_agrees (ds : List Draft) :
    Agrees e₀ ds (writeTrees write ts) (layoutTrees layout ds.length ts) := by
  induction ts generalizing ds with
  | nil =>
    change Gives e₀ ds _ () (ds ++ [])
    rw [List.append_nil]
    exact gives_pure e₀ ds ()
  | cons t ts ih =>
    obtain ⟨ht, hts⟩ := List.forall_mem_cons.1 htrees
    refine agrees_bind (fun first hr => agrees_bind (fun rest hr' => ?_) fun refusal hr' => ?_)
      fun refusal hr => ((ht ds).refuses hr).bind _
    · rw [← List.length_append] at hr'
      change Gives e₀ ds _ () (ds ++ (first ++ rest))
      rw [← List.append_assoc]
      exact ((ht ds).gives hr).bind ((ih hts (ds ++ first)).gives hr')
    · rw [← List.length_append] at hr'
      exact ((ht ds).gives hr).bind_refuses ((ih hts (ds ++ first)).refuses hr')

theorem gives_writeBranches (pre mid : List Draft) {bodies : List (List Draft)}
    (hbodies : layoutBranches layout (pre.length + ts.length + mid.length) ts = .ok bodies) :
    Gives e₀ (awaiting pre mid ts.length) (writeBranches write (e₀.buffer.size + pre.length) ts)
      (exits (e₀.buffer.size + (pre.length + ts.length + mid.length)) bodies)
      (pre ++ entries (ts.length + mid.length) (withPending bodies) ++ mid ++
        (withPending bodies).flatten) := by
  induction ts generalizing pre mid bodies with
  | nil =>
    obtain rfl := Except.ok.inj hbodies
    have hpure := gives_pure e₀ (pre ++ mid) ([] : List Nat)
    simpa [writeBranches, awaiting, exits, withPending, entries] using hpure
  | cons t ts ih =>
    obtain ⟨ht, hts⟩ := List.forall_mem_cons.1 htrees
    obtain ⟨first, hfirst, hbodies⟩ := bind_eq_ok.1 hbodies
    obtain ⟨others, hothers, hbodies⟩ := bind_eq_ok.1 hbodies
    obtain rfl := Except.ok.inj hbodies
    rw [List.length_cons] at hfirst hothers ⊢
    have htree := (branch_agrees ht pre mid ts.length).gives hfirst
    rw [writeBranches]
    refine (gives_size e₀ _).bind ((gives_patchEntry e₀ pre mid ts.length).bind (htree.bind ?_))
    rw [awaiting_append]
    cases ts with
    | nil =>
      obtain rfl := Except.ok.inj hothers
      have hpure := gives_pure e₀ (pre ++ jump (1 + mid.length : Nat) :: (mid ++ first))
        ([] : List Nat)
      simpa [awaiting, enter, exits, withPending, entries] using hpure
    | cons t' ts =>
      obtain ⟨o, os, rfl⟩ := List.exists_cons_of_length_eq_add_one (length_layoutBranches hothers)
      rw [← next_place] at hothers
      have hmore := ih hts _ _ hothers
      have hdistance : (t' :: ts).length + 1 + mid.length + (first ++ [jump 0]).length - 1 =
          (t' :: ts).length + (mid ++ first ++ [jump 0]).length := by
        simp only [List.length_append, List.length_singleton]
        omega
      rw [next_place, length_enter] at hmore
      refine (gives_pushExit e₀ pre mid first _).bind (hmore.bind ?_)
      rw [withPending_cons_cons, entries, hdistance, exits_cons_cons, List.flatten_cons]
      simp only [enter, List.append_assoc, List.cons_append, List.nil_append, ← Nat.add_assoc]
      exact gives_pure e₀ _ _

theorem refuses_writeBranches (pre mid : List Draft) {refusal : CompileError}
    (hbodies : layoutBranches layout (pre.length + ts.length + mid.length) ts = .error refusal) :
    Refuses e₀ (awaiting pre mid ts.length)
      (writeBranches write (e₀.buffer.size + pre.length) ts) refusal := by
  induction ts generalizing pre mid with
  | nil => cases hbodies
  | cons t ts ih =>
    obtain ⟨ht, hts⟩ := List.forall_mem_cons.1 htrees
    have htree := branch_agrees ht pre mid ts.length
    rw [writeBranches]
    refine (gives_size e₀ _).bind_refuses
      ((gives_patchEntry e₀ pre mid ts.length).bind_refuses ?_)
    rcases bind_eq_error.1 hbodies with hfirst | ⟨first, hfirst, hbodies⟩
    · rw [List.length_cons] at hfirst
      exact (htree.refuses hfirst).bind _
    · rw [List.length_cons] at hfirst hbodies
      refine (htree.gives hfirst).bind_refuses ?_
      rw [awaiting_append]
      cases ts with
      | nil => cases hbodies
      | cons t' ts =>
        rcases bind_eq_error.1 hbodies with hothers | ⟨others, -, hothers⟩
        · rw [← next_place] at hothers
          have hmore := ih hts _ _ hothers
          rw [length_enter] at hmore
          exact (gives_pushExit e₀ pre mid first _).bind_refuses (hmore.bind _)
        · cases hothers

/-- What is written for a choice, where its trees are written as they are drafted. -/
theorem writeChoice_agrees (ds : List Draft) :
    Agrees e₀ ds (writeChoice write ts) (do
      let bodies ← layoutBranches layout (ds.length + 1 + ts.length) ts
      return choice bodies) := by
  have hawaiting : awaiting (ds ++ [emit (.branch ts.length)]) [] ts.length =
      ds ++ [emit (.branch ts.length)] ++ List.replicate ts.length (jump 0) := List.append_nil _
  have hlength : (ds ++ [emit (.branch ts.length)]).length = ds.length + 1 := List.length_append
  have hpush := gives_push e₀ ds (.next (.branch ts.length))
  have hjumps := gives_pushJumps e₀ (ds ++ [emit (.branch ts.length)]) ts.length
  rw [← hawaiting] at hjumps
  refine agrees_bind (fun bodies hbodies => ?_) fun refusal hbodies => ?_
  · have hbranches := gives_writeBranches htrees (ds ++ [emit (.branch ts.length)]) []
      (by rw [hlength]; exact hbodies)
    simp only [hlength, List.length_nil, Nat.add_zero, List.append_nil] at hbranches
    have hcount := length_layoutBranches hbodies
    have hentries : entries ts.length (withPending bodies) = entries ts.length (withExits bodies) :=
      entries_congr (map_length_withPending bodies) _
    rw [hentries] at hbranches
    have hpatch := gives_patchJumps_exits e₀
      (ds ++ [emit (.branch ts.length)] ++ entries ts.length (withExits bodies)) bodies
    have hplace : (ds ++ [emit (.branch ts.length)] ++
        entries ts.length (withExits bodies)).length = ds.length + 1 + ts.length := by
      rw [List.length_append, hlength, length_entries, length_withExits, hcount]
    have hchoice : ds ++ choice bodies = ds ++ [emit (.branch ts.length)] ++
        entries ts.length (withExits bodies) ++ (withExits bodies).flatten := by
      rw [choice, length_withExits, hcount]
      simp only [List.append_assoc, List.cons_append, List.nil_append]
    rw [hplace] at hpatch
    change Gives e₀ ds _ () (ds ++ choice bodies)
    rw [hchoice]
    exact hpush.bind (hjumps.bind (hbranches.bind ((gives_size e₀ _).bind hpatch)))
  · have hbranches := refuses_writeBranches htrees (ds ++ [emit (.branch ts.length)]) []
      (by rw [hlength]; exact hbodies)
    rw [hlength] at hbranches
    exact hpush.bind_refuses (hjumps.bind_refuses (hbranches.bind _))

end Branches

theorem operand_agrees {ts : List Tree}
    (htrees : ∀ t ∈ ts, ∀ ds, Agrees e₀ ds (tree source t) (ofTree source ds.length t))
    (ds : List Draft) : Agrees e₀ ds (operand source ts) (ofOperand source ds.length ts) := by
  cases ts with
  | nil =>
    change Gives e₀ ds _ () (ds ++ [])
    rw [List.append_nil]
    exact gives_pure e₀ ds ()
  | cons t ts => exact htrees t List.mem_cons_self ds

/-- What is written for a tree is its layout. -/
theorem tree_agrees (h : e₀.Fresh) (t : Tree) (ds : List Draft) :
    Agrees e₀ ds (tree source t) (ofTree source ds.length t) := by
  induction t using Tree.induction generalizing ds with
  | node kind span children ih =>
    have hoperand := operand_agrees fun t ht ds => ih t ht ds
    cases kind with
    | definition =>
      rw [tree, ofTree, trees_eq, ofTrees_eq]
      exact writeTrees_agrees (fun t ht ds => ih t ht ds) ds
    | group =>
      rw [tree, ofTree, trees_eq, ofTrees_eq]
      exact writeTrees_agrees (fun t ht ds => ih t ht ds) ds
    | declaration =>
      change Gives e₀ ds _ () (ds ++ [])
      rw [List.append_nil]
      exact gives_pure e₀ ds ()
    | reference => exact gives_pushReference e₀ ds _ _
    | character b => exact (gives_push e₀ ds _).bind (gives_pure e₀ _ ())
    | string bs => exact gives_pushLiterals e₀ ds bs
    | wildcard => exact (gives_push e₀ ds _).bind (gives_pure e₀ _ ())
    | range low high =>
      rw [tree, ofTree]
      dsimp only
      split
      · exact refuses_throw e₀ ds _
      · exact (gives_push e₀ ds _).bind (gives_pure e₀ _ ())
    | choice =>
      rw [tree, ofTree]
      simp only [branches_eq, ofBranches_eq]
      exact writeChoice_agrees (fun t ht ds => ih t ht ds) ds
    | exactly count =>
      exact exactly_agrees ds span (fun start => ofOperand source start children) h hoperand count
    | between min max =>
      exact between_agrees ds span (fun start => ofOperand source start children) h hoperand min max
    | atLeast min =>
      exact atLeast_agrees ds span (fun start => ofOperand source start children) h hoperand min

/-- What is written for a definition is the layout of its items, and a terminal. -/
theorem body_agrees (h : e₀.Fresh) (items : List Tree) :
    Agrees e₀ [] (body source items) (do
      let ds ← ofTrees source 0 items
      return ds ++ [.emit .terminal]) := by
  have htrees : Agrees e₀ [] (trees source items) (ofTrees source 0 items) := by
    rw [trees_eq, ofTrees_eq]
    exact writeTrees_agrees (fun t _ => tree_agrees h t) []
  refine agrees_bind (fun ds hds => ?_) fun refusal hds => (htrees.refuses hds).bind _
  exact (htrees.gives hds).bind ((gives_push e₀ ds _).bind (gives_pure e₀ _ ()))

end LexicalPatterns.Emit
