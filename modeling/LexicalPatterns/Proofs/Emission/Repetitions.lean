import LexicalPatterns.Proofs.Emission.Steps
import LexicalPatterns.Proofs.Meaning.Layout

/-!
# Writing repetitions

The copies of an operand are its own code and duplicates of it, and the jumps of the guards lead to
the end when they are patched. The budget is checked at each duplicate; it is exceeded at one of
them exactly when it is exceeded at the last.
-/

namespace LexicalPatterns

namespace Draft

theorem copies_zero (body : List Draft) : copies 0 body = [] := rfl

theorem copies_succ (count : Nat) (body : List Draft) :
    copies (count + 1) body = body ++ copies count body := by
  rw [copies, List.replicate_succ, List.flatten_cons]
  rfl

theorem length_copies (count : Nat) (body : List Draft) :
    (copies count body).length = count * body.length := by
  simp [copies]

end Draft

namespace Emit

open Draft

/-- Whether a step writes the drafts that are given, or refuses for the reason that is given. -/
def Agrees (e₀ : Emitter) (ds : List Draft) (x : Emit Unit) :
    Except CompileError (List Draft) → Prop
  | .ok ds' => Gives e₀ ds x () (ds ++ ds')
  | .error refusal => Refuses e₀ ds x refusal

variable {e₀ : Emitter} {ds body : List Draft} {operand : Emit Unit} {span : Span}
  {template : Template} {start stop count : Nat} {refusal : CompileError}

theorem Agrees.gives {x : Emit Unit} {r : Except CompileError (List Draft)}
    (h : Agrees e₀ ds x r) (hr : r = .ok body) : Gives e₀ ds x () (ds ++ body) := by
  rwa [hr] at h

theorem Agrees.refuses {x : Emit Unit} {r : Except CompileError (List Draft)}
    (h : Agrees e₀ ds x r) (hr : r = .error refusal) : Refuses e₀ ds x refusal := by
  rwa [hr] at h

theorem agrees_lift_bind {α : Type} {check : Except CompileError α} {x : α → Emit Unit}
    {r : α → Except CompileError (List Draft)}
    (h : ∀ a, check = .ok a → Agrees e₀ ds (x a) (r a)) :
    Agrees e₀ ds (liftM check >>= x) (check >>= r) := by
  cases check with
  | error refusal => exact Refuses.bind (fun e he => ⟨ds, e, rfl, he⟩) x
  | ok a =>
    have hlift : Gives e₀ ds (liftM (.ok a : Except CompileError α)) a ds :=
      fun e he => ⟨e, rfl, he⟩
    have hx := h a rfl
    change Agrees e₀ ds _ (r a)
    cases hr : r a with
    | error refusal =>
      rw [hr] at hx
      exact hlift.bind_refuses hx
    | ok ds' =>
      rw [hr] at hx
      exact hlift.bind hx

/-- Whether a body stands among the drafts, from one index up to another. -/
def Stands (e₀ : Emitter) (ds body : List Draft) (start stop : Nat) : Prop :=
  ∃ pre post, ds = pre ++ body ++ post ∧ start = e₀.buffer.size + pre.length ∧
    stop = start + body.length

theorem Stands.append (h : Stands e₀ ds body start stop) (more : List Draft) :
    Stands e₀ (ds ++ more) body start stop := by
  obtain ⟨pre, post, rfl, rfl, rfl⟩ := h
  exact ⟨pre, post ++ more, List.append_assoc _ _ _, rfl, rfl⟩

theorem stands_last (e₀ : Emitter) (ds body : List Draft) :
    Stands e₀ (ds ++ body) body (e₀.buffer.size + ds.length)
      (e₀.buffer.size + (ds ++ body).length) := by
  refine ⟨ds, [], (List.append_nil _).symm, rfl, ?_⟩
  rw [List.length_append, Nat.add_assoc]

section Copies

variable (operand span) (h : e₀.Fresh) (hs : Stands e₀ ds body start stop)
include h hs

theorem gives_copy (hle : ds.length + body.length ≤ maxPatternSize) :
    Gives e₀ ds (copy operand span (some (start, stop))) (some (start, stop)) (ds ++ body) := by
  obtain ⟨pre, post, rfl, rfl, rfl⟩ := hs
  refine (gives_checkBudget h span ?_).bind ((gives_duplicate h pre body post).bind
    (gives_pure e₀ _ _))
  rwa [Nat.add_sub_cancel_left]

theorem refuses_copy (hlt : maxPatternSize < ds.length + body.length) :
    Refuses e₀ ds (copy operand span (some (start, stop))) (.patternTooLarge span) := by
  obtain ⟨pre, post, rfl, rfl, rfl⟩ := hs
  refine (refuses_checkBudget h span ?_).bind _
  rwa [Nat.add_sub_cancel_left]

theorem gives_copies (hle : count = 0 ∨ ds.length + count * body.length ≤ maxPatternSize) :
    Gives e₀ ds (copies operand span count (some (start, stop))) (some (start, stop))
      (ds ++ Draft.copies count body) := by
  induction count generalizing ds with
  | zero =>
    rw [copies_zero, List.append_nil]
    exact gives_pure e₀ ds _
  | succ count ih =>
    rw [Nat.add_mul, Nat.one_mul] at hle
    rw [copies_succ, ← List.append_assoc]
    refine (gives_copy operand span h hs (by omega)).bind (ih (hs.append body) (.inr ?_))
    rw [List.length_append]
    omega

theorem refuses_copies (hlt : maxPatternSize < ds.length + (count + 1) * body.length) :
    Refuses e₀ ds (copies operand span (count + 1) (some (start, stop)))
      (.patternTooLarge span) := by
  induction count generalizing ds with
  | zero =>
    rw [Nat.zero_add, Nat.one_mul] at hlt
    exact (refuses_copy operand span h hs hlt).bind _
  | succ count ih =>
    rcases Nat.lt_or_ge maxPatternSize (ds.length + body.length) with hlarge | hle
    · exact (refuses_copy operand span h hs hlarge).bind _
    · refine (gives_copy operand span h hs hle).bind_refuses (ih (hs.append body) ?_)
      rw [Nat.add_mul, Nat.one_mul] at hlt
      rw [List.length_append]
      omega

end Copies

def openGuard : List Draft := [emit (.branch 2), jump 2, jump 0]

theorem length_openGuard : openGuard.length = 3 := rfl

/-- Copies behind guards whose jumps are not patched. -/
def pending (body : List Draft) : (count : Nat) → List Draft
  | 0 => []
  | count + 1 => openGuard ++ body ++ pending body count

/-- Where the jumps of the guards stand, if the first guard stands at `first`. -/
def skips (first length : Nat) : (count : Nat) → List Nat
  | 0 => []
  | count + 1 => (first + 2) :: skips (first + 3 + length) length count

theorem length_pending (body : List Draft) (count : Nat) :
    (pending body count).length = count * (body.length + 3) := by
  induction count with
  | zero => simp [pending]
  | succ count ih =>
    rw [pending, List.length_append, List.length_append, ih, Nat.add_mul, length_openGuard]
    omega

theorem gives_guard (e₀ : Emitter) (ds : List Draft) :
    Gives e₀ ds guard (e₀.buffer.size + ds.length + 2) (ds ++ openGuard) := by
  have hdrafts : ds ++ openGuard = ds ++ [emit (.branch 2)] ++ [jump 2] ++ [jump 0] := by
    simp [openGuard]
  have hindex : e₀.buffer.size + ds.length + 2 =
      e₀.buffer.size + (ds ++ [emit (.branch 2)] ++ [jump 2]).length := by
    simp [Nat.add_assoc]
  rw [hdrafts, hindex]
  exact (gives_push e₀ ds _).bind ((gives_push e₀ _ _).bind (gives_push e₀ _ _))

theorem gives_patchJump_guard (e₀ : Emitter) (ds rest : List Draft) :
    Gives e₀ (ds ++ (openGuard ++ rest))
      (patchJump (e₀.buffer.size + ds.length + 2)
        (e₀.buffer.size + (ds.length + 3 + rest.length))) ()
      (ds ++ (Draft.guard rest.length ++ rest)) := by
  have hpatch := gives_patchJump e₀ (ds ++ [emit (.branch 2), jump 2]) rest
    (ds.length + 3 + rest.length)
  have hmovement : ((ds.length + 3 + rest.length : Nat) : Int) -
      (ds ++ [emit (.branch 2), jump 2]).length = rest.length + 1 := by
    rw [List.length_append, List.length_cons, List.length_singleton]
    omega
  rw [hmovement] at hpatch
  simpa [openGuard, Draft.guard, Nat.add_assoc] using hpatch

theorem gives_patchJumps_skips (e₀ : Emitter) (ds body : List Draft) (count : Nat) :
    Gives e₀ (ds ++ pending body count)
      (patchJumps (e₀.buffer.size + (ds ++ pending body count).length)
        (skips (e₀.buffer.size + ds.length) body.length count)) ()
      (ds ++ optional body count) := by
  induction count generalizing ds with
  | zero => exact gives_pure e₀ _ _
  | succ count ih =>
    have hlength : (body ++ pending body count).length = (body ++ optional body count).length := by
      rw [List.length_append, List.length_append, length_pending, length_optional]
    have hguard := gives_patchJump_guard e₀ ds (body ++ pending body count)
    have hrest := ih (ds ++ Draft.guard (body ++ pending body count).length ++ body)
    have hend : (ds ++ pending body (count + 1)).length =
        ds.length + 3 + (body ++ pending body count).length := by
      simp only [pending, List.length_append, length_openGuard]
      omega
    have hinner : (ds ++ Draft.guard (body ++ pending body count).length ++ body ++
        pending body count).length = ds.length + 3 + (body ++ pending body count).length := by
      simp only [List.length_append, length_guard]
      omega
    have hfirst : e₀.buffer.size +
        (ds ++ Draft.guard (body ++ pending body count).length ++ body).length =
          e₀.buffer.size + ds.length + 3 + body.length := by
      simp only [List.length_append, length_guard]
      omega
    rw [hinner, hfirst] at hrest
    rw [hend, pending, optional_succ, ← hlength]
    simp only [List.append_assoc] at hguard hrest ⊢
    exact hguard.bind hrest

theorem gives_guard_bind {α : Type} {x : Emit α} {more : α → Emit (List Nat)} {copied : α}
    (hcopy : Gives e₀ (ds ++ openGuard) x copied (ds ++ openGuard ++ body))
    (hmore : Gives e₀ (ds ++ openGuard ++ body) (more copied)
      (skips (e₀.buffer.size + (ds ++ openGuard ++ body).length) body.length count)
      (ds ++ openGuard ++ body ++ pending body count)) :
    Gives e₀ ds (do
      let skip ← guard
      let copied ← x
      let skips ← more copied
      return skip :: skips)
      (skips (e₀.buffer.size + ds.length) body.length (count + 1))
      (ds ++ pending body (count + 1)) := by
  have hfirst : e₀.buffer.size + (ds ++ openGuard ++ body).length =
      e₀.buffer.size + ds.length + 3 + body.length := by
    simp only [List.length_append, length_openGuard]
    omega
  have hdrafts :
      ds ++ pending body (count + 1) = ds ++ openGuard ++ body ++ pending body count := by
    simp only [pending, List.append_assoc]
  rw [hfirst] at hmore
  rw [hdrafts]
  exact (gives_guard e₀ ds).bind (hcopy.bind (hmore.bind (gives_pure e₀ _ _)))

section Guarded

variable (operand span) (h : e₀.Fresh) (hs : Stands e₀ ds body start stop)
include h hs

theorem gives_guarded
    (hle : count = 0 ∨ ds.length + count * (body.length + 3) ≤ maxPatternSize) :
    Gives e₀ ds (guarded operand span count (some (start, stop)))
      (skips (e₀.buffer.size + ds.length) body.length count) (ds ++ pending body count) := by
  induction count generalizing ds with
  | zero =>
    rw [pending, List.append_nil]
    exact gives_pure e₀ ds _
  | succ count ih =>
    rw [Nat.add_mul, Nat.one_mul] at hle
    refine gives_guard_bind (gives_copy operand span h (hs.append _) ?_)
      (ih ((hs.append _).append _) (.inr ?_))
    all_goals
      simp only [List.length_append, length_openGuard]
      omega

theorem refuses_guarded
    (hlt : maxPatternSize < ds.length + (count + 1) * (body.length + 3)) :
    Refuses e₀ ds (guarded operand span (count + 1) (some (start, stop)))
      (.patternTooLarge span) := by
  induction count generalizing ds with
  | zero =>
    refine (gives_guard e₀ ds).bind_refuses
      ((refuses_copy operand span h (hs.append _) ?_).bind _)
    rw [List.length_append, length_openGuard]
    omega
  | succ count ih =>
    rw [Nat.add_mul, Nat.one_mul] at hlt
    rcases Nat.lt_or_ge maxPatternSize ((ds ++ openGuard).length + body.length) with hlarge | hle
    · exact (gives_guard e₀ ds).bind_refuses
        ((refuses_copy operand span h (hs.append _) hlarge).bind _)
    · refine (gives_guard e₀ ds).bind_refuses
        ((gives_copy operand span h (hs.append _) hle).bind_refuses
          (Refuses.bind (ih ((hs.append _).append _) ?_) _))
      simp only [List.length_append, length_openGuard]
      omega

end Guarded

theorem gives_first (hoperand : Gives e₀ ds operand () (ds ++ body)) :
    Gives e₀ ds (copy operand span none)
      (some (e₀.buffer.size + ds.length, e₀.buffer.size + (ds ++ body).length)) (ds ++ body) :=
  (gives_size e₀ ds).bind (hoperand.bind ((gives_size e₀ _).bind (gives_pure e₀ _ _)))

theorem refuses_first (hoperand : Refuses e₀ ds operand refusal) :
    Refuses e₀ ds (copy operand span none) refusal :=
  (gives_size e₀ ds).bind_refuses (hoperand.bind _)

theorem refuses_copies_operand (hoperand : Refuses e₀ ds operand refusal) :
    Refuses e₀ ds (copies operand span (count + 1) none) refusal :=
  (refuses_first hoperand).bind _

section First

variable (span) (h : e₀.Fresh) (hoperand : Gives e₀ ds operand () (ds ++ body))
include h hoperand

theorem gives_copies_first
    (hle : count = 0 ∨ ds.length + (count + 1) * body.length ≤ maxPatternSize) :
    Gives e₀ ds (copies operand span (count + 1) none)
      (some (e₀.buffer.size + ds.length, e₀.buffer.size + (ds ++ body).length))
      (ds ++ Draft.copies (count + 1) body) := by
  rw [copies_succ, ← List.append_assoc]
  refine (gives_first hoperand).bind (gives_copies operand span h (stands_last e₀ ds body) ?_)
  rw [Nat.add_mul, Nat.one_mul] at hle
  rw [List.length_append]
  omega

theorem refuses_copies_first
    (hlt : maxPatternSize < ds.length + (count + 2) * body.length) :
    Refuses e₀ ds (copies operand span (count + 2) none) (.patternTooLarge span) := by
  refine (gives_first hoperand).bind_refuses
    (refuses_copies operand span h (stands_last e₀ ds body) ?_)
  rw [Nat.add_mul] at hlt ⊢
  rw [List.length_append]
  omega

end First

theorem agrees_bind {α : Type} {x : Emit Unit} {r : Except CompileError α}
    {f : α → Except CompileError (List Draft)} (hok : ∀ a, r = .ok a → Agrees e₀ ds x (f a))
    (herror : ∀ refusal, r = .error refusal → Refuses e₀ ds x refusal) :
    Agrees e₀ ds x (r >>= f) := by
  cases r with
  | ok a => exact hok a rfl
  | error refusal => exact herror refusal rfl

theorem agrees_checkSize {x : Emit Unit} {ds' : List Draft} {last : Nat}
    (hfits : count < 2 ∨ last ≤ maxPatternSize → Gives e₀ ds x () (ds ++ ds'))
    (hlarge : 2 ≤ count → maxPatternSize < last → Refuses e₀ ds x (.patternTooLarge span)) :
    Agrees e₀ ds x (do
      checkSize count last span
      return ds') := by
  unfold checkSize
  split
  · next h => exact hlarge h.1 h.2
  · exact hfits (by omega)

theorem gives_loop {α : Type} {x : Emit α} {copied : α}
    (hcopy : Gives e₀ (ds ++ openGuard) x copied (ds ++ openGuard ++ body)) :
    Gives e₀ ds (do
      let head ← size
      let exit ← guard
      let _ ← x
      let back ← push (.jump 0)
      patchJump back head
      patchJump exit (← size)) () (ds ++ loop body) := by
  have hback := gives_patchJump e₀ (ds ++ openGuard ++ body) [] ds.length
  have hmovement : (ds.length : Int) - (ds ++ openGuard ++ body).length =
      -(body.length + 3 : Int) := by
    simp only [List.length_append, length_openGuard]
    omega
  rw [hmovement] at hback
  have hexit := gives_patchJump_guard e₀ ds (body ++ [jump (-(body.length + 3 : Int))])
  have hlast : ds.length + 3 + (body ++ [jump (-(body.length + 3 : Int))]).length =
      (ds ++ openGuard ++ body ++ [jump (-(body.length + 3 : Int))]).length := by
    simp only [List.length_append, length_openGuard]
    omega
  have hdrafts : ds ++ (openGuard ++ (body ++ [jump (-(body.length + 3 : Int))])) =
      ds ++ openGuard ++ body ++ [jump (-(body.length + 3 : Int))] := by
    simp only [List.append_assoc]
  have hloop : Draft.guard (body ++ [jump (-(body.length + 3 : Int))]).length ++
      (body ++ [jump (-(body.length + 3 : Int))]) = loop body := by
    rw [loop, List.length_append, List.length_singleton, List.append_assoc]
  rw [hlast, hdrafts, hloop] at hexit
  exact (gives_size e₀ ds).bind ((gives_guard e₀ ds).bind (hcopy.bind
    ((gives_push e₀ _ _).bind (hback.bind ((gives_size e₀ _).bind hexit)))))

section Agreement

variable (r : Nat → Except CompileError (List Draft)) (h : e₀.Fresh)
  (hoperand : ∀ ds, Agrees e₀ ds operand (r ds.length)) (ds) (span)
include hoperand h

theorem exactly_agrees (count : Nat) :
    Agrees e₀ ds (exactly operand span count) (do
      checkRepeat count span
      if count = 0 then return []
      let body ← r ds.length
      checkSize count (ds.length + count * body.length) span
      return Draft.copies count body) := by
  refine agrees_lift_bind fun _ _ => ?_
  cases count with
  | zero =>
    change Gives e₀ ds _ () (ds ++ [])
    rw [List.append_nil]
    exact (gives_pure e₀ ds none).bind (gives_pure e₀ ds ())
  | succ count =>
    refine agrees_bind (fun body hr => agrees_checkSize (fun hfits => ?_) fun htwo hlast => ?_)
      fun refusal hr => ?_
    · exact (gives_copies_first span h ((hoperand ds).gives hr) (by omega)).bind
        (gives_pure e₀ _ ())
    · obtain ⟨count, rfl⟩ : ∃ n, count = n + 1 := ⟨count - 1, by omega⟩
      exact (refuses_copies_first span h ((hoperand ds).gives hr) hlast).bind _
    · exact (refuses_copies_operand ((hoperand ds).refuses hr)).bind _

/-- Copies that all are optional, the first of them the code of the operand. -/
theorem optional_agrees (count : Nat) :
    Agrees e₀ ds (do
      let skips ← guarded operand span (count + 1) none
      patchJumps (← size) skips) (do
      let body ← r (ds.length + 3)
      checkSize (count + 1) (ds.length + (count + 1) * (body.length + 3)) span
      return optional body (count + 1)) := by
  have hlength : (ds ++ openGuard).length = ds.length + 3 := List.length_append
  rw [← hlength]
  refine agrees_bind (fun body hr => ?_) fun refusal hr => ?_
  · have hfirst : Gives e₀ (ds ++ openGuard) (copy operand span none) _ _ :=
      gives_first ((hoperand _).gives hr)
    have hstands := stands_last e₀ (ds ++ openGuard) body
    refine agrees_checkSize (fun hfits => ?_) fun htwo hlast => ?_
    · refine (gives_guard_bind hfirst (gives_guarded operand span h hstands ?_)).bind
        ((gives_size e₀ _).bind (gives_patchJumps_skips e₀ ds body (count + 1)))
      rw [List.length_append, hlength]
      rw [Nat.add_mul, Nat.one_mul] at hfits
      omega
    · obtain ⟨count, rfl⟩ : ∃ n, count = n + 1 := ⟨count - 1, by omega⟩
      refine ((gives_guard e₀ ds).bind_refuses (hfirst.bind_refuses
        ((refuses_guarded operand span h hstands ?_).bind _))).bind _
      rw [List.length_append, hlength]
      rw [Nat.add_mul _ 1, Nat.one_mul] at hlast
      omega
  · exact ((gives_guard e₀ ds).bind_refuses
      ((refuses_first ((hoperand _).refuses hr)).bind _)).bind _

/-- Copies that must be there, the first of them the code of the operand, and optional ones behind
them. -/
theorem required_agrees (min count : Nat) :
    Agrees e₀ ds (do
      let template ← copies operand span (min + 1) none
      let skips ← guarded operand span count template
      patchJumps (← size) skips) (do
      let body ← r ds.length
      checkSize (min + 1 + count) (ds.length + (min + 1 + count) * body.length + count * 3) span
      return Draft.copies (min + 1) body ++ optional body count) := by
  refine agrees_bind (fun body hr => ?_) fun refusal hr =>
    (refuses_copies_operand ((hoperand ds).refuses hr)).bind _
  have hop := (hoperand ds).gives hr
  have hstands := (stands_last e₀ ds body).append (Draft.copies min body)
  rw [List.append_assoc, ← copies_succ] at hstands
  have hlength : (ds ++ Draft.copies (min + 1) body).length + count * (body.length + 3) =
      ds.length + (min + 1 + count) * body.length + count * 3 := by
    rw [List.length_append, length_copies, Nat.mul_add, Nat.add_mul (min + 1)]
    omega
  have hcopies : ds.length + (min + 1) * body.length ≤
      ds.length + (min + 1 + count) * body.length + count * 3 := by
    rw [Nat.add_mul (min + 1)]
    omega
  refine agrees_checkSize (fun hfits => ?_) fun htwo hlast => ?_
  · rw [← List.append_assoc]
    exact (gives_copies_first span h hop (by omega)).bind
      ((gives_guarded operand span h hstands (by omega)).bind
        ((gives_size e₀ _).bind (gives_patchJumps_skips e₀ _ body count)))
  · by_cases hmany : min ≠ 0 ∧ maxPatternSize < ds.length + (min + 1) * body.length
    · obtain ⟨min, rfl⟩ : ∃ n, min = n + 1 := ⟨min - 1, by omega⟩
      exact (refuses_copies_first span h hop hmany.2).bind _
    · have hsome : count ≠ 0 := by
        rintro rfl
        exact hmany ⟨by omega, by simpa using hlast⟩
      obtain ⟨count, rfl⟩ : ∃ n, count = n + 1 := ⟨count - 1, by omega⟩
      exact (gives_copies_first span h hop (by omega)).bind_refuses
        ((refuses_guarded operand span h hstands (by omega)).bind _)

theorem between_agrees (min max : Nat) :
    Agrees e₀ ds (between operand span min max) (do
      if min > max then throw (.malformedRepetition min max span)
      checkRepeat max span
      if max = 0 then return []
      let body ← r (if min = 0 then ds.length + 3 else ds.length)
      checkSize max (ds.length + max * body.length + (max - min) * 3) span
      return Draft.copies min body ++ optional body (max - min)) := by
  unfold between
  dsimp only
  split
  · exact refuses_throw e₀ ds _
  · next hle =>
    refine agrees_lift_bind fun _ _ => ?_
    cases min with
    | zero =>
      rw [copies, pure_bind]
      cases max with
      | zero =>
        change Gives e₀ ds _ () (ds ++ [])
        rw [List.append_nil]
        exact (gives_pure e₀ ds []).bind ((gives_size e₀ ds).bind (gives_pure e₀ ds ()))
      | succ max =>
        have hsize (length : Nat) : ds.length + (max + 1) * length + (max + 1) * 3 =
            ds.length + (max + 1) * (length + 3) := by
          rw [Nat.mul_add, Nat.add_assoc]
        simpa [hsize, copies_zero] using optional_agrees ds span r h hoperand max
    | succ min =>
      obtain ⟨count, rfl⟩ : ∃ n, max = min + 1 + n := ⟨max - (min + 1), by omega⟩
      rw [Nat.add_sub_cancel_left, if_neg (by omega), if_neg (Nat.succ_ne_zero min)]
      exact required_agrees ds span r h hoperand min count

theorem atLeast_agrees (min : Nat) :
    Agrees e₀ ds (atLeast operand span min) (do
      checkRepeat min span
      let body ← r (if min = 0 then ds.length + 3 else ds.length)
      checkSize (min + 1) (ds.length + (min + 1) * body.length + 3) span
      return Draft.copies min body ++ loop body) := by
  refine agrees_lift_bind fun _ _ => ?_
  cases min with
  | zero =>
    have hlength : (ds ++ openGuard).length = ds.length + 3 := List.length_append
    rw [copies, pure_bind, if_pos rfl, ← hlength]
    refine agrees_bind (fun body hr => ?_) fun refusal hr =>
      (gives_size e₀ ds).bind_refuses ((gives_guard e₀ ds).bind_refuses
        ((refuses_first ((hoperand _).refuses hr)).bind _))
    refine agrees_checkSize (fun _ => ?_) fun htwo => by omega
    rw [copies_zero, List.nil_append]
    exact gives_loop (gives_first ((hoperand _).gives hr))
  | succ min =>
    rw [if_neg (Nat.succ_ne_zero min)]
    refine agrees_bind (fun body hr => ?_) fun refusal hr =>
      (refuses_copies_operand ((hoperand ds).refuses hr)).bind _
    have hop := (hoperand ds).gives hr
    have hstands := ((stands_last e₀ ds body).append (Draft.copies min body)).append openGuard
    rw [List.append_assoc ds, ← copies_succ] at hstands
    have hlength : (ds ++ Draft.copies (min + 1) body ++ openGuard).length + body.length =
        ds.length + (min + 1 + 1) * body.length + 3 := by
      rw [List.length_append, List.length_append, length_copies, length_openGuard,
        Nat.add_mul (min + 1)]
      omega
    have hcopies : (min + 1 + 1) * body.length = (min + 1) * body.length + body.length := by
      rw [Nat.add_mul (min + 1), Nat.one_mul]
    refine agrees_checkSize (fun hfits => ?_) fun htwo hlast => ?_
    · rw [← List.append_assoc]
      exact (gives_copies_first span h hop (by omega)).bind
        (gives_loop (gives_copy operand span h hstands (by omega)))
    · by_cases hmany : min ≠ 0 ∧ maxPatternSize < ds.length + (min + 1) * body.length
      · obtain ⟨min, rfl⟩ : ∃ n, min = n + 1 := ⟨min - 1, by omega⟩
        exact (refuses_copies_first span h hop hmany.2).bind _
      · exact (gives_copies_first span h hop (by omega)).bind_refuses
          ((gives_size e₀ _).bind_refuses ((gives_guard e₀ _).bind_refuses
            ((refuses_copy operand span h hstands (by omega)).bind _)))

end Agreement

end Emit
end LexicalPatterns
