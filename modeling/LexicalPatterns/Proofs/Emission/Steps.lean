import LexicalPatterns.Machine.Emitter
import LexicalPatterns.Proofs.Emission.Draft
import LexicalPatterns.Proofs.Lists

/-!
# What the steps of an emitter write

Seen from where a definition starts, an emitter holds the drafts that it has written so far. A step
either gives a result and leaves more drafts, or it refuses and leaves some; what the emitter held
before the definition stays as it was.
-/

namespace LexicalPatterns

def Draft.fixup? (origin index : Nat) : Draft → Option Fixup
  | code _ => none
  | use name span => some ⟨index, name, span, origin⟩

def Draft.fixups (origin start : Nat) (ds : List Draft) : List Fixup :=
  (ds.zipIdx start).filterMap fun (d, i) => d.fixup? origin i

namespace Draft

theorem fixups_append (origin start : Nat) (ds es : List Draft) :
    fixups origin start (ds ++ es) =
      fixups origin start ds ++ fixups origin (start + ds.length) es := by
  simp [fixups, List.zipIdx_append]

theorem fixups_cons (origin start : Nat) (d : Draft) (ds : List Draft) :
    fixups origin start (d :: ds) =
      (d.fixup? origin start).toList ++ fixups origin (start + 1) ds := by
  cases h : d.fixup? origin start <;> simp [fixups, List.zipIdx_cons, h]

theorem mem_fixups_iff {origin start : Nat} {ds : List Draft} {f : Fixup} :
    f ∈ fixups origin start ds ↔
      ∃ k, ds[k]? = some (.use f.name f.span) ∧ f.index = start + k ∧ f.origin = origin := by
  obtain ⟨index, name, span, source⟩ := f
  simp only [fixups, List.mem_filterMap, Prod.exists, List.mk_mem_zipIdx_iff_le_and_getElem?_sub]
  constructor
  · rintro ⟨d, i, ⟨hle, hd⟩, hfixup⟩
    cases d with
    | code _ => cases hfixup
    | use _ _ =>
      obtain ⟨rfl, rfl, rfl, rfl⟩ := Fixup.mk.inj (Option.some.inj hfixup)
      exact ⟨_, hd, by omega, rfl⟩
  · rintro ⟨k, hd, rfl, rfl⟩
    exact ⟨_, _, ⟨Nat.le_add_right _ _, by rwa [Nat.add_sub_cancel_left]⟩, rfl⟩

theorem pairwise_fixups (origin start : Nat) (ds : List Draft) :
    (fixups origin start ds).Pairwise fun f f' => f.index < f'.index := by
  induction ds generalizing start with
  | nil => exact .nil
  | cons d ds ih =>
    rw [fixups_cons, List.pairwise_append]
    refine ⟨by cases d <;> simp [fixup?], ih _, fun f hf f' hf' => ?_⟩
    obtain ⟨k, -, hindex, -⟩ := mem_fixups_iff.1 hf'
    cases d with
    | code _ => cases hf
    | use _ _ =>
      obtain rfl := List.mem_singleton.1 hf
      dsimp only
      omega

theorem index_mem_fixups {origin start : Nat} {ds : List Draft} {f : Fixup}
    (hf : f ∈ fixups origin start ds) : start ≤ f.index ∧ f.index < start + ds.length := by
  obtain ⟨k, hk, hindex, -⟩ := mem_fixups_iff.1 hf
  have := (List.getElem?_eq_some_iff.1 hk).1
  omega

theorem map_fixups (origin start offset : Nat) (ds : List Draft) :
    (fixups origin start ds).map (fun f => { f with index := f.index + offset }) =
      fixups origin (start + offset) ds := by
  induction ds generalizing start with
  | nil => rfl
  | cons d ds ih =>
    rw [fixups_cons, fixups_cons, List.map_append, ih, Nat.add_right_comm]
    cases d <;> rfl

/-- The references in a part of the drafts are those whose indices are in it. -/
theorem filter_fixups (origin start : Nat) (pre body post : List Draft) :
    (fixups origin start (pre ++ body ++ post)).filter (fun f =>
        start + pre.length ≤ f.index ∧ f.index < start + pre.length + body.length) =
      fixups origin (start + pre.length) body := by
  rw [fixups_append, fixups_append, List.filter_append, List.filter_append]
  have hpre : (fixups origin start pre).filter (fun f =>
      start + pre.length ≤ f.index ∧ f.index < start + pre.length + body.length) = [] := by
    rw [List.filter_eq_nil_iff]
    intro f hf
    have := index_mem_fixups hf
    simp only [decide_eq_true_eq]
    omega
  have hbody : (fixups origin (start + pre.length) body).filter (fun f =>
      start + pre.length ≤ f.index ∧ f.index < start + pre.length + body.length) =
        fixups origin (start + pre.length) body := by
    rw [List.filter_eq_self]
    intro f hf
    simpa only [decide_eq_true_eq] using index_mem_fixups hf
  have hpost : (fixups origin (start + (pre ++ body).length) post).filter (fun f =>
      start + pre.length ≤ f.index ∧ f.index < start + pre.length + body.length) = [] := by
    rw [List.filter_eq_nil_iff]
    intro f hf
    have := index_mem_fixups hf
    rw [List.length_append] at this
    simp only [decide_eq_true_eq]
    omega
  rw [hpre, hbody, hpost, List.nil_append, List.append_nil]

end Draft

namespace Emitter

/-- An emitter at the start of a definition, with all references in the code. -/
structure Fresh (e₀ : Emitter) : Prop where
  start : e₀.start = e₀.buffer.size
  bounded : ∀ f ∈ e₀.fixups, f.index < e₀.buffer.size

/-- Whether `e` is `e₀` with drafts written behind the code. -/
structure Extends (e₀ : Emitter) (ds : List Draft) (e : Emitter) : Prop where
  code : e.buffer.code.toList = e₀.buffer.code.toList ++ ds.map Draft.instruction
  fixups : e.fixups.toList = e₀.fixups.toList ++ Draft.fixups e₀.origin e₀.buffer.size ds
  origin : e.origin = e₀.origin
  start : e.start = e₀.start

theorem extends_nil (e₀ : Emitter) : e₀.Extends [] e₀ := by
  constructor <;> simp [Draft.fixups]

variable {e₀ e : Emitter} {ds : List Draft}

theorem Extends.size (h : e₀.Extends ds e) : e.buffer.size = e₀.buffer.size + ds.length := by
  have hlength := congrArg List.length h.code
  simpa [CodeBuffer.size] using hlength

theorem Extends.written (h : e₀.Extends ds e) (hfresh : e₀.Fresh) :
    e.buffer.size - e.start = ds.length := by
  rw [h.size, h.start, hfresh.start, Nat.add_sub_cancel_left]

end Emitter

namespace Emit

open Draft

variable {α β : Type} {x : Emit α} {f : α → Emit β} {e e' : Emitter} {a : α} {b : β}
  {refusal : CompileError}

theorem run_bind_ok (h : x.run e = (.ok a, e')) : (x >>= f).run e = (f a).run e' := by
  have hrun : (x >>= f).run e = ExceptT.bindCont f (x.run e).1 (x.run e).2 := rfl
  rw [hrun, h]
  rfl

theorem run_bind_error (h : x.run e = (.error refusal, e')) :
    (x >>= f).run e = (.error refusal, e') := by
  have hrun : (x >>= f).run e = ExceptT.bindCont f (x.run e).1 (x.run e).2 := rfl
  rw [hrun, h]
  rfl

variable {e₀ : Emitter} {ds ds' ds'' : List Draft}

/-- Where drafts are written, the step gives `a` and leaves other drafts. -/
def Gives (e₀ : Emitter) (ds : List Draft) (x : Emit α) (a : α) (ds' : List Draft) : Prop :=
  ∀ e, e₀.Extends ds e → ∃ e', x.run e = (.ok a, e') ∧ e₀.Extends ds' e'

/-- Where drafts are written, the step refuses to go on, with some drafts written. -/
def Refuses (e₀ : Emitter) (ds : List Draft) (x : Emit α) (refusal : CompileError) : Prop :=
  ∀ e, e₀.Extends ds e → ∃ ds' e', x.run e = (.error refusal, e') ∧ e₀.Extends ds' e'

theorem Gives.bind (h : Gives e₀ ds x a ds') (hf : Gives e₀ ds' (f a) b ds'') :
    Gives e₀ ds (x >>= f) b ds'' := by
  intro e he
  obtain ⟨e₁, hx, he₁⟩ := h e he
  rw [run_bind_ok hx]
  exact hf e₁ he₁

theorem Gives.bind_refuses (h : Gives e₀ ds x a ds') (hf : Refuses e₀ ds' (f a) refusal) :
    Refuses e₀ ds (x >>= f) refusal := by
  intro e he
  obtain ⟨e₁, hx, he₁⟩ := h e he
  rw [run_bind_ok hx]
  exact hf e₁ he₁

theorem Refuses.bind (h : Refuses e₀ ds x refusal) (f : α → Emit β) :
    Refuses e₀ ds (x >>= f) refusal := by
  intro e he
  obtain ⟨ds', e₁, hx, he₁⟩ := h e he
  exact ⟨ds', e₁, run_bind_error hx, he₁⟩

theorem gives_pure (e₀ : Emitter) (ds : List Draft) (a : α) : Gives e₀ ds (pure a) a ds :=
  fun e he => ⟨e, rfl, he⟩

theorem refuses_throw (e₀ : Emitter) (ds : List Draft) (refusal : CompileError) :
    Refuses e₀ ds (throw refusal : Emit α) refusal :=
  fun e he => ⟨ds, e, rfl, he⟩

theorem gives_size (e₀ : Emitter) (ds : List Draft) :
    Gives e₀ ds size (e₀.buffer.size + ds.length) ds := by
  intro e he
  rw [← he.size]
  exact ⟨e, rfl, he⟩

theorem gives_push (e₀ : Emitter) (ds : List Draft) (i : Instruction) :
    Gives e₀ ds (push i) (e₀.buffer.size + ds.length) (ds ++ [.code i]) := by
  intro e he
  rw [← he.size]
  refine ⟨{ e with buffer := e.buffer.push i }, rfl, ?_, ?_, he.origin, he.start⟩
  · simp [CodeBuffer.push, he.code, Draft.instruction]
  · rw [he.fixups, fixups_append]
    simp [fixups, Draft.fixup?]

theorem gives_pushReference (e₀ : Emitter) (ds : List Draft) (name : String) (span : Span) :
    Gives e₀ ds (pushReference name span) () (ds ++ [.use name span]) := by
  intro e he
  refine ⟨_, rfl, ?_, ?_, he.origin, he.start⟩
  · simp [CodeBuffer.push, he.code, Draft.instruction]
  · rw [fixups_append, ← he.size, ← List.append_assoc, ← he.fixups, ← he.origin]
    simp [fixups, Draft.fixup?]

theorem gives_patchJump (e₀ : Emitter) (pre post : List Draft) (target : Nat) :
    Gives e₀ (pre ++ jump 0 :: post)
      (patchJump (e₀.buffer.size + pre.length) (e₀.buffer.size + target)) ()
      (pre ++ jump (target - pre.length) :: post) := by
  have hfixups (movement : Int) : fixups e₀.origin e₀.buffer.size (pre ++ jump movement :: post) =
      fixups e₀.origin e₀.buffer.size pre ++
        fixups e₀.origin (e₀.buffer.size + pre.length + 1) post := by
    rw [fixups_append, fixups_cons]
    rfl
  intro e he
  refine ⟨_, rfl, ?_, ?_, he.origin, he.start⟩
  · have hlength : e₀.buffer.size + pre.length =
        (e₀.buffer.code.toList ++ pre.map Draft.instruction).length := by
      simp [CodeBuffer.size]
    have hmovement : ((e₀.buffer.size + target : Nat) : Int) - (e₀.buffer.size + pre.length : Nat) =
        target - pre.length := by
      omega
    have hcode := he.code
    rw [List.map_append, List.map_cons, ← List.append_assoc] at hcode
    simp only [CodeBuffer.setMovement, CodeBuffer.modify, Array.toList_modify, hcode, hmovement]
    rw [hlength, modify_length_append, List.map_append, List.map_cons, List.append_assoc]
    rfl
  · rw [he.fixups, hfixups, hfixups]

theorem gives_duplicate (h : e₀.Fresh) (pre body post : List Draft) :
    Gives e₀ (pre ++ body ++ post)
      (duplicate (e₀.buffer.size + pre.length) (e₀.buffer.size + pre.length + body.length)) ()
      (pre ++ body ++ post ++ body) := by
  intro e he
  refine ⟨_, rfl, ?_, ?_, he.origin, he.start⟩
  · have hlength : e₀.buffer.size + pre.length =
        (e₀.buffer.code.toList ++ pre.map Draft.instruction).length := by
      simp [CodeBuffer.size]
    have hcopy : (e.buffer.code.extract (e₀.buffer.size + pre.length)
        (e₀.buffer.size + pre.length + body.length)).toList = body.map Draft.instruction := by
      rw [Array.toList_extract, List.extract_eq_take_drop, he.code, Nat.add_sub_cancel_left,
        List.map_append, List.map_append, List.append_assoc, ← List.append_assoc, hlength,
        List.drop_left, List.take_left' (List.length_map _)]
    simp only [CodeBuffer.duplicate, CodeBuffer.append, Array.toList_append, hcopy, he.code,
      List.map_append, List.append_assoc]
  · have hold : e₀.fixups.toList.filter (fun f => e₀.buffer.size + pre.length ≤ f.index ∧
        f.index < e₀.buffer.size + pre.length + body.length) = [] := by
      rw [List.filter_eq_nil_iff]
      intro f hf
      have := h.bounded f (Array.mem_toList_iff.1 hf)
      simp only [decide_eq_true_eq]
      omega
    have hplace : e₀.buffer.size + pre.length + (e.buffer.size - (e₀.buffer.size + pre.length)) =
        e₀.buffer.size + (pre ++ body ++ post).length := by
      rw [he.size, List.length_append, List.length_append]
      omega
    simp only [Array.toList_append, Array.toList_map, Array.toList_filter, he.fixups,
      List.filter_append, hold, List.nil_append, filter_fixups, map_fixups, hplace]
    rw [fixups_append _ _ (pre ++ body ++ post), List.append_assoc]

theorem run_checkBudget (more : Nat) (span : Span) (e : Emitter) :
    (checkBudget more span).run e =
      if e.buffer.size - e.start + more > maxPatternSize then
        (.error (.patternTooLarge span), e)
      else (.ok (), e) := by
  have hget : (get : Emit Emitter).run e = (.ok e, e) := rfl
  rw [checkBudget, run_bind_ok hget]
  split <;> rfl

theorem gives_checkBudget (h : e₀.Fresh) {more : Nat} (span : Span)
    (hle : ds.length + more ≤ maxPatternSize) : Gives e₀ ds (checkBudget more span) () ds := by
  intro e he
  refine ⟨e, ?_, he⟩
  rw [run_checkBudget, he.written h, if_neg (Nat.not_lt.2 hle)]

theorem refuses_checkBudget (h : e₀.Fresh) {more : Nat} (span : Span)
    (hlt : maxPatternSize < ds.length + more) :
    Refuses e₀ ds (checkBudget more span) (.patternTooLarge span) := by
  intro e he
  refine ⟨ds, e, ?_, he⟩
  rw [run_checkBudget, he.written h, if_pos hlt]

end Emit
end LexicalPatterns
