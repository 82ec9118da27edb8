import LexicalPatterns.Proofs.Machine.Relocation
import LexicalPatterns.Proofs.Program.Meaning

/-!
# The order of definitions

The same definitions in another order are accepted or refused alike, and their programs match the
same. Each layout then stands elsewhere in the code, and each reference leads to where the layout of
its name stands, so the code of one program is that of the other at other places.
-/

namespace LexicalPatterns

/-- Where the instruction at an index stands when the layouts start where `lookup` tells. -/
def Grammar.reorder (g : Grammar) (lookup : String → Option Nat) (i : Nat) : Nat :=
  match g.locate i with
  | some (r, k) => (lookup r.name).getD 0 + k
  | none => i

namespace Machine

variable {m m' : Machine} {lookup lookup' : String → Option Nat} {g g' : Grammar} {r : Rule}

theorem Compiled.size_eq (h : m.Compiled lookup g) : m.code.size = g.drafts.length := by
  have hlength := congrArg List.length h.code
  simpa using hlength

theorem Compiled.exists_start (h : m.Compiled lookup g) (hr : r ∈ g) :
    ∃ start, lookup r.name = some start := by
  obtain ⟨before, after, rfl⟩ := List.append_of_mem hr
  exact ⟨_, (h.lookup_iff _ _).2 (Grammar.mem_entriesFrom_append 0 before after r)⟩

theorem Compiled.exists_position (h : m.Compiled lookup g) {i : Nat} (hi : i < m.code.size) :
    ∃ r ∈ g, ∃ start k, lookup r.name = some start ∧ k < r.drafts.length ∧ i = start + k := by
  rw [h.size_eq] at hi
  obtain ⟨before, r, after, k, rfl, rfl, hk⟩ := Grammar.exists_of_lt_length hi
  have hentry := Grammar.mem_entriesFrom_append 0 before after r
  rw [Nat.zero_add] at hentry
  exact ⟨r, by simp, _, k, (h.lookup_iff _ _).2 hentry, hk, rfl⟩

theorem Compiled.locate_add (h : m.Compiled lookup g) (hr : r ∈ g) {start k : Nat}
    (hstart : lookup r.name = some start) (hk : k < r.drafts.length) :
    g.locate (start + k) = some (r, k) := by
  obtain ⟨before, r', after, rfl, hname, hbefore⟩ :=
    Grammar.exists_of_mem_entriesFrom ((h.lookup_iff _ _).1 hstart)
  obtain rfl : r' = r := List.inj_on_of_nodup_map h.nodup (by simp) hr hname
  rw [Nat.zero_add] at hbefore
  rw [show start = before.drafts.length from hbefore]
  exact Grammar.locate_append hk

theorem Compiled.reorder_add (h : m.Compiled lookup g) (hr : r ∈ g) {start start' k : Nat}
    (hstart : lookup r.name = some start) (hstart' : lookup' r.name = some start')
    (hk : k < r.drafts.length) : g.reorder lookup' (start + k) = start' + k := by
  rw [Grammar.reorder, h.locate_add hr hstart hk]
  simp only [hstart', Option.getD_some]

theorem Compiled.draftsAt_start (h : m.Compiled lookup g) (hr : r ∈ g) {start : Nat}
    (hstart : lookup r.name = some start) : m.DraftsAt lookup start r.drafts := by
  obtain ⟨r', hr', hat⟩ := h.exists_rule hstart
  obtain rfl := Option.some.inj (hr'.symm.trans (Grammar.rule?_of_mem h.nodup hr))
  exact hat

theorem Compiled.lt_size_of_lookup (h : m.Compiled lookup g) {name : String} {start : Nat}
    (hstart : lookup name = some start) : start < m.code.size := by
  rw [h.size_eq]
  exact Grammar.lt_of_mem_entriesFrom ((h.lookup_iff _ _).1 hstart)

theorem Compiled.map_reorder_lookup (h : m.Compiled lookup g) (h' : m'.Compiled lookup' g')
    (hperm : g.Perm g') (name : String) :
    (lookup name).map (g.reorder lookup') = lookup' name := by
  cases hstart : lookup name with
  | some start =>
    obtain ⟨r, hr, -⟩ := h.exists_rule hstart
    obtain ⟨hmem, rfl⟩ := Grammar.mem_of_rule? hr
    obtain ⟨start', hstart'⟩ := h'.exists_start (hperm.mem_iff.1 hmem)
    rw [hstart', Option.map_some]
    exact congrArg some (h.reorder_add hmem hstart hstart' r.length_drafts_pos)
  | none =>
    symm
    rw [Option.map_none, Option.eq_none_iff_forall_ne_some]
    intro start' hstart'
    obtain ⟨r, hr, -⟩ := h'.exists_rule hstart'
    obtain ⟨hmem, rfl⟩ := Grammar.mem_of_rule? hr
    obtain ⟨start, hstart''⟩ := h.exists_start (hperm.mem_iff.2 hmem)
    simp [hstart] at hstart''

/-- A draft of a layout is resolved in one machine to what it is in the other, at its place. -/
theorem Compiled.relocate_resolve (h : m.Compiled lookup g) (h' : m'.Compiled lookup' g')
    (hperm : g.Perm g') {k : Nat} {d : Draft} (hd : r.drafts[k]? = some d) :
    (d.resolve lookup).relocate (g.reorder lookup') = d.resolve lookup' := by
  cases d with
  | use name span =>
    exact congrArg (fun target => Instruction.next (.reference target))
      (h.map_reorder_lookup h' hperm name)
  | code i =>
    obtain ⟨action, movement⟩ := i
    cases action with
    | reference target => exact (r.stays_drafts k _ hd).elim
    | _ => rfl

theorem Compiled.add_lt_size (h : m.Compiled lookup g) (hr : r ∈ g) {start k : Nat}
    (hstart : lookup r.name = some start) (hk : k < r.drafts.length) : start + k < UInt64.size := by
  have hd := h.draftsAt_start hr hstart k _ (List.getElem?_eq_getElem hk)
  exact Nat.lt_of_lt_of_le (Array.getElem?_eq_some_iff.1 hd).1 h.size_le

theorem Compiled.exists_starts (h : m.Compiled lookup g) (h' : m'.Compiled lookup' g')
    (hperm : g.Perm g') {i : Nat} (hi : i < m.code.size) : ∃ r ∈ g, ∃ start start' k,
      lookup r.name = some start ∧ lookup' r.name = some start' ∧ k < r.drafts.length ∧
        i = start + k := by
  obtain ⟨r, hr, start, k, hstart, hk, rfl⟩ := h.exists_position hi
  obtain ⟨start', hstart'⟩ := h'.exists_start (hperm.mem_iff.1 hr)
  exact ⟨r, hr, start, start', k, hstart, hstart', hk, rfl⟩

/-- The instruction at an index stands at its place in the other machine. -/
theorem Compiled.getElem?_reorder (h : m.Compiled lookup g) (h' : m'.Compiled lookup' g')
    (hperm : g.Perm g') {i : Nat} (hi : i < m.code.size) :
    m'.code[g.reorder lookup' i]? = m.code[i]?.map (Instruction.relocate (g.reorder lookup')) := by
  obtain ⟨r, hr, start, start', k, hstart, hstart', hk, rfl⟩ := h.exists_starts h' hperm hi
  have hd := List.getElem?_eq_getElem hk
  rw [h.reorder_add hr hstart hstart' hk, h.draftsAt_start hr hstart k _ hd,
    h'.draftsAt_start (hperm.mem_iff.1 hr) hstart' k _ hd, Option.map_some,
    h.relocate_resolve h' hperm hd]

theorem Compiled.reorder_moved (h : m.Compiled lookup g) (h' : m'.Compiled lookup' g')
    (hperm : g.Perm g') {i : Nat} {action : Action} {movement : Int} (hi : i < m.code.size)
    (code : m.code[i]? = some ⟨action, movement⟩) (hterminal : action ≠ .terminal)
    (hbranch : ∀ count, action ≠ .branch count) :
    g.reorder lookup' (Thread.moved i movement) = Thread.moved (g.reorder lookup' i) movement := by
  obtain ⟨r, hr, start, start', k, hstart, hstart', hk, rfl⟩ := h.exists_starts h' hperm hi
  obtain ⟨l, hl, hle⟩ :=
    exists_followed (h.draftsAt_start hr hstart) r.stays_drafts hk code hterminal hbranch
  have hto : ((start + k : Nat) : Int) + movement = (start + l : Nat) := by omega
  have hto' : ((start' + k : Nat) : Int) + movement = (start' + l : Nat) := by omega
  rw [h.reorder_add hr hstart hstart' hk, Thread.moved_eq hto (h.add_lt_size hr hstart hle),
    Thread.moved_eq hto' (h'.add_lt_size (hperm.mem_iff.1 hr) hstart' hle),
    h.reorder_add hr hstart hstart' hle]

theorem Compiled.reorder_fork (h : m.Compiled lookup g) (h' : m'.Compiled lookup' g')
    (hperm : g.Perm g') {i count offset : Nat} {movement : Int} (hi : i < m.code.size)
    (code : m.code[i]? = some ⟨.branch count, movement⟩) (hoffset : offset ≤ count) :
    g.reorder lookup' (i + offset) = g.reorder lookup' i + offset := by
  obtain ⟨r, hr, start, start', k, hstart, hstart', hk, rfl⟩ := h.exists_starts h' hperm hi
  have hinside := branch_inside (h.draftsAt_start hr hstart) r.stays_drafts hk code
  rw [h.reorder_add hr hstart hstart' hk, Nat.add_assoc,
    h.reorder_add hr hstart hstart' (by omega), Nat.add_assoc]

theorem Compiled.reorder_injective (h : m.Compiled lookup g) (h' : m'.Compiled lookup' g')
    (hperm : g.Perm g') {i j : Nat} (hi : i < m.code.size) (hj : j < m.code.size)
    (heq : g.reorder lookup' i = g.reorder lookup' j) : i = j := by
  obtain ⟨r₁, hr₁, start₁, start₁', k₁, hstart₁, hstart₁', hk₁, rfl⟩ :=
    h.exists_starts h' hperm hi
  obtain ⟨r₂, hr₂, start₂, start₂', k₂, hstart₂, hstart₂', hk₂, rfl⟩ :=
    h.exists_starts h' hperm hj
  rw [h.reorder_add hr₁ hstart₁ hstart₁' hk₁, h.reorder_add hr₂ hstart₂ hstart₂' hk₂] at heq
  -- The other machine tells which layout and which position it is.
  have hlocate := h'.locate_add (hperm.mem_iff.1 hr₁) hstart₁' hk₁
  rw [heq, h'.locate_add (hperm.mem_iff.1 hr₂) hstart₂' hk₂] at hlocate
  obtain ⟨rfl, rfl⟩ := Prod.mk.inj (Option.some.inj hlocate)
  rw [Option.some.inj (hstart₁.symm.trans hstart₂)]

theorem Compiled.lt_size_of_moves (h : m.Compiled lookup g)
    {nested : Nat → List UInt8 → MatchResult} {i j taken : Nat} {rest : List UInt8}
    (hi : i < m.code.size) (hm : m.Moves nested i rest j taken) : j < m.code.size := by
  have hwords := h.size_le
  rw [h.size_eq] at hi hwords ⊢
  have hinside := moves_inside h.draftsAt g.stays_drafts (by omega) hi (by simpa using hm)
  omega

/-- Machines with the same layouts in another order have the same code at other places. -/
theorem Compiled.relocates (h : m.Compiled lookup g) (h' : m'.Compiled lookup' g')
    (hperm : g.Perm g') (hlimit : m.recursionLimit = m'.recursionLimit) :
    m.Relocates m' (g.reorder lookup') (fun start => ∃ name, lookup name = some start)
      fun _ t => t.index < m.code.size := by
  have hsize : m.code.size = m'.code.size := by
    rw [h.size_eq, h'.size_eq, Grammar.length_drafts_eq_of_perm hperm]
  refine ⟨hlimit, Nat.le_of_eq hsize, ?start, ?code, ?jump, ?fork, ?target, ?move, ?stalled,
    ?injective⟩
  case start =>
    rintro levels start input ⟨name, hstart⟩
    exact h.lt_size_of_lookup hstart
  case code => exact fun _ _ hi => h.getElem?_reorder h' hperm hi
  case jump => exact fun _ _ _ _ hi => h.reorder_moved h' hperm hi
  case fork => exact fun _ _ _ _ _ hi code _ => h.reorder_fork h' hperm hi code
  case target =>
    intro nested t target movement _ code
    obtain ⟨name, -, -, hname⟩ := Grammar.exists_use_of_reference h.code code
    exact ⟨name, hname⟩
  case move => exact fun _ _ _ _ hi hm => h.lt_size_of_moves hi hm
  case stalled =>
    intro nested t _
    rw [hsize]
  case injective => exact fun _ _ _ hi hj heq => h.reorder_injective h' hperm hi hj heq

end Machine

namespace Batch

theorem exists_defineEach_of_perm {ds ds' : List (String × Forest)} (hperm : ds.Perm ds')
    (h : ∃ b, empty.defineEach ds = .ok b) : ∃ b', empty.defineEach ds' = .ok b' := by
  rw [holds_empty.exists_defineEach_iff, List.nil_append] at h ⊢
  refine ⟨fun d hd => h.1 d (hperm.mem_iff.2 hd), ?_⟩
  have hgrammar : (Grammar.ofDefinitions ds).Perm (Grammar.ofDefinitions ds') :=
    hperm.filterMap _
  exact (hgrammar.map _).nodup_iff.1 h.2

theorem exists_finish (b : Batch) : ∃ p, b.finish false = .ok p := ⟨_, rfl⟩

end Batch

namespace Program

/-- Definitions that are accepted in one order, so that their names differ, are accepted in every
other, and then every name matches every input with the same result. -/
theorem matchLength_perm {ds ds' : List (String × Forest)} (hperm : ds.Perm ds') {b : Batch}
    (hdefine : Batch.empty.defineEach ds = .ok b) :
    ∃ b' p p', Batch.empty.defineEach ds' = .ok b' ∧ b.finish false = .ok p ∧
      b'.finish false = .ok p' ∧
      (p.code.size ≤ UInt64.size → ∀ limit name input,
        (p'.withRecursionLimit limit).matchLength name input =
          (p.withRecursionLimit limit).matchLength name input) := by
  obtain ⟨b', hdefine'⟩ := Batch.exists_defineEach_of_perm hperm ⟨b, hdefine⟩
  obtain ⟨p, hfinish⟩ := b.exists_finish
  obtain ⟨p', hfinish'⟩ := b'.exists_finish
  refine ⟨b', p, p', hdefine', hfinish, hfinish', fun hsize limit name input => ?_⟩
  have hgrammar : (Grammar.ofDefinitions ds).Perm (Grammar.ofDefinitions ds') :=
    hperm.filterMap _
  have hcompiled := (Batch.holds_empty.defineEach hdefine).compiled hfinish hsize
    (min limit maxRecursionLimit)
  have hsize' : p'.code.size ≤ UInt64.size := by
    have hlength := congrArg List.length
      ((Batch.holds_empty.defineEach hdefine').finish hfinish').1
    rw [Array.length_toList, List.length_map, List.nil_append,
      ← Grammar.length_drafts_eq_of_perm hgrammar] at hlength
    rw [hlength]
    exact hcompiled.size_eq ▸ hsize
  have hcompiled' := (Batch.holds_empty.defineEach hdefine').compiled hfinish' hsize'
    (min limit maxRecursionLimit)
  have hrelocates := hcompiled.relocates hcompiled' hgrammar rfl
  rw [matchLength_withRecursionLimit, matchLength_withRecursionLimit, Machine.called,
    Machine.called, ← hcompiled.map_reorder_lookup hcompiled' hgrammar name]
  cases hstart : p.names.lookup name with
  | none => rfl
  | some start => exact hrelocates.runAt_eq _ ⟨name, hstart⟩ input

/-- With `y` defined before `x` refers to it, `x` matches what it matches with `y` behind it. -/
theorem matchLength_perm_sample :
    ∃ b' p', Batch.empty.defineEach sample.reverse = .ok b' ∧ b'.finish false = .ok p' ∧
      (p'.withRecursionLimit 5).matchLength "x" [97, 97, 98, 99] = .ok (some 3) := by
  obtain ⟨b', p, p', hdefine', hfinish, hfinish', hsame⟩ :=
    matchLength_perm (List.reverse_perm sample).symm
      (show Batch.empty.defineEach sample = .ok sampleBatch by cbv)
  obtain rfl : sampleProgram = p :=
    Except.ok.inj ((show sampleBatch.finish false = .ok sampleProgram by cbv).symm.trans hfinish)
  refine ⟨b', p', hdefine', hfinish', ?_⟩
  rw [hsame (by cbv)]
  cbv

end Program
end LexicalPatterns
