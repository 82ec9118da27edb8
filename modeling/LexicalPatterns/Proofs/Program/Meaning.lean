import Mathlib
import LexicalPatterns.Proofs.Batch.Patterns

/-!
# Programs mean what their trees say

A program matches what the trees of its definitions mean. Depth-first matching of its code agrees
with the meaning at every level of nesting, errors included, where no unbounded repetition repeats
what can match the empty text; and a run that ends without an error agrees with depth-first
matching.
-/

namespace LexicalPatterns

namespace Grammar

variable {g : Grammar}

theorem mem_of_rule? {name : String} {r : Rule} (h : g.rule? name = some r) :
    r ∈ g ∧ r.name = name :=
  ⟨List.mem_of_find?_eq_some h, by simpa using List.find?_some h⟩

theorem rule?_of_mem (hg : (g.map (·.name)).Nodup) {r : Rule} (h : r ∈ g) :
    g.rule? r.name = some r := by
  obtain ⟨r', hr'⟩ : ∃ r', g.rule? r.name = some r' := by
    rw [← Option.isSome_iff_exists, rule?, List.find?_isSome]
    exact ⟨r, h, by simp⟩
  obtain ⟨hmem, hname⟩ := mem_of_rule? hr'
  rw [hr', List.inj_on_of_nodup_map hg hmem h hname]

end Grammar

namespace Machine

/-- Whether a machine has the layouts of a grammar for its code, and `lookup` knows where they
start. Indices are words of 64 bits. -/
structure Compiled (m : Machine) (lookup : String → Option Nat) (g : Grammar) : Prop where
  code : m.code.toList = g.drafts.map (Draft.resolve lookup)
  lookup_iff : ∀ name start, lookup name = some start ↔ ⟨name, start⟩ ∈ g.entriesFrom 0
  nodup : (g.map (·.name)).Nodup
  size_le : m.code.size ≤ UInt64.size

variable {m : Machine} {lookup : String → Option Nat} {g : Grammar}
  {nested : Nat → List UInt8 → MatchResult}

theorem Compiled.draftsAt (h : m.Compiled lookup g) : m.DraftsAt lookup 0 g.drafts :=
  @draftsAt_of_toList _ _ _ [] (by rw [h.code, List.append_nil])

/-- The layout of a pattern stands at the index that its name has. -/
theorem Compiled.exists_rule (h : m.Compiled lookup g) {name : String} {start : Nat}
    (hstart : lookup name = some start) :
    ∃ r, g.rule? name = some r ∧ m.DraftsAt lookup start r.drafts := by
  obtain ⟨before, r, after, hg, rfl, hbefore⟩ :=
    Grammar.exists_of_mem_entriesFrom ((h.lookup_iff name start).1 hstart)
  refine ⟨r, Grammar.rule?_of_mem h.nodup (by simp [hg]), ?_⟩
  have hat := h.draftsAt
  rw [hg, Grammar.drafts, List.flatMap_append, List.flatMap_cons, draftsAt_append,
    draftsAt_append] at hat
  have hbefore : start = 0 + before.drafts.length := hbefore
  rw [hbefore]
  exact hat.2.1

theorem Compiled.rule?_eq_none (h : m.Compiled lookup g) {name : String}
    (hname : lookup name = none) : g.rule? name = none := by
  rw [Option.eq_none_iff_forall_ne_some]
  intro r hr
  obtain ⟨hmem, rfl⟩ := Grammar.mem_of_rule? hr
  have hname' : r.name ∈ (g.entriesFrom 0).map (·.name) := by
    rw [Grammar.map_name_entriesFrom]
    exact List.mem_map.2 ⟨r, hmem, rfl⟩
  obtain ⟨⟨name, start⟩, hentry, rfl⟩ := List.mem_map.1 hname'
  rw [(h.lookup_iff _ start).2 hentry] at hname
  cases hname

theorem Compiled.exists_finds (h : m.Compiled lookup g) (hloops : g.LoopsConsume)
    (hwithin : ∀ name rest n, called lookup nested name rest = .ok (some n) → n ≤ rest.length)
    (hempty : ∀ name rest, called lookup nested name rest = .ok (some 0) →
      ∃ r, g.rule? name = some r ∧ ∀ t ∈ r.items, t.MatchesEmpty g r.source)
    {name : String} {start : Nat} (hstart : lookup name = some start) :
    ∃ r, g.rule? name = some r ∧ ∀ rest, m.Finds nested start 0 rest
      ((Meaning.sequence (Tree.meanings r.source (called lookup nested) r.items)).result rest) := by
  obtain ⟨r, hr, hat⟩ := h.exists_rule hstart
  refine ⟨r, hr, fun rest => ?_⟩
  obtain ⟨hitems, hterminal⟩ := draftsAt_append.1 hat
  rw [draftsAt_singleton] at hterminal
  have hstop := (Array.getElem?_eq_some_iff.1 hterminal).1
  have hrealizes : m.Realizes lookup nested (Tree.draftsAll r.source r.items).flatten
      (Meaning.sequence (Tree.meanings r.source (called lookup nested) r.items)) := by
    apply realizes_sequence
    rw [Tree.draftsAll_eq_map, Tree.meanings_eq_map, List.forall₂_map_left_iff,
      List.forall₂_map_right_iff, List.forall₂_same]
    exact fun t ht => realizes_drafts hwithin hempty
      (hloops r (Grammar.mem_of_rule? hr).1 t ht)
  rw [Meaning.result_eq_find]
  apply hrealizes start hitems (Nat.lt_of_lt_of_le hstop h.size_le)
  intro n _
  simpa using Finds.decides (.terminal hterminal)

/-- Depth-first matching of a name gives the match that its trees mean. -/
theorem Compiled.called_backtrackAt (h : m.Compiled lookup g) (hloops : g.LoopsConsume)
    (levels : Nat) :
    called lookup (m.backtrackAt levels) = g.result m.recursionLimit levels := by
  -- One level further in, searches for references already mean what the trees of their names mean.
  induction levels with
  | zero =>
    funext name rest
    unfold called
    cases hname : lookup name with
    | none => rw [Grammar.result_of_none (h.rule?_eq_none hname)]
    | some start =>
      obtain ⟨r, hr, -⟩ := h.exists_rule hname
      rw [Grammar.result_zero_of_some hr]
      rfl
  | succ levels ih =>
    funext name rest
    unfold called
    cases hname : lookup name with
    | none => rw [Grammar.result_of_none (h.rule?_eq_none hname)]
    | some start =>
      obtain ⟨r, hr, hfinds⟩ := @Compiled.exists_finds _ _ _ (m.backtrackAt levels) h hloops
        (by rw [ih]; exact fun _ _ _ => Grammar.result_le)
        (by rw [ih]; exact fun _ _ => Grammar.matchesEmpty_of_result) _ _ hname
      rw [Grammar.result_succ_of_some hr, ← ih]
      exact (hfinds rest).backtrack_eq (m.prefixes_backtrackAt levels) (fresh_of_not_stalled rfl)

end Machine

namespace Batch

theorem Holds.compiled {b : Batch} {g : Grammar} (h : b.Holds g) {p : Program}
    (hfinish : b.finish false = .ok p) (hsize : p.code.size ≤ UInt64.size) (limit : Nat) :
    Machine.Compiled ⟨p.code, limit⟩ p.names.lookup g := by
  obtain ⟨hcode, hnames⟩ := h.finish hfinish
  rw [hnames]
  exact ⟨hcode, fun _ _ => h.lookup_eq_some_iff, h.nodup, hsize⟩

end Batch

namespace Program

theorem machine_withRecursionLimit (p : Program) (limit : Nat) :
    (p.withRecursionLimit limit).machine = ⟨p.code, min limit maxRecursionLimit⟩ := by
  have hlimit : min (min limit maxRecursionLimit) maxRecursionLimit =
      min limit maxRecursionLimit := by omega
  exact congrArg (Machine.mk p.code) hlimit

theorem matchLength_withRecursionLimit (p : Program) (limit : Nat) (name : String)
    (input : List UInt8) :
    (p.withRecursionLimit limit).matchLength name input =
      Machine.called p.names.lookup
        (Machine.run ⟨p.code, min limit maxRecursionLimit⟩) name input := by
  change Machine.called p.names.lookup (p.withRecursionLimit limit).machine.run name input = _
  rw [machine_withRecursionLimit]

/-- Whenever a program of definitions matches a name, or finds that it does not match, the trees of
the definitions mean the same, however deep references may nest beyond the limit. -/
theorem matchLength_eq_result {ds : List (String × Forest)} {b : Batch} {p : Program}
    (hdefine : Batch.empty.defineEach ds = .ok b) (hfinish : b.finish false = .ok p)
    (hloops : (Grammar.ofDefinitions ds).LoopsConsume) (hsize : p.code.size ≤ UInt64.size)
    {limit levels : Nat} (hlevels : min limit maxRecursionLimit < levels) {name : String}
    {input : List UInt8} {r : Option Nat}
    (h : (p.withRecursionLimit limit).matchLength name input = .ok r) :
    (Grammar.ofDefinitions ds).result (min limit maxRecursionLimit) levels name input = .ok r := by
  have hholds : b.Holds (Grammar.ofDefinitions ds) := Batch.holds_empty.defineEach hdefine
  have hcompiled := hholds.compiled hfinish hsize (min limit maxRecursionLimit)
  rw [← hcompiled.called_backtrackAt hloops levels, Machine.called]
  rw [matchLength_withRecursionLimit, Machine.called] at h
  cases hname : p.names.lookup name with
  | none => simpa [hname] using h
  | some start =>
    rw [hname] at h
    exact Machine.backtrackAt_refines hlevels _ _ _ (Machine.runAt_refines _ _ _ _ _ h)

/-- The definitions of `x`, any number of `y` and then `b`, and of `y`, which is `a`. -/
def sampleSource : String := "x=y*'b' y='a'"

def sample : List (String × Forest) :=
  match Batch.definitions sampleSource with
  | .ok fs => fs.map fun f => (sampleSource, f)
  | .error _ => []

def sampleBatch : Batch :=
  match Batch.empty.defineEach sample with
  | .ok b => b
  | .error _ => .empty

def sampleProgram : Program :=
  match sampleBatch.finish false with
  | .ok p => p
  | .error _ => ⟨#[], .empty, [], 0⟩

theorem ofDefinitions_sample : Grammar.ofDefinitions sample =
    [⟨"x", sampleSource, [.node (.atLeast 0) ⟨2, 4⟩ [.node .reference ⟨2, 3⟩ []],
        .node (.character 98) ⟨4, 7⟩ []]⟩,
      ⟨"y", sampleSource, [.node (.character 97) ⟨10, 13⟩ []]⟩] := by
  cbv

theorem loopsConsume_sample : (Grammar.ofDefinitions sample).LoopsConsume := by
  have hempty : ¬ Tree.MatchesEmpty (Grammar.ofDefinitions sample) sampleSource
      (.node .reference ⟨2, 3⟩ []) := by
    intro h
    cases h with
    | @reference _ _ _ r found items =>
      have hy : (Grammar.ofDefinitions sample).rule? (Span.text ⟨2, 3⟩ sampleSource) =
          some ⟨"y", sampleSource, [.node (.character 97) ⟨10, 13⟩ []]⟩ := by cbv
      obtain rfl := Option.some.inj (found.symm.trans hy)
      cases items _ (List.mem_singleton_self _) with
      | sequence h => simp at h
      | zero h => simp at h
      | operand h => cases h
    | sequence h => simp at h
    | zero h => simp at h
    | operand h => cases h
  intro r hr item hitem t ht
  rw [ofDefinitions_sample] at hr
  rcases List.mem_pair.1 hr with rfl | rfl
  · rcases List.mem_pair.1 hitem with rfl | rfl
    · obtain rfl | rfl : t = .node (.atLeast 0) ⟨2, 4⟩ [.node .reference ⟨2, 3⟩ []] ∨
          t = .node .reference ⟨2, 3⟩ [] := by simpa [Tree.subtree_node_iff] using ht
      · exact ⟨_, rfl, hempty⟩
      · trivial
    · obtain rfl : t = .node (.character 98) ⟨4, 7⟩ [] := by simpa [Tree.subtree_node_iff] using ht
      trivial
  · obtain rfl := List.mem_singleton.1 hitem
    obtain rfl : t = .node (.character 97) ⟨10, 13⟩ [] := by simpa [Tree.subtree_node_iff] using ht
    trivial

theorem matchLength_eq_result_sample :
    (sampleProgram.withRecursionLimit 5).matchLength "x" [97, 97, 98, 99] = .ok (some 3) ∧
      (Grammar.ofDefinitions sample).result 5 6 "x" [97, 97, 98, 99] = .ok (some 3) := by
  have h : (sampleProgram.withRecursionLimit 5).matchLength "x" [97, 97, 98, 99] =
      .ok (some 3) := by cbv
  exact ⟨h, matchLength_eq_result (show Batch.empty.defineEach sample = .ok sampleBatch by cbv)
    (show sampleBatch.finish false = .ok sampleProgram by cbv) loopsConsume_sample (by cbv)
    (by decide) h⟩

end Program
end LexicalPatterns
