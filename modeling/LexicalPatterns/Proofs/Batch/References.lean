import LexicalPatterns.Proofs.Batch.Session
import LexicalPatterns.Proofs.Meaning.Uses

/-!
# References wait for their targets

The references that wait for their targets are those in the code of the batch: one for each, in the
order of the code, with the name, the span and the origin of the reference node that it comes from.
Finishing the batch gives each of them the place of its name, if it has one, and changes nothing
else.
-/

namespace LexicalPatterns

namespace Accepted

/-- The reference nodes that the references in the code of the definition come from. -/
def references (a : Accepted) : List Tree := a.forest.items.flatMap Tree.references

/-- Whether a reference stands in the code of the definition. -/
def Covers (a : Accepted) (f : Fixup) : Prop :=
  a.placed.start ≤ f.index ∧ f.index < a.placed.stop

instance (a : Accepted) (f : Fixup) : Decidable (a.Covers f) :=
  inferInstanceAs (Decidable (_ ∧ _))

end Accepted

/-- What a reference tells apart from its place: its name, its span and its origin. -/
def Fixup.tag (f : Fixup) : String × Span × Nat := (f.name, f.span, f.origin)

def Tree.tag (source : String) (origin : Nat) (t : Tree) : String × Span × Nat :=
  (t.span.text source, t.span, origin)

theorem Draft.map_tag_fixups (origin start : Nat) (ds : List Draft) :
    (fixups origin start ds).map Fixup.tag =
      (uses ds).map fun use => (use.1, use.2, origin) := by
  induction ds generalizing start with
  | nil => rfl
  | cons d ds ih =>
    rw [fixups_cons, List.map_append, ih]
    cases d <;> rfl

/-- The uses in the code of a pattern are those of the reference nodes of its items. -/
theorem Rule.uses_drafts (r : Rule) :
    Draft.uses r.drafts = (r.items.flatMap Tree.references).map (Tree.use r.source) := by
  have hitems : (Tree.draftsAll r.source r.items).map Draft.uses =
      (r.items.map Tree.references).map (List.map (Tree.use r.source)) := by
    rw [Tree.draftsAll_eq_map, List.map_map, List.map_map]
    exact List.map_congr_left fun t _ => t.uses_drafts r.source
  rw [drafts, Draft.uses_append, Draft.uses_flatten, hitems, List.flatMap_def, List.map_flatten]
  exact List.append_nil _

theorem Accepted.map_tag_fixups (a : Accepted) :
    a.fixups.map Fixup.tag = a.references.map (Tree.tag a.source a.origin) := by
  rw [fixups, Draft.map_tag_fixups, Rule.uses_drafts, List.map_map]
  rfl

namespace Batch

/-- Whether a program is the batch with each reference resolved to the place of its name, and
without a target where there is none. -/
structure Resolves (b : Batch) (p : Program) : Prop where
  movement : ∀ i : Nat, (p.code[i]?).map (·.movement) = (b.code[i]?).map (·.movement)
  unchanged : ∀ i : Nat, (∀ f ∈ b.fixups, f.index ≠ i) → p.code[i]? = b.code[i]?
  target_iff : ∀ (i : Nat) (target : Option Nat),
    (∃ movement, p.code[i]? = some ⟨.reference target, movement⟩) ↔
      ∃ f ∈ b.fixups, f.index = i ∧ b.names.lookup f.name = target
  names : p.names = b.names
  dangling : p.dangling = (b.fixups.toList.filter fun f =>
    (p.code[f.index]?).map (·.action) = some (.reference none)).map fun f =>
      ⟨f.name, f.span, f.origin⟩

variable {b : Batch} {g : Grammar} {p : Program}

/-- There is a reference in the code where one waits for its target, and nowhere else. -/
theorem Holds.exists_fixup_iff (h : b.Holds g) (i : Nat) :
    (∃ f ∈ b.fixups, f.index = i) ↔
      ∃ target movement, b.code[i]? = some ⟨.reference target, movement⟩ := by
  constructor
  · rintro ⟨f, hf, rfl⟩
    refine ⟨none, 1, ?_⟩
    rw [h.getElem?_code, h.use_of_mem_fixups hf]
    rfl
  · rintro ⟨target, movement, code⟩
    obtain ⟨name, span, hd, -⟩ := Grammar.exists_use_of_reference h.code_eq code
    obtain ⟨f, hf, hindex, -⟩ := h.exists_fixup hd
    exact ⟨f, hf, hindex⟩

theorem Holds.getElem?_finish (h : b.Holds g) (hfinish : b.finish false = .ok p) (i : Nat) :
    p.code[i]? = (g.drafts[i]?).map (Draft.resolve b.names.lookup) := by
  rw [← Array.getElem?_toList, (h.finish hfinish).1, List.getElem?_map]

theorem Holds.getElem?_finish_index (h : b.Holds g) (hfinish : b.finish false = .ok p)
    {f : Fixup} (hf : f ∈ b.fixups) :
    p.code[f.index]? = some (.next (.reference (b.names.lookup f.name))) := by
  rw [h.getElem?_finish hfinish, h.use_of_mem_fixups hf]
  rfl

/-- Finishing a batch resolves its references and changes nothing else. -/
theorem Holds.resolves (h : b.Holds g) (hfinish : b.finish false = .ok p) : b.Resolves p := by
  refine ⟨?movement, ?unchanged, ?target_iff, (h.finish hfinish).2, ?dangling⟩
  case movement =>
    intro i
    rw [h.getElem?_finish hfinish, h.getElem?_code, Option.map_map, Option.map_map]
    congr 1
    funext d
    cases d <;> rfl
  case unchanged =>
    intro i hno
    rw [h.getElem?_finish hfinish, h.getElem?_code]
    cases hd : g.drafts[i]? with
    | none => rfl
    | some d =>
      cases d with
      | code instruction => rfl
      | use name span =>
        obtain ⟨f, hf, hindex, -⟩ := h.exists_fixup hd
        exact absurd hindex (hno f hf)
  case target_iff =>
    intro i target
    constructor
    · rintro ⟨movement, code⟩
      obtain ⟨name, span, hd, hlookup⟩ :=
        Grammar.exists_use_of_reference (h.finish hfinish).1 code
      obtain ⟨f, hf, hindex, rfl⟩ := h.exists_fixup hd
      exact ⟨f, hf, hindex, hlookup⟩
    · rintro ⟨f, hf, rfl, rfl⟩
      exact ⟨1, h.getElem?_finish_index hfinish hf⟩
  case dangling =>
    obtain rfl := Except.ok.inj hfinish
    refine congrArg (List.map _) (List.filter_congr fun f hf => ?_)
    rw [h.getElem?_finish_index hfinish (.mk hf), isDangling]
    cases b.names.lookup f.name <;> simp [Instruction.next]

end Batch

namespace Session

variable {s : Session} {a : Accepted}

theorem Sound.covers (h : s.Sound) (ha : a ∈ s.accepted) {f : Fixup} (hf : f ∈ a.fixups) :
    a.Covers f := by
  obtain ⟨k, hd, hindex, -⟩ := Draft.mem_fixups_iff.1 hf
  have hk := (List.getElem?_eq_some_iff.1 hd).1
  have hstop := h.stop_eq ha
  unfold Accepted.Covers
  omega

/-- The places of accepted definitions do not overlap. -/
theorem Sound.pairwise (h : s.Sound) :
    s.accepted.Pairwise fun a c => a.placed.stop ≤ c.placed.start := by
  have hpairwise := (s.grammar.tile_placedFrom 0).pairwise
  rw [← h.placed] at hpairwise
  exact List.pairwise_map.1 hpairwise

theorem Sound.filter_fixups (h : s.Sound) (ha : a ∈ s.accepted) :
    s.batch.fixups.toList.filter (fun f => a.Covers f) = a.fixups := by
  obtain ⟨before, after, hsplit⟩ := List.append_of_mem ha
  have hpairwise := h.pairwise
  rw [hsplit, List.pairwise_append, List.pairwise_cons] at hpairwise
  obtain ⟨-, ⟨hafter, -⟩, hbefore⟩ := hpairwise
  have hnone (others : List Accepted) (hsub : ∀ c ∈ others, c ∈ s.accepted)
      (hapart : ∀ c ∈ others, c.placed.stop ≤ a.placed.start ∨ a.placed.stop ≤ c.placed.start) :
      (others.flatMap Accepted.fixups).filter (fun f => a.Covers f) = [] := by
    rw [List.filter_eq_nil_iff]
    intro f hf
    obtain ⟨c, hc, hf⟩ := List.mem_flatMap.1 hf
    obtain ⟨hstart, hstop⟩ := h.covers (hsub c hc) hf
    rw [decide_eq_true_iff, Accepted.Covers]
    have := hapart c hc
    omega
  have hself : a.fixups.filter (fun f => a.Covers f) = a.fixups := by
    rw [List.filter_eq_self]
    intro f hf
    exact decide_eq_true (h.covers ha hf)
  rw [h.fixups, hsplit, List.flatMap_append, List.flatMap_cons, List.filter_append,
    List.filter_append, hself,
    hnone before (fun c hc => by simp [hsplit, hc]) fun c hc => .inl (hbefore c hc a (by simp)),
    hnone after (fun c hc => by simp [hsplit, hc]) fun c hc => .inr (hafter c hc),
    List.nil_append, List.append_nil]

/-- Whether the references that wait for their targets are those in the code, in order, and come
from the reference nodes of the accepted definitions. -/
structure Tracked (s : Session) : Prop where
  increasing : s.batch.fixups.toList.Pairwise fun f f' => f.index < f'.index
  index_iff : ∀ i : Nat, (∃ f ∈ s.batch.fixups, f.index = i) ↔
    ∃ target movement, s.batch.code[i]? = some ⟨.reference target, movement⟩
  origin : ∀ f ∈ s.batch.fixups, ∃ a ∈ s.accepted, a.Covers f ∧ ∃ item ∈ a.forest.items, ∃ t,
    Tree.Subtree t item ∧ t.kind = .reference ∧ f.tag = t.tag a.source a.origin
  tags : ∀ a ∈ s.accepted, (s.batch.fixups.toList.filter fun f => a.Covers f).map Fixup.tag =
    a.references.map (Tree.tag a.source a.origin)

theorem Sound.tracked (h : s.Sound) : s.Tracked := by
  refine ⟨?increasing, h.holds.exists_fixup_iff, ?origin, ?tags⟩
  case increasing =>
    have hpairwise := Draft.pairwise_fixups 0 0 s.grammar.drafts
    rw [← h.holds.fixups, List.pairwise_map] at hpairwise
    exact hpairwise
  case origin =>
    intro f hf
    obtain ⟨a, ha, hfa⟩ : ∃ a ∈ s.accepted, f ∈ a.fixups := by
      rw [← List.mem_flatMap, ← h.fixups]
      exact hf.val
    have htag : f.tag ∈ a.references.map (Tree.tag a.source a.origin) := by
      rw [← a.map_tag_fixups]
      exact List.mem_map_of_mem hfa
    obtain ⟨t, ht, htag⟩ := List.mem_map.1 htag
    obtain ⟨item, hitem, ht⟩ := List.mem_flatMap.1 ht
    obtain ⟨hsubtree, hkind⟩ := Tree.subtree_of_mem_references ht
    exact ⟨a, ha, h.covers ha hfa, item, hitem, t, hsubtree, hkind, htag.symm⟩
  case tags =>
    intro a ha
    rw [h.filter_fixups ha, a.map_tag_fixups]

/-- Whatever a batch is asked for, the references that wait for their targets are those in its code,
and finishing it resolves them and changes nothing else. -/
theorem tracked_after (rs : List Request) :
    (after rs).Tracked ∧
      ∃ p, (after rs).batch.finish false = .ok p ∧ (after rs).batch.Resolves p :=
  ⟨(sound_after rs).tracked, _, rfl, (sound_after rs).holds.resolves rfl⟩

end Session
end LexicalPatterns
