import LexicalPatterns.Proofs.Meaning.Uses
import LexicalPatterns.Proofs.Syntax.Grammar
import Mathlib.Data.List.Perm.Basic

/-!
# Mentions

A tree mentions a name at each of its reference nodes. The repetitions around the node say how many
references the code has for it: the product of the numbers of copies that they write.
-/

namespace LexicalPatterns

/-- How many copies of its operand a node writes. -/
def NodeKind.copies : NodeKind → Nat
  | exactly count => count
  | between min max => min + (max - min)
  | atLeast min => min + 1
  | _ => 1

/-- A reference node: its span, and the number of references that the code has for it. -/
structure Mention where
  span : Span
  copies : Nat
  deriving DecidableEq, Repr

namespace Mention

/-- A mention in an operand of which `n` copies are written. -/
def times (n : Nat) (m : Mention) : Mention := { m with copies := n * m.copies }

/-- The spans of the references that the code has for a mention. -/
def spans (m : Mention) : List Span := List.replicate m.copies m.span

theorem flatten_replicate_append {α : Type} (n : Nat) (xs ys : List α) :
    (List.replicate n (xs ++ ys)).flatten.Perm
      ((List.replicate n xs).flatten ++ (List.replicate n ys).flatten) := by
  induction n with
  | zero => exact .refl _
  | succ n ih =>
    simp only [List.replicate_succ, List.flatten_cons, List.append_assoc]
    refine List.Perm.append_left xs ((ih.append_left ys).trans ?_)
    exact List.perm_append_comm_assoc ys _ _

theorem flatMap_spans_times (n : Nat) (ms : List Mention) :
    ((ms.map (times n)).flatMap spans).Perm (List.replicate n (ms.flatMap spans)).flatten := by
  induction ms with
  | nil => simp
  | cons m ms ih =>
    have hm : (times n m).spans = (List.replicate n m.spans).flatten :=
      List.flatten_replicate_replicate.symm
    rw [List.map_cons, List.flatMap_cons, List.flatMap_cons, hm]
    exact (ih.append_left _).trans (flatten_replicate_append n _ _).symm

end Mention

namespace Tree

mutual

def mentions : Tree → List Mention
  | .node kind span children =>
    (if kind = .reference then [⟨span, 1⟩] else []) ++
      (mentionsAll children).map (Mention.times kind.copies)

def mentionsAll : List Tree → List Mention
  | [] => []
  | t :: ts => mentions t ++ mentionsAll ts

end

theorem mentionsAll_eq_flatMap (ts : List Tree) : mentionsAll ts = ts.flatMap mentions := by
  induction ts with
  | nil => rfl
  | cons t ts ih => rw [mentionsAll, ih, List.flatMap_cons]

/-- A tree mentions a name at each of its reference nodes, and nowhere else. -/
theorem map_span_mentions (t : Tree) :
    t.mentions.map (·.span) = (t.nodes.filter (·.kind = .reference)).map (·.span) := by
  induction t using Tree.induction with
  | node kind span children ih =>
    have hinner : ((mentionsAll children).map (Mention.times kind.copies)).map (·.span) =
        ((nodesAll children).filter (·.kind = .reference)).map (·.span) := by
      rw [List.map_map, mentionsAll_eq_flatMap, nodesAll_eq_flatMap, List.filter_flatMap,
        List.map_flatMap, List.map_flatMap]
      exact List.flatMap_congr ih
    rw [mentions, nodes, List.map_append, hinner]
    by_cases hkind : kind = .reference
    · rw [if_pos hkind, List.filter_cons_of_pos (by simpa using hkind)]
      rfl
    · rw [if_neg hkind, List.filter_cons_of_neg (by simpa using hkind)]
      rfl

end Tree

/-- Whether a node of a kind can have so many children. -/
def NodeKind.Admits (count : Nat) : NodeKind → Prop
  | definition | group | choice => True
  | exactly _ | between _ _ | atLeast _ => count = 1
  | _ => count = 0

namespace Tree

/-- Whether literals and references have no children, and repetitions one. -/
inductive Proper : Tree → Prop
  | node {kind : NodeKind} {span : Span} {children : List Tree}
      (admits : kind.Admits children.length) (proper : ∀ t ∈ children, t.Proper) :
      Proper (.node kind span children)

theorem proper_leaf {kind : NodeKind} {span : Span} (h : kind.Admits 0) :
    (leaf kind span).Proper :=
  .node h (by simp)

theorem references_node {kind : NodeKind} {children : List Tree} (span : Span)
    (admits : kind.Admits children.length) (hkind : kind ≠ .reference) :
    references (.node kind span children) =
      (List.replicate kind.copies (children.flatMap references)).flatten := by
  have hall : (referencesAll children).flatten = children.flatMap references := by
    rw [referencesAll_eq_map, List.flatMap_def]
  have honly (hone : children.length = 1) :
      (referencesAll children).headD [] = children.flatMap references := by
    obtain ⟨t, rfl⟩ := List.length_eq_one_iff.1 hone
    simp [referencesAll]
  have hnone (hzero : children.length = 0) : children.flatMap references = [] := by
    rw [List.length_eq_zero_iff.1 hzero, List.flatMap_nil]
  cases kind with
  | definition | group | choice =>
    rw [references, hall]
    exact (List.append_nil _).symm
  | exactly count | between min max | atLeast min =>
    rw [references, honly admits, NodeKind.copies]
  | reference => exact absurd rfl hkind
  | _ =>
    rw [references, hnone admits]
    rfl

/-- The references in the code of a tree are those for its mentions. -/
theorem Proper.references_perm {t : Tree} (h : t.Proper) :
    (t.references.map Tree.span).Perm (t.mentions.flatMap Mention.spans) := by
  induction h with
  | @node kind span children admits _ ih =>
    by_cases hkind : kind = .reference
    · subst hkind
      rw [List.length_eq_zero_iff.1 admits]
      exact .refl _
    · -- the code has the copies one behind the other, the mentions have them side by side
      have hchildren : ((children.flatMap references).map Tree.span).Perm
          ((mentionsAll children).flatMap Mention.spans) := by
        rw [mentionsAll_eq_flatMap, List.flatMap_assoc, List.map_flatMap]
        exact List.Perm.flatMap_left children ih
      have hcopies := List.Perm.flatMap_left (List.replicate kind.copies ()) fun _ _ => hchildren
      rw [List.flatMap_replicate, List.flatMap_replicate] at hcopies
      rw [references_node span admits hkind, mentions, if_neg hkind, List.nil_append,
        List.map_flatten, List.map_replicate]
      exact hcopies.trans (Mention.flatMap_spans_times _ _).symm

end Tree

/-! ### Trees that are derived -/

variable {source : String}

theorem Repetition.admits {kind : NodeKind} {ys : List Token} (h : Repetition source kind ys) :
    kind.Admits 1 := by
  cases h <;> rfl

theorem Branch.proper_tree {b : Branch} (h : ∀ t ∈ b.items, t.Proper) : b.tree.Proper := by
  unfold Branch.tree
  split
  · next t hitems => exact h t (by simp [hitems])
  · exact .node trivial h

theorem Branch.proper_choice {bs : List Branch} (h : ∀ t ∈ bs.flatMap Branch.items, t.Proper)
    (span : Span) : (Tree.node .choice span (bs.map Branch.tree)).Proper := by
  refine .node trivial fun t ht => ?_
  obtain ⟨b, hb, rfl⟩ := List.mem_map.1 ht
  exact Branch.proper_tree fun t ht => h t (List.mem_flatMap.2 ⟨b, hb, ht⟩)

theorem Branch.proper_bracket {bs : List Branch} (h : ∀ t ∈ bs.flatMap Branch.items, t.Proper)
    (span : Span) : (Branch.bracket bs span).Proper := by
  unfold Branch.bracket
  split
  · exact Branch.proper_tree fun t ht => h t (by simpa using ht)
  · exact Branch.proper_choice h span

theorem Branch.proper_splice {bs : List Branch} (h : ∀ t ∈ bs.flatMap Branch.items, t.Proper)
    (span : Span) : ∀ t ∈ Branch.splice bs span, t.Proper := by
  unfold Branch.splice
  split
  · exact fun t ht => h t (by simpa using ht)
  · exact List.forall_mem_singleton.2 (Branch.proper_choice h span)

theorem Derives.proper {p : Phrase} {xs rest : List Token} (h : Derives source p xs rest) :
    ∀ t ∈ p.trees, t.Proper := by
  induction h with
  | wildcard _ | reference _ | character _ _ _ | string _ _ _ _ | range _ _ _ _ _ =>
    exact List.forall_mem_singleton.2 (Tree.proper_leaf rfl)
  | group _ _ _ ih => exact List.forall_mem_singleton.2 (Branch.proper_bracket ih _)
  | once _ ih | last _ ih => exact ih
  | repeated _ hkind ih => exact List.forall_mem_singleton.2 (.node hkind.admits ih)
  | cons _ _ iht ihts =>
    exact List.forall_mem_cons.2 ⟨List.forall_mem_singleton.1 iht, ihts⟩
  | branch _ ih => exact fun t ht => ih t (by simpa [Phrase.trees] using ht)
  | choice _ _ _ ihts ihbs =>
    rw [Phrase.trees, List.flatMap_cons]
    exact List.forall_mem_append.2 ⟨ihts, ihbs⟩

theorem DerivesAll.proper {tokens : List Token} {ts : List Tree}
    (h : DerivesAll source tokens ts) :
    ∀ t ∈ ts, t.Proper ∧ ∃ span nameSpan items,
      t = .node .definition span (.leaf .declaration nameSpan :: items) := by
  induction h with
  | nil => simp
  | @definition name _ xs _ bs _ _ _ hbs _ ih =>
    refine List.forall_mem_cons.2 ⟨⟨?_, _, _, _, rfl⟩, ih⟩
    refine .node trivial (List.forall_mem_cons.2 ⟨Tree.proper_leaf rfl, ?_⟩)
    exact Branch.proper_splice hbs.proper _

end LexicalPatterns
