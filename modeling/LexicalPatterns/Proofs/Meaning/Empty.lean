import LexicalPatterns.Proofs.Meaning.Basic

/-!
# Patterns that match the empty text

Which trees can match the empty text, read off the trees: the items of a sequence all can, and a
reference can when its definition can. A tree that cannot consumes a byte with every match, at
every place of every text.
-/

namespace LexicalPatterns

namespace Meaning

/-- Whether all matches end within the text. -/
def Within (μ : Meaning) : Prop := ∀ rest n, .ok n ∈ μ rest → n ≤ rest.length

variable {μ ν : Meaning}

theorem within_empty : Within empty := by
  simp [Within, empty]

theorem within_byte (accepts : UInt8 → Bool) : Within (byte accepts) := by
  rintro (_ | ⟨b, rest⟩) n h
  · simp [byte] at h
  · rw [byte] at h
    split at h
    · obtain rfl : n = 1 := by simpa using h
      simp
    · simp at h

theorem Within.seq (hμ : Within μ) (hν : Within ν) : Within (seq μ ν) := by
  intro rest k h
  obtain ⟨n, hn, l, hl, rfl⟩ := mem_seq.1 h
  have := hμ rest n hn
  have := hν _ l hl
  rw [List.length_drop] at this
  omega

theorem Within.or (hμ : Within μ) (hν : Within ν) : Within (or μ ν) := by
  intro rest n h
  rcases List.mem_append.1 h with h | h
  · exact hμ rest n h
  · exact hν rest n h

theorem within_sequence {μs : List Meaning} (h : ∀ μ ∈ μs, Within μ) : Within (sequence μs) := by
  induction μs with
  | nil => exact within_empty
  | cons μ μs ih => exact (h μ (by simp)).seq (ih fun ν hν => h ν (by simp [hν]))

theorem within_choice {μs : List Meaning} (h : ∀ μ ∈ μs, Within μ) : Within (choice μs) := by
  intro rest n hn
  obtain ⟨μ, hμ, hn⟩ := mem_choice.1 hn
  exact h μ hμ rest n hn

theorem within_headD {μs : List Meaning} (h : ∀ μ ∈ μs, Within μ) : Within (μs.headD empty) := by
  cases μs with
  | nil => exact within_empty
  | cons μ μs => exact h μ (by simp)

theorem Within.copies (h : Within μ) (count : Nat) : Within (copies μ count) := by
  induction count with
  | zero => exact within_empty
  | succ count ih => exact h.seq ih

theorem Within.upTo (h : Within μ) (count : Nat) : Within (upTo μ count) := by
  induction count with
  | zero => exact within_empty
  | succ count ih => exact (h.seq ih).or within_empty

theorem Within.many (h : Within μ) : Within (many μ) := fun rest n hn => h.upTo _ rest n hn

theorem within_atomic {result : List UInt8 → MatchResult}
    (h : ∀ rest n, result rest = .ok (some n) → n ≤ rest.length) : Within (atomic result) :=
  fun rest n hn => h rest n (mem_atomic.1 hn)

theorem zero_mem_seq {rest : List UInt8} (h : .ok 0 ∈ seq μ ν rest) :
    .ok 0 ∈ μ rest ∧ .ok 0 ∈ ν rest := by
  obtain ⟨n, hn, l, hl, hsum⟩ := mem_seq.1 h
  obtain ⟨rfl, rfl⟩ : n = 0 ∧ l = 0 := by omega
  exact ⟨hn, hl⟩

theorem zero_mem_sequence {μs : List Meaning} {rest : List UInt8} (h : .ok 0 ∈ sequence μs rest) :
    ∀ μ ∈ μs, .ok 0 ∈ μ rest := by
  induction μs with
  | nil => simp
  | cons μ μs ih =>
    obtain ⟨hμ, hμs⟩ := zero_mem_seq h
    rintro ν (_ | ⟨_, hν⟩)
    · exact hμ
    · exact ih hμs ν hν

theorem zero_mem_copies {count : Nat} {rest : List UInt8} (h : .ok 0 ∈ copies μ count rest) :
    count = 0 ∨ .ok 0 ∈ μ rest := by
  cases count with
  | zero => exact .inl rfl
  | succ count => exact .inr (zero_mem_seq h).1

theorem not_zero_mem_byte (accepts : UInt8 → Bool) (rest : List UInt8) :
    .ok 0 ∉ byte accepts rest := by
  cases rest with
  | nil => simp [byte]
  | cons b rest =>
    unfold byte
    split <;> simp

end Meaning

namespace Tree

/-- Whether a tree can match the empty text. -/
inductive MatchesEmpty (g : Grammar) : (source : String) → Tree → Prop
  | string {source : String} {span : Span} {children : List Tree} :
      MatchesEmpty g source (.node (.string []) span children)
  | declaration {source : String} {span : Span} {children : List Tree} :
      MatchesEmpty g source (.node .declaration span children)
  | reference {source : String} {span : Span} {children : List Tree} {rule : Rule}
      (found : g.rule? (span.text source) = some rule)
      (items : ∀ t ∈ rule.items, MatchesEmpty g rule.source t) :
      MatchesEmpty g source (.node .reference span children)
  | sequence {source : String} {kind : NodeKind} {span : Span} {children : List Tree}
      (sequence : kind = .definition ∨ kind = .group)
      (each : ∀ t ∈ children, MatchesEmpty g source t) :
      MatchesEmpty g source (.node kind span children)
  | choice {source : String} {span : Span} {children : List Tree} {t : Tree}
      (mem : t ∈ children) (h : MatchesEmpty g source t) :
      MatchesEmpty g source (.node .choice span children)
  | zero {source : String} {kind : NodeKind} {span : Span} {children : List Tree} {max : Nat}
      (zero : kind = .exactly 0 ∨ kind = .between 0 max ∨ kind = .atLeast 0) :
      MatchesEmpty g source (.node kind span children)
  | operand {source : String} {kind : NodeKind} {span : Span} {children : List Tree}
      (isRepeat : kind.isRepeat) (h : ∀ t ∈ children.head?, MatchesEmpty g source t) :
      MatchesEmpty g source (.node kind span children)

variable {g : Grammar} {source : String} {ref : String → List UInt8 → MatchResult}

theorem within_meaning (hr : ∀ name rest n, ref name rest = .ok (some n) → n ≤ rest.length)
    (t : Tree) : (t.meaning source ref).Within := by
  induction t using Tree.induction with
  | node kind span children ih =>
    have hinner : ∀ μ ∈ meanings source ref children, μ.Within := by
      simpa [meanings_eq_map] using ih
    have hoperand := Meaning.within_headD hinner
    cases kind with
    | definition => exact Meaning.within_sequence hinner
    | declaration => exact Meaning.within_empty
    | reference => exact Meaning.within_atomic (hr _)
    | character b => exact Meaning.within_byte _
    | string bs =>
      apply Meaning.within_sequence
      intro μ hμ
      obtain ⟨b, -, rfl⟩ := List.mem_map.1 hμ
      exact Meaning.within_byte _
    | range low high => exact Meaning.within_byte _
    | wildcard => exact Meaning.within_byte _
    | choice => exact Meaning.within_choice hinner
    | group => exact Meaning.within_sequence hinner
    | exactly count => exact hoperand.copies count
    | between min max => exact (hoperand.copies min).seq (hoperand.upTo _)
    | atLeast min => exact (hoperand.copies min).seq hoperand.many

theorem matchesEmpty_of_mem
    (hr : ∀ name rest, ref name rest = .ok (some 0) →
      ∃ rule, g.rule? name = some rule ∧ ∀ t ∈ rule.items, t.MatchesEmpty g rule.source)
    {t : Tree} {rest : List UInt8} (h : .ok 0 ∈ t.meaning source ref rest) :
    t.MatchesEmpty g source := by
  induction t using Tree.induction with
  | node kind span children ih =>
    have hsequence (hmem : .ok 0 ∈ Meaning.sequence (meanings source ref children) rest) :
        ∀ t ∈ children, t.MatchesEmpty g source := by
      have hall := Meaning.zero_mem_sequence hmem
      rw [meanings_eq_map, List.forall_mem_map] at hall
      intro t ht
      exact ih t ht (hall t ht)
    have hoperand (hmem : .ok 0 ∈ (meanings source ref children).headD .empty rest) :
        ∀ t ∈ children.head?, t.MatchesEmpty g source := by
      cases children with
      | nil => simp
      | cons t ts => simpa using ih t (by simp) hmem
    cases kind with
    | definition => exact .sequence (.inl rfl) (hsequence h)
    | declaration => exact .declaration
    | reference =>
      obtain ⟨rule, found, items⟩ := hr _ _ (Meaning.mem_atomic.1 h)
      exact .reference found items
    | character b => exact absurd h (Meaning.not_zero_mem_byte _ _)
    | string bs =>
      cases bs with
      | nil => exact .string
      | cons b bs =>
        exact absurd (Meaning.zero_mem_sequence h _ (List.mem_cons_self))
          (Meaning.not_zero_mem_byte _ _)
    | range low high => exact absurd h (Meaning.not_zero_mem_byte _ _)
    | wildcard => exact absurd h (Meaning.not_zero_mem_byte _ _)
    | choice =>
      obtain ⟨μ, hμ, hmem⟩ := Meaning.mem_choice.1 h
      rw [meanings_eq_map] at hμ
      obtain ⟨t, ht, rfl⟩ := List.mem_map.1 hμ
      exact .choice ht (ih t ht hmem)
    | group => exact .sequence (.inr rfl) (hsequence h)
    | exactly count =>
      rcases Meaning.zero_mem_copies h with rfl | hmem
      · exact @MatchesEmpty.zero _ _ _ _ _ 0 (.inl rfl)
      · exact .operand rfl (hoperand hmem)
    | between min max =>
      rcases Meaning.zero_mem_copies (Meaning.zero_mem_seq h).1 with rfl | hmem
      · exact .zero (.inr (.inl rfl))
      · exact .operand rfl (hoperand hmem)
    | atLeast min =>
      rcases Meaning.zero_mem_copies (Meaning.zero_mem_seq h).1 with rfl | hmem
      · exact @MatchesEmpty.zero _ _ _ _ _ 0 (.inr (.inr rfl))
      · exact .operand rfl (hoperand hmem)

inductive Subtree : Tree → Tree → Prop
  | refl {t : Tree} : Subtree t t
  | child {s t : Tree} {kind : NodeKind} {span : Span} {children : List Tree}
      (mem : t ∈ children) (h : Subtree s t) : Subtree s (.node kind span children)

theorem subtree_node_iff {s : Tree} {kind : NodeKind} {span : Span} {children : List Tree} :
    Subtree s (.node kind span children) ↔
      s = .node kind span children ∨ ∃ t ∈ children, Subtree s t := by
  constructor
  · rintro (_ | ⟨mem, h⟩)
    · exact .inl rfl
    · exact .inr ⟨_, mem, h⟩
  · rintro (rfl | ⟨t, mem, h⟩)
    · exact .refl
    · exact .child mem h

/-- Whether a tree is not an unbounded repetition of what can match the empty text. -/
def LoopConsumes (g : Grammar) (source : String) : Tree → Prop
  | .node (.atLeast _) _ children => ∃ t ∈ children.head?, ¬ t.MatchesEmpty g source
  | _ => True

end Tree

namespace Grammar

/-- Whether no pattern repeats what can match the empty text without a bound. -/
def LoopsConsume (g : Grammar) : Prop :=
  ∀ rule ∈ g, ∀ item ∈ rule.items, ∀ t, Tree.Subtree t item → t.LoopConsumes g rule.source

variable {g : Grammar} {limit levels : Nat} {name : String} {rest : List UInt8}

theorem exists_of_result {n : Nat} (h : g.result limit levels name rest = .ok (some n)) :
    ∃ rule inner, g.rule? name = some rule ∧ levels = inner + 1 ∧
      .ok n ∈ Meaning.sequence
        (Tree.meanings rule.source (g.result limit inner) rule.items) rest := by
  cases hrule : g.rule? name with
  | none => simp [result_of_none hrule] at h
  | some rule =>
    cases levels with
    | zero => simp [result_zero_of_some hrule] at h
    | succ levels =>
      rw [result_succ_of_some hrule] at h
      exact ⟨rule, levels, rfl, rfl, Meaning.mem_of_result h⟩

/-- A name that matches the empty text somewhere is the name of items that can match it. -/
theorem matchesEmpty_of_result (h : g.result limit levels name rest = .ok (some 0)) :
    ∃ rule, g.rule? name = some rule ∧ ∀ t ∈ rule.items, t.MatchesEmpty g rule.source := by
  induction levels generalizing name rest with
  | zero =>
    obtain ⟨_, _, _, hlevels, _⟩ := exists_of_result h
    cases hlevels
  | succ levels ih =>
    obtain ⟨rule, _, hrule, ⟨⟩, hmem⟩ := exists_of_result h
    have hall := Meaning.zero_mem_sequence hmem
    rw [Tree.meanings_eq_map, List.forall_mem_map] at hall
    exact ⟨rule, hrule, fun t ht => Tree.matchesEmpty_of_mem (fun _ _ => ih) (hall t ht)⟩

theorem result_le {n : Nat} (h : g.result limit levels name rest = .ok (some n)) :
    n ≤ rest.length := by
  induction levels generalizing name rest n with
  | zero =>
    obtain ⟨_, _, _, hlevels, _⟩ := exists_of_result h
    cases hlevels
  | succ levels ih =>
    obtain ⟨rule, _, _, ⟨⟩, hmem⟩ := exists_of_result h
    refine Meaning.within_sequence (fun μ hμ => ?_) rest n hmem
    rw [Tree.meanings_eq_map] at hμ
    obtain ⟨t, -, rfl⟩ := List.mem_map.1 hμ
    exact Tree.within_meaning (fun _ _ _ => ih) t

end Grammar
end LexicalPatterns
