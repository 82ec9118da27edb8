import LexicalPatterns.Proofs.Except
import LexicalPatterns.Proofs.Meaning.Layout

/-!
# Drafts of trees

The draft of a tree without the checks that may refuse it. Drafting a tree gives this draft or an
error, and the draft realizes the meaning of the tree, where no unbounded repetition repeats what
can match the empty text.
-/

namespace LexicalPatterns

namespace Tree

mutual

def drafts (source : String) : Tree → List Draft
  | .node kind span children =>
    let inner := draftsAll source children
    let operand := inner.headD []
    match kind with
    | .character b => [.emit (.literal b)]
    | .string bs => bs.map fun b => .emit (.literal b)
    | .range low high => [.emit (.range low high)]
    | .wildcard => [.emit (.range 0 255)]
    | .reference => [.use (span.text source) span]
    | .declaration => []
    | .definition | .group => inner.flatten
    | .choice => Draft.choice inner
    | .exactly count => Draft.copies count operand
    | .between min max => Draft.copies min operand ++ Draft.optional operand (max - min)
    | .atLeast min => Draft.copies min operand ++ Draft.loop operand

def draftsAll (source : String) : List Tree → List (List Draft)
  | [] => []
  | t :: ts => drafts source t :: draftsAll source ts

end

theorem draftsAll_eq_map (source : String) (ts : List Tree) :
    draftsAll source ts = ts.map (drafts source) := by
  induction ts with
  | nil => rfl
  | cons t ts ih => rw [draftsAll, ih, List.map_cons]

end Tree

namespace Draft

variable {source : String}

theorem ofTrees_eq_ok {ts : List Tree}
    (h : ∀ t ∈ ts, ∀ start ds, ofTree source start t = .ok ds → t.drafts source = ds)
    {start : Nat} {ds : List Draft} (hds : ofTrees source start ts = .ok ds) :
    (Tree.draftsAll source ts).flatten = ds := by
  induction ts generalizing start ds with
  | nil => simpa [ofTrees, Tree.draftsAll] using hds
  | cons t ts ih =>
    unfold ofTrees at hds
    rw [bind_eq_ok] at hds
    obtain ⟨first, hfirst, hds⟩ := hds
    obtain ⟨others, hothers, hds⟩ := bind_eq_ok.1 hds
    rw [Tree.draftsAll, List.flatten_cons, h t (by simp) _ _ hfirst,
      ih (fun u hu => h u (by simp [hu])) hothers]
    exact Except.ok.inj hds

theorem ofBranches_eq_ok {ts : List Tree}
    (h : ∀ t ∈ ts, ∀ start ds, ofTree source start t = .ok ds → t.drafts source = ds)
    {start : Nat} {dss : List (List Draft)} (hds : ofBranches source start ts = .ok dss) :
    Tree.draftsAll source ts = dss := by
  induction ts generalizing start dss with
  | nil => simpa [ofBranches, Tree.draftsAll] using hds
  | cons t ts ih =>
    unfold ofBranches at hds
    rw [bind_eq_ok] at hds
    obtain ⟨first, hfirst, hds⟩ := hds
    obtain ⟨others, hothers, hds⟩ := bind_eq_ok.1 hds
    rw [Tree.draftsAll, h t (by simp) _ _ hfirst, ih (fun u hu => h u (by simp [hu])) hothers]
    exact Except.ok.inj hds

theorem ofOperand_eq_ok {ts : List Tree}
    (h : ∀ t ∈ ts, ∀ start ds, ofTree source start t = .ok ds → t.drafts source = ds)
    {start : Nat} {ds : List Draft} (hds : ofOperand source start ts = .ok ds) :
    (Tree.draftsAll source ts).headD [] = ds := by
  cases ts with
  | nil => simpa [ofOperand, Tree.draftsAll] using hds
  | cons t ts => exact h t (by simp) _ _ hds

theorem ofTree_eq_ok {t : Tree} {start : Nat} {ds : List Draft}
    (hds : ofTree source start t = .ok ds) : t.drafts source = ds := by
  induction t using Tree.induction generalizing start ds with
  | node kind span children ih =>
    cases kind with
    | definition => exact ofTrees_eq_ok (fun t ht _ _ => ih t ht) hds
    | group => exact ofTrees_eq_ok (fun t ht _ _ => ih t ht) hds
    | declaration => exact Except.ok.inj hds
    | reference => exact Except.ok.inj hds
    | character b => exact Except.ok.inj hds
    | string bs => exact Except.ok.inj hds
    | wildcard => exact Except.ok.inj hds
    | range low high =>
      rw [ofTree] at hds
      split at hds
      · cases hds
      · exact Except.ok.inj hds
    | choice =>
      obtain ⟨branches, hbranches, hds⟩ := bind_eq_ok.1 hds
      unfold Tree.drafts
      rw [ofBranches_eq_ok (fun t ht _ _ => ih t ht) hbranches]
      exact Except.ok.inj hds
    | exactly count =>
      obtain ⟨_, -, hds⟩ := bind_eq_ok.1 hds
      rw [Tree.drafts]
      split at hds
      · next h0 =>
        rw [h0]
        exact Except.ok.inj hds
      · obtain ⟨body, hbody, hds⟩ := bind_eq_ok.1 hds
        obtain ⟨_, -, hds⟩ := bind_eq_ok.1 hds
        rw [ofOperand_eq_ok (fun t ht _ _ => ih t ht) hbody]
        exact Except.ok.inj hds
    | between min max =>
      rw [ofTree] at hds
      rw [Tree.drafts]
      split at hds
      · cases hds
      · next hle =>
        obtain ⟨_, -, hds⟩ := bind_eq_ok.1 hds
        split at hds
        · next h0 =>
          obtain ⟨rfl, rfl⟩ : min = 0 ∧ max = 0 := by omega
          exact Except.ok.inj hds
        · obtain ⟨body, hbody, hds⟩ := bind_eq_ok.1 hds
          obtain ⟨_, -, hds⟩ := bind_eq_ok.1 hds
          rw [ofOperand_eq_ok (fun t ht _ _ => ih t ht) hbody]
          exact Except.ok.inj hds
    | atLeast min =>
      obtain ⟨_, -, hds⟩ := bind_eq_ok.1 hds
      obtain ⟨body, hbody, hds⟩ := bind_eq_ok.1 hds
      obtain ⟨_, -, hds⟩ := bind_eq_ok.1 hds
      rw [Tree.drafts, ofOperand_eq_ok (fun t ht _ _ => ih t ht) hbody]
      exact Except.ok.inj hds

end Draft

namespace Machine

variable {m : Machine} {lookup : String → Option Nat} {nested : Nat → List UInt8 → MatchResult}
  {g : Grammar} {source : String}

theorem realizes_literal (b : UInt8) :
    m.Realizes lookup nested [.emit (.literal b)] (.byte fun c => c == b) :=
  realizes_byte rfl rfl fun _ => rfl

theorem realizes_range (low high : UInt8) :
    m.Realizes lookup nested [.emit (.range low high)] (.byte fun c => low ≤ c && c ≤ high) :=
  realizes_byte rfl rfl fun _ => rfl

theorem realizes_string (bs : List UInt8) :
    m.Realizes lookup nested (bs.map fun b => .emit (.literal b))
      (.sequence (bs.map fun b => .byte fun c => c == b)) := by
  induction bs with
  | nil => exact realizes_nil
  | cons b bs ih => exact (realizes_literal b).append ih

/-- The layout of a tree realizes its meaning, where loops consume. -/
theorem realizes_drafts
    (hwithin : ∀ name rest n, called lookup nested name rest = .ok (some n) → n ≤ rest.length)
    (hempty : ∀ name rest, called lookup nested name rest = .ok (some 0) →
      ∃ rule, g.rule? name = some rule ∧ ∀ t ∈ rule.items, t.MatchesEmpty g rule.source)
    {t : Tree} (hloops : ∀ s, Tree.Subtree s t → s.LoopConsumes g source) :
    m.Realizes lookup nested (t.drafts source) (t.meaning source (called lookup nested)) := by
  induction t using Tree.induction with
  | node kind span children ih =>
    have hinner : List.Forall₂ (m.Realizes lookup nested) (Tree.draftsAll source children)
        (Tree.meanings source (called lookup nested) children) := by
      rw [Tree.draftsAll_eq_map, Tree.meanings_eq_map, List.forall₂_map_left_iff,
        List.forall₂_map_right_iff, List.forall₂_same]
      intro t ht
      exact ih t ht fun s hs => hloops s (.child ht hs)
    have hoperand := realizes_headD hinner
    cases kind with
    | definition => exact realizes_sequence hinner
    | group => exact realizes_sequence hinner
    | declaration => exact realizes_nil
    | reference => exact realizes_use
    | character b => exact realizes_literal b
    | string bs => exact realizes_string bs
    | range low high => exact realizes_range low high
    | wildcard =>
      apply realizes_byte rfl rfl
      intro b
      have hle : b ≤ 255 := UInt8.le_iff_toNat_le.2 (Nat.le_of_lt_succ b.toNat_lt)
      simpa [Instruction.accepts, Instruction.next] using hle
    | choice => exact realizes_choice hinner
    | exactly count => exact hoperand.copies count
    | between min max => exact (hoperand.copies min).append (hoperand.optional _)
    | atLeast min =>
      obtain ⟨t, ht, hno⟩ := hloops _ .refl
      obtain ⟨ts, rfl⟩ : ∃ ts, children = t :: ts := List.head?_eq_some_iff.1 ht
      refine (hoperand.copies min).append (hoperand.loop ?_ ?_)
      · exact Tree.within_meaning hwithin t
      · intro rest hmem
        exact hno (Tree.matchesEmpty_of_mem hempty hmem)

end Machine
end LexicalPatterns
