import LexicalPatterns.Files.Discover
import Mathlib.Data.List.Basic

/-!
# The order of found files

Lists of parts are totally ordered, and only equal lists tie. In a list of paths in that order those
with the same parts stand side by side, so dropping each one that repeats the one before it leaves a
path for each list of parts.
-/

namespace LexicalPatterns

open Std (TransCmp OrientedCmp ReflCmp LawfulEqCmp LawfulEqOrd)

namespace Path

/-! ### Comparing parts -/

namespace Part

def text : Part → String
  | .name text => text
  | _ => ""

/-- Parts are compared by their ranks and then by their texts, which differ for names only. -/
theorem compare_eq : compare = compareLex (compareOn rank) (compareOn text) := by
  funext a b
  cases a <;> cases b <;> rfl

instance : TransCmp compare := by
  rw [compare_eq]
  infer_instance

instance : LawfulEqCmp compare where
  compare_self := ReflCmp.compare_self
  eq_of_compare {a b} h := by
    rw [compare_eq, compareLex_eq_eq] at h
    obtain ⟨hrank, htext⟩ := h
    have hrank : a.rank = b.rank := LawfulEqOrd.eq_of_compare hrank
    have htext : a.text = b.text := LawfulEqOrd.eq_of_compare htext
    cases a <;> cases b <;> simp_all [rank, text]

end Part

theorem compareParts_eq : compareParts = List.compareLex Part.compare := by
  funext as bs
  induction as generalizing bs with
  | nil => cases bs <;> rfl
  | cons a as ih =>
    cases bs with
    | nil => rfl
    | cons b bs =>
      rw [compareParts, List.compareLex, ih]
      cases a.compare b <;> rfl

instance : TransCmp compareParts := by
  rw [compareParts_eq]
  infer_instance

instance : LawfulEqCmp compareParts := by
  rw [compareParts_eq]
  infer_instance

theorem compareParts_eq_eq (as bs : List Part) : compareParts as bs = .eq ↔ as = bs :=
  LawfulEqCmp.compare_eq_iff_eq

/-! ### Comparing paths -/

def Before (p q : String) : Prop := compareParts (parts p) (parts q) = .lt

theorem Before.trans {p q r : String} (hpq : Before p q) (hqr : Before q r) : Before p r :=
  TransCmp.lt_trans hpq hqr

theorem Before.parts_ne {p q : String} (h : Before p q) : parts p ≠ parts q := by
  intro hparts
  have heq := (compareParts_eq_eq (parts p) (parts q)).2 hparts
  exact absurd (heq.symm.trans h) (by decide)

theorem precedes_iff {p q : String} : precedes p q ↔ (compareParts (parts p) (parts q)).isLE := by
  rw [precedes]
  cases compareParts (parts p) (parts q) <;> decide

theorem same_iff_parts_eq {p q : String} : same p q ↔ parts p = parts q := beq_iff_eq

theorem before_of_precedes {p q : String} (h : precedes p q) (hne : ¬ same p q) : Before p q := by
  rw [precedes_iff] at h
  rw [same_iff_parts_eq, ← compareParts_eq_eq] at hne
  rw [Before]
  cases hcompare : compareParts (parts p) (parts q) with
  | lt => rfl
  | eq => exact absurd hcompare hne
  | gt => exact absurd (hcompare ▸ h) (by decide)

theorem pairwise_mergeSort_precedes (files : List String) :
    (files.mergeSort precedes).Pairwise (precedes · ·) := by
  apply List.pairwise_mergeSort
  · intro p q r hpq hqr
    rw [precedes_iff] at *
    exact TransCmp.isLE_trans hpq hqr
  · intro p q
    have hswap : compareParts (parts q) (parts p) = (compareParts (parts p) (parts q)).swap :=
      OrientedCmp.eq_swap
    rw [Bool.or_eq_true, precedes_iff, precedes_iff, hswap]
    cases compareParts (parts p) (parts q) <;> decide

end Path

/-! ### Dropping repeated paths -/

open LexicalPatterns.Path

/-- A path in front stays, and takes the place of the first one behind it if both are the same. -/
theorem dropRepeated_cons (p : String) (ps : List String) :
    ∃ qs, dropRepeated (p :: ps) = p :: qs ∧
      (dropRepeated ps = qs ∧ (∀ q ∈ qs.head?, ¬ same p q) ∨
        ∃ q, dropRepeated ps = q :: qs ∧ same p q) := by
  rw [dropRepeated]
  cases dropRepeated ps with
  | nil => exact ⟨[], rfl, .inl ⟨rfl, nofun⟩⟩
  | cons q qs =>
    by_cases hsame : same p q
    · exact ⟨qs, if_pos hsame, .inr ⟨q, rfl, hsame⟩⟩
    · exact ⟨q :: qs, if_neg hsame, .inl ⟨rfl, by simpa using hsame⟩⟩

theorem dropRepeated_sublist (ps : List String) : (dropRepeated ps).Sublist ps := by
  induction ps with
  | nil => exact .slnil
  | cons p ps ih =>
    obtain ⟨qs, hps, ⟨hqs, -⟩ | ⟨q, hqs, -⟩⟩ := dropRepeated_cons p ps
    · rw [hps, ← hqs]
      exact ih.cons_cons p
    · rw [hps]
      exact ((List.sublist_cons_self q qs).trans (hqs ▸ ih)).cons_cons p

/-- Each path leaves one with its parts. -/
theorem exists_mem_dropRepeated {p : String} {ps : List String} (hp : p ∈ ps) :
    ∃ q ∈ dropRepeated ps, parts q = parts p := by
  induction ps with
  | nil => exact absurd hp List.not_mem_nil
  | cons first ps ih =>
    obtain ⟨qs, hps, hqs⟩ := dropRepeated_cons first ps
    rw [hps]
    rcases List.mem_cons.1 hp with rfl | hp
    · exact ⟨p, List.mem_cons_self, rfl⟩
    · obtain ⟨r, hr, hparts⟩ := ih hp
      obtain ⟨hqs, -⟩ | ⟨q, hqs, hsame⟩ := hqs
      · exact ⟨r, List.mem_cons_of_mem _ (hqs ▸ hr), hparts⟩
      · rcases List.mem_cons.1 (hqs ▸ hr) with rfl | hr
        · exact ⟨first, List.mem_cons_self, (same_iff_parts_eq.1 hsame).trans hparts⟩
        · exact ⟨r, List.mem_cons_of_mem _ hr, hparts⟩

/-- What is left of an ordered list is ordered, and no two of its paths have the same parts. -/
theorem pairwise_dropRepeated {ps : List String} (h : ps.Pairwise (precedes · ·)) :
    (dropRepeated ps).Pairwise Before := by
  induction ps with
  | nil => exact .nil
  | cons p ps ih =>
    obtain ⟨hp, hordered⟩ := List.pairwise_cons.1 h
    specialize ih hordered
    obtain ⟨qs, hps, ⟨hqs, hnew⟩ | ⟨q, hqs, hsame⟩⟩ := dropRepeated_cons p ps
    · rw [hps, List.pairwise_cons]
      refine ⟨fun r hr => ?_, hqs ▸ ih⟩
      cases qs with
      | nil => exact absurd hr List.not_mem_nil
      | cons q qs =>
        have hq : q ∈ ps := (dropRepeated_sublist ps).mem (hqs ▸ List.mem_cons_self)
        have hpq : Before p q := before_of_precedes (hp q hq) (hnew q rfl)
        rcases List.mem_cons.1 hr with rfl | hr
        · exact hpq
        · exact hpq.trans ((List.pairwise_cons.1 (hqs ▸ ih)).1 r hr)
    · rw [hqs] at ih
      obtain ⟨hq, hrest⟩ := List.pairwise_cons.1 ih
      rw [hps, List.pairwise_cons]
      refine ⟨fun r hr => ?_, hrest⟩
      rw [Before, same_iff_parts_eq.1 hsame]
      exact hq r hr

end LexicalPatterns
