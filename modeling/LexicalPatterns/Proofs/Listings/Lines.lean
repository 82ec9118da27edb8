import LexicalPatterns.Report.Listing
import Mathlib.Algebra.GroupWithZero.Nat
import Mathlib.Data.List.Basic
import Mathlib.Data.String.Basic

/-!
# Lines of listings

A listing is written with a line feed after each entry. It is made of its entries line by line only
where none of them has a line feed of its own; the line feeds of the text tell how many there are.
-/

namespace LexicalPatterns

variable {text : String} {lines : List String} {c : Char} {n : Nat}

theorem toList_unlines (lines : List String) :
    (unlines lines).toList = lines.flatMap fun l => l.toList ++ ['\n'] := by
  simp [unlines, String.toList_join, List.flatMap_def, Function.comp_def]

theorem count_unlines (lines : List String) :
    (unlines lines).toList.count '\n' =
      lines.length + (lines.map fun l => l.toList.count '\n').sum := by
  rw [toList_unlines]
  induction lines with
  | nil => rfl
  | cons l ls ih =>
    simp only [List.flatMap_cons, List.count_append, ih, List.length_cons, List.map_cons,
      List.sum_cons, List.count_singleton_self]
    omega

/-- Whether a text is made of lines: there is a line feed after each of them and none in it. -/
structure IsLines (text : String) (lines : List String) : Prop where
  eq_unlines : text = unlines lines
  single : ∀ l ∈ lines, '\n' ∉ l.toList

theorem IsLines.count_eq (h : IsLines text lines) : text.toList.count '\n' = lines.length := by
  have hnone : lines.map (fun l => l.toList.count '\n') = lines.map fun _ => 0 :=
    List.map_congr_left fun l hl => List.count_eq_zero.2 (h.single l hl)
  rw [h.eq_unlines, count_unlines, hnone]
  simp

theorem toList_pushn (c : Char) (n : Nat) : ("".pushn c n).toList = List.replicate n c := by
  induction n with
  | zero => rfl
  | succ n ih =>
    rw [String.pushn_eq_repeat_push] at ih ⊢
    rw [Nat.repeat, String.toList_push, ih, List.replicate_succ']

theorem toList_padLeft (width : Nat) (s : String) :
    (padLeft width s).toList = List.replicate (width - s.length) ' ' ++ s.toList := by
  rw [padLeft, String.toList_append, toList_pushn]

theorem toList_padRight (width : Nat) (s : String) :
    (padRight width s).toList = s.toList ++ List.replicate (width - s.length) ' ' := by
  rw [padRight, String.toList_append, toList_pushn]

theorem isDigit_of_mem_toString (h : c ∈ (toString n).toList) : c.isDigit = true := by
  rw [Nat.toString_eq_repr, Nat.toList_repr] at h
  exact Nat.isDigit_of_mem_toDigits (by decide) (by decide) h

end LexicalPatterns
