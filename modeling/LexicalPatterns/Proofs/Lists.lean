import Mathlib.Data.List.Basic

/-!
# Changes at a position of a list

Where a list is put together from two, a change at a position of the first leaves the second as it
is, and what stands at the length of the first is the head of the second.
-/

namespace LexicalPatterns

variable {α : Type}

theorem insertIdx_length_append (xs ys : List α) (a : α) :
    (xs ++ ys).insertIdx xs.length a = xs ++ a :: ys :=
  List.modifyTailIdx_add (List.cons a) 0 xs ys

theorem modify_append_of_lt {xs : List α} {i : Nat} (f : α → α) (h : i < xs.length)
    (ys : List α) : (xs ++ ys).modify i f = xs.modify i f ++ ys := by
  rw [List.modify_eq_take_cons_drop (by rw [List.length_append]; omega),
    List.modify_eq_take_cons_drop h, List.take_append_of_le_length (Nat.le_of_lt h),
    List.drop_append_of_le_length h, List.getElem_append_left h, List.append_assoc,
    List.cons_append]

theorem modify_length_append (xs ys : List α) (a : α) (f : α → α) :
    (xs ++ a :: ys).modify xs.length f = xs ++ f a :: ys := by
  rw [List.modify_eq_take_cons_drop (by simp)]
  simp

end LexicalPatterns
