import Mathlib.Data.List.Basic
import LexicalPatterns.NameTable
import LexicalPatterns.Proofs.Lists

/-!
# Filling buckets

Counting the entries of each bucket tells where the buckets start. Entries that are put one after
the other into the next slot of their bucket fill all slots, and stand there as if they were sorted
by their buckets.
-/

namespace LexicalPatterns

section Keys

variable {α : Type} {key : α → Nat} {xs : List α}

/-- In a list that is sorted by a key, the elements with smaller keys come first. -/
theorem filter_lt_append_filter_le (h : xs.Pairwise fun a b => key a ≤ key b) (i : Nat) :
    (xs.filter fun a => key a < i) ++ (xs.filter fun a => i ≤ key a) = xs := by
  induction h with
  | nil => rfl
  | @cons a xs ha _ ih =>
    by_cases hlt : key a < i
    · rw [List.filter_cons_of_pos (by simpa using hlt),
        List.filter_cons_of_neg (by simpa using hlt), List.cons_append, ih]
    · have hnone : (xs.filter fun b => key b < i) = [] := by
        rw [List.filter_eq_nil_iff]
        intro b hb
        have := ha b hb
        simp only [decide_eq_true_eq]
        omega
      rw [hnone, List.nil_append] at ih
      rw [List.filter_cons_of_neg (by simpa using hlt),
        List.filter_cons_of_pos (by simpa using hlt), hnone, ih, List.nil_append]

theorem drop_countP_lt (h : xs.Pairwise fun a b => key a ≤ key b) (i : Nat) :
    xs.drop (xs.countP fun a => key a < i) = xs.filter fun a => i ≤ key a := by
  conv_lhs => rw [← filter_lt_append_filter_le h i]
  exact List.drop_left' (by rw [filter_lt_append_filter_le h i, List.countP_eq_length_filter])

theorem take_countP_lt (h : xs.Pairwise fun a b => key a ≤ key b) (i : Nat) :
    xs.take (xs.countP fun a => key a < i) = xs.filter fun a => key a < i := by
  conv_lhs => rw [← filter_lt_append_filter_le h i]
  exact List.take_left' (by rw [filter_lt_append_filter_le h i, List.countP_eq_length_filter])

/-- The elements of one key stand between those with smaller and those with larger keys. -/
theorem drop_take_countP_lt (h : xs.Pairwise fun a b => key a ≤ key b) (i : Nat) :
    (xs.take (xs.countP fun a => key a < i + 1)).drop (xs.countP fun a => key a < i) =
      xs.filter fun a => key a = i := by
  have hcount : (xs.countP fun a => key a < i) =
      (xs.filter fun a => key a < i + 1).countP fun a => key a < i := by
    rw [List.countP_filter]
    apply List.countP_congr
    intro a _
    simp only [Bool.and_eq_true, decide_eq_true_eq]
    omega
  rw [take_countP_lt h, hcount, drop_countP_lt (h.filter _), List.filter_filter]
  apply List.filter_congr
  intro a _
  simp only [← Bool.decide_and, decide_eq_decide]
  omega

theorem insertIdx_countP_lt (h : xs.Pairwise fun a b => key a ≤ key b) (i : Nat) (a : α) :
    xs.insertIdx (xs.countP fun b => key b < i) a =
      (xs.filter fun b => key b < i) ++ a :: xs.filter fun b => i ≤ key b := by
  have hinsert := insertIdx_length_append (xs.filter fun b => key b < i)
    (xs.filter fun b => i ≤ key b) a
  rwa [filter_lt_append_filter_le h i, ← List.countP_eq_length_filter] at hinsert

theorem pairwise_mergeSort_key (key : α → Nat) (xs : List α) :
    (xs.mergeSort fun a b => key a ≤ key b).Pairwise fun a b => key a ≤ key b := by
  simpa using @List.pairwise_mergeSort _ (fun a b => key a ≤ key b)
    (fun a b c hab hbc => by simp only [decide_eq_true_eq] at *; omega)
    (fun a b => by simp only [Bool.or_eq_true, decide_eq_true_eq]; omega) xs

theorem flatMap_filter_key (h : xs.Pairwise fun a b => key a ≤ key b) (n : Nat) :
    ((List.range n).flatMap fun i => xs.filter fun a => key a = i) =
      xs.filter fun a => key a < n := by
  induction n with
  | zero => simp
  | succ n ih =>
    have hsplit := filter_lt_append_filter_le (h.filter fun a => key a < n + 1) n
    rw [List.filter_filter, List.filter_filter] at hsplit
    rw [List.range_succ, List.flatMap_append, ih, List.flatMap_singleton, ← hsplit]
    congr 1
    · refine List.filter_congr fun a _ => ?_
      rw [← Bool.decide_and, decide_eq_decide]
      omega
    · refine List.filter_congr fun a _ => ?_
      rw [← Bool.decide_and, decide_eq_decide]
      omega

/-- Sorting by a key does not reorder the elements of one key. -/
theorem filter_mergeSort_key (key : α → Nat) (xs : List α) (i : Nat) :
    ((xs.mergeSort fun a b => key a ≤ key b).filter fun a => key a = i) =
      xs.filter fun a => key a = i := by
  have hpairwise : (xs.filter fun a => key a = i).Pairwise fun a b =>
      decide (key a ≤ key b) = true := by
    rw [List.pairwise_filter]
    refine List.pairwise_of_forall fun a b ha hb => ?_
    simp only [decide_eq_true_eq] at ha hb ⊢
    omega
  have hsublist : (xs.filter fun a => key a = i).Sublist (xs.mergeSort fun a b => key a ≤ key b) :=
    List.sublist_mergeSort
      (fun a b c hab hbc => by simp only [decide_eq_true_eq] at *; omega)
      (fun a b => by simp only [Bool.or_eq_true, decide_eq_true_eq]; omega)
      hpairwise List.filter_sublist
  have hfilter := hsublist.filter fun a => key a = i
  rw [List.filter_filter] at hfilter
  simp only [Bool.and_self] at hfilter
  refine (hfilter.eq_of_length ?_).symm
  exact ((List.mergeSort_perm xs _).filter _).length_eq.symm

theorem mergeSort_eq_flatMap (key : α → Nat) (xs : List α) {n : Nat} (h : ∀ a ∈ xs, key a < n) :
    (xs.mergeSort fun a b => key a ≤ key b) =
      (List.range n).flatMap fun i => xs.filter fun a => key a = i := by
  have hcollect := flatMap_filter_key (pairwise_mergeSort_key key xs) n
  simp only [filter_mergeSort_key] at hcollect
  rw [hcollect, eq_comm, List.filter_eq_self]
  exact fun a ha => decide_eq_true (h a (List.mem_mergeSort.1 ha))

end Keys

namespace NameTable

theorem bucketAmong_lt {buckets : Nat} (h : 0 < buckets) (name : String) :
    bucketAmong buckets name < buckets := Nat.mod_lt _ h

/-! ### Starts of buckets -/

theorem getElem?_foldl_modify (chosen : List Nat) (counts : Array Nat) (i : Nat) :
    (chosen.foldl (fun counts b => counts.modify b (· + 1)) counts)[i]? =
      counts[i]?.map (· + chosen.count i) := by
  induction chosen generalizing counts with
  | nil => simp
  | cons b chosen ih =>
    rw [List.foldl_cons, ih, Array.getElem?_modify, List.count_cons]
    by_cases hb : b = i
    · simp [hb, Function.comp_def, Nat.add_assoc, Nat.add_comm 1]
    · simp [hb]

theorem toList_foldl_starts (counts : List Nat) (starts : Array Nat) (total : Nat) :
    (counts.foldl (fun (starts, total) count => (starts.push total, total + count))
        (starts, total)).1.toList =
      starts.toList ++ (List.range counts.length).map fun i =>
        (counts.take i).foldl (· + ·) total := by
  induction counts generalizing starts total with
  | nil => simp
  | cons count counts ih =>
    rw [List.foldl_cons, ih, List.length_cons, List.range_succ_eq_map]
    simp [Function.comp_def]

theorem countP_lt_succ (xs : List Nat) (i : Nat) :
    (xs.countP fun x => x < i + 1) = (xs.countP fun x => x < i) + xs.count i := by
  induction xs with
  | nil => rfl
  | cons x xs ih =>
    simp only [List.countP_cons, List.count_cons, ih, decide_eq_true_eq, beq_iff_eq]
    split <;> split <;> split <;> omega

theorem foldl_take_counts (chosen : List Nat) (buckets i : Nat) (hi : i ≤ buckets) :
    (((List.range buckets).map chosen.count).take i).foldl (· + ·) 0 =
      chosen.countP fun b => b < i := by
  induction i with
  | zero => simp
  | succ i ih =>
    rw [List.take_add_one, List.foldl_append, ih (Nat.le_of_succ_le hi), countP_lt_succ]
    simp [Nat.lt_of_succ_le hi]

/-- The start of a bucket is the number of names that fall into the buckets before it. -/
theorem toList_bucketStarts (buckets : Nat) (chosen : List Nat) :
    (bucketStarts buckets chosen).toList =
      (List.range buckets).map fun i => chosen.countP fun b => b < i := by
  have hcounts : (chosen.foldl (fun counts b => counts.modify b (· + 1))
      (Array.replicate buckets 0)).toList = (List.range buckets).map chosen.count := by
    apply List.ext_getElem?
    intro k
    rw [Array.getElem?_toList, getElem?_foldl_modify, Array.getElem?_replicate, List.getElem?_map]
    by_cases hk : k < buckets
    · simp [hk]
    · simp [hk]
  rw [bucketStarts, ← Array.foldl_toList, hcounts, toList_foldl_starts, List.length_map,
    List.length_range, List.nil_append]
  apply List.map_congr_left
  intro i hi
  rw [foldl_take_counts chosen buckets i (Nat.le_of_lt (List.mem_range.1 hi))]

theorem bucketCount_rebuild (t : NameTable) (buckets : Nat) :
    (t.rebuild buckets).bucketCount = buckets := by
  rw [bucketCount, rebuild, ← Array.length_toList, toList_bucketStarts, List.length_map,
    List.length_range]

/-! ### Filling slots -/

/-- The slots of a bucket when the entries of `done` are put and those of `rest` are not. -/
def row (done rest : List (Nat × Entry)) (bucket : Nat) : List (Option Entry) :=
  (done.filter (·.1 = bucket)).map (fun p => some p.2) ++
    List.replicate (rest.countP (·.1 = bucket)) none

def rows (done rest : List (Nat × Entry)) (bound : Nat) : List (Option Entry) :=
  (List.range bound).flatMap (row done rest)

theorem length_row (done rest : List (Nat × Entry)) (bucket : Nat) :
    (row done rest bucket).length = ((done ++ rest).map (·.1)).count bucket := by
  rw [row, List.length_append, List.length_map, List.length_replicate,
    ← List.countP_eq_length_filter, ← List.countP_append, List.count, List.countP_map]
  rfl

theorem length_rows (done rest : List (Nat × Entry)) (bound : Nat) :
    (rows done rest bound).length = ((done ++ rest).map (·.1)).countP (· < bound) := by
  induction bound with
  | zero => simp [rows]
  | succ bound ih =>
    rw [rows, List.range_succ, List.flatMap_append, List.length_append, ← rows, ih,
      List.flatMap_singleton, length_row, countP_lt_succ]

theorem rows_eq_append (done rest : List (Nat × Entry)) {bucket bound : Nat}
    (h : bucket < bound) :
    rows done rest bound = rows done rest bucket ++ (row done rest bucket ++
      (List.range' (bucket + 1) (bound - (bucket + 1))).flatMap (row done rest)) := by
  have hrange : List.range bound =
      List.range bucket ++ bucket :: List.range' (bucket + 1) (bound - (bucket + 1)) := by
    obtain ⟨n, rfl⟩ := Nat.exists_eq_add_of_lt h
    rw [Nat.add_right_comm, Nat.add_sub_cancel_left, ← List.range'_succ, List.range_eq_range',
      List.range_eq_range', Nat.add_right_comm, Nat.add_assoc bucket]
    simpa using (@List.range'_append_1 0 bucket (n + 1)).symm
  rw [rows, hrange, List.flatMap_append, List.flatMap_cons, rows]

/-- Putting an entry fills the first empty slot of its bucket. -/
theorem set_rows (done rest : List (Nat × Entry)) (p : Nat × Entry) {bound : Nat}
    (hp : p.1 < bound) :
    (rows done (p :: rest) bound).set
        ((rows done (p :: rest) p.1).length + done.countP (·.1 = p.1)) (some p.2) =
      rows (done ++ [p]) rest bound := by
  have hother : ∀ i, i ≠ p.1 → row done (p :: rest) i = row (done ++ [p]) rest i := by
    intro i hi
    simp [row, Ne.symm hi]
  have hbefore : rows done (p :: rest) p.1 = rows (done ++ [p]) rest p.1 :=
    List.flatMap_congr fun i hi => hother i (Nat.ne_of_lt (List.mem_range.1 hi))
  have hbehind : ∀ n, (List.range' (p.1 + 1) n).flatMap (row done (p :: rest)) =
      (List.range' (p.1 + 1) n).flatMap (row (done ++ [p]) rest) := fun n =>
    List.flatMap_congr fun i hi => hother i (Nat.ne_of_gt (List.mem_range'_1.1 hi).1)
  rw [rows_eq_append _ _ hp, rows_eq_append _ _ hp, ← hbefore, hbehind,
    List.set_append_right _ _ (Nat.le_add_right _ _), Nat.add_sub_cancel_left, row, row]
  simp [List.countP_eq_length_filter, List.set_append_right, List.replicate_succ]

theorem toList_foldl_put {bound : Nat} (done rest : List (Nat × Entry)) (f : Filling)
    (hrest : ∀ p ∈ rest, p.1 < bound) (hslots : f.slots.toList = rows done rest bound)
    (hcursor : ∀ i < bound, f.cursor[i]? =
      some ((rows done rest i).length + done.countP (·.1 = i))) :
    (rest.foldl Filling.put f).slots.toList = rows (done ++ rest) [] bound := by
  induction rest generalizing done f with
  | nil => simpa using hslots
  | cons p rest ih =>
    obtain ⟨hp, hrest⟩ := List.forall_mem_cons.1 hrest
    have hgoal := ih (done ++ [p]) (f.put p) hrest ?_ ?_
    · simpa using hgoal
    · rw [Filling.put, Array.getD_eq_getD_getElem?, hcursor _ hp, Option.getD_some,
        Array.toList_setIfInBounds, hslots, set_rows _ _ _ hp]
    · intro i hi
      rw [Filling.put, Array.getElem?_modify, hcursor i hi, length_rows, length_rows,
        List.append_assoc, List.singleton_append, List.countP_append]
      by_cases h : p.1 = i
      · simp [h, Nat.add_assoc]
      · simp [h]

theorem rows_nil (rest : List (Nat × Entry)) {bound : Nat} (hrest : ∀ p ∈ rest, p.1 < bound) :
    rows [] rest bound = List.replicate rest.length none := by
  rw [List.eq_replicate_iff, length_rows, List.nil_append, List.countP_map, List.countP_eq_length]
  refine ⟨fun p hp => decide_eq_true (hrest p hp), fun slot hslot => ?_⟩
  obtain ⟨i, -, hslot⟩ := List.mem_flatMap.1 hslot
  exact List.eq_of_mem_replicate hslot

theorem filterMap_rows (done : List (Nat × Entry)) (bound : Nat) :
    (rows done [] bound).filterMap id =
      (List.range bound).flatMap fun i => (done.filter (·.1 = i)).map (·.2) := by
  simp [rows, row, List.filterMap_flatMap, List.filterMap_map]

/-- Rebuilding sorts the entries by their new buckets. -/
theorem toList_rebuild (t : NameTable) {buckets : Nat} (hb : 0 < buckets) :
    (t.rebuild buckets).entries.toList = t.entries.toList.mergeSort fun a b =>
      bucketAmong buckets a.name ≤ bucketAmong buckets b.name := by
  have hplaced : ∀ p ∈ t.entries.toList.map fun e => (bucketAmong buckets e.name, e),
      p.1 < buckets := by
    intro p hp
    obtain ⟨e, -, rfl⟩ := List.mem_map.1 hp
    exact bucketAmong_lt hb e.name
  rw [NameTable.rebuild, Array.toList_filterMap,
    toList_foldl_put [] _ _ hplaced ?slots ?cursor, List.nil_append, filterMap_rows,
    mergeSort_eq_flatMap (fun e : Entry => bucketAmong buckets e.name) _
      fun e _ => bucketAmong_lt hb e.name]
  case slots =>
    rw [rows_nil _ hplaced, List.length_map, Array.toList_replicate, size, Array.length_toList]
  case cursor =>
    intro i hi
    rw [length_rows, ← Array.getElem?_toList, toList_bucketStarts, List.getElem?_map,
      List.getElem?_range hi]
    rfl
  refine List.flatMap_congr fun i _ => ?_
  rw [List.filter_map, List.map_map]
  exact List.map_id _

theorem perm_rebuild (t : NameTable) {buckets : Nat} (hb : 0 < buckets) :
    (t.rebuild buckets).entries.toList.Perm t.entries.toList := by
  rw [toList_rebuild t hb]
  exact List.mergeSort_perm _ _

end NameTable
end LexicalPatterns
