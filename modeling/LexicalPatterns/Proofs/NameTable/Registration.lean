import Mathlib.Data.List.Induction
import LexicalPatterns.Proofs.NameTable.Lookup

/-!
# Registration in name tables

A table that is asked for any registrations, one after the other, keeps the first one of each name
and refuses the others. Each bucket holds its entries in the order in which they were registered:
an insertion puts a new entry last, and growing splits a bucket into two without reordering.
-/

namespace LexicalPatterns

namespace NameTable

/-- The registrations that are the first of their name, in order. -/
def firsts : List Entry → List Entry
  | [] => []
  | e :: es => e :: (firsts es).filter fun f => f.name ≠ e.name

/-- The table after it was asked for a registration, which changes nothing when it is refused. -/
def attempt (t : NameTable) (e : Entry) : NameTable :=
  match t.register e.name e.start with
  | .ok t' => t'
  | .error _ => t

def after (es : List Entry) : NameTable := es.foldl attempt empty

theorem after_append_singleton (es : List Entry) (e : Entry) :
    after (es ++ [e]) = (after es).attempt e := by
  rw [after, List.foldl_append]
  rfl

theorem find?_firsts (es : List Entry) (name : String) :
    (firsts es).find? (·.name == name) = es.find? (·.name == name) := by
  induction es with
  | nil => rfl
  | cons e es ih =>
    rw [firsts]
    by_cases hname : e.name = name
    · simp [hname]
    · rw [List.find?_cons_of_neg (by simpa using hname),
        List.find?_cons_of_neg (by simpa using hname), ← ih, List.find?_filter]
      congr 1
      funext f
      by_cases hf : f.name = name
      · simp [hf, Ne.symm hname]
      · simp [hf]

theorem firsts_append_singleton (es : List Entry) (e : Entry) :
    firsts (es ++ [e]) =
      if (es.find? (·.name == e.name)).isSome then firsts es else firsts es ++ [e] := by
  induction es with
  | nil => rfl
  | cons f es ih =>
    rw [List.cons_append, firsts, ih, firsts]
    by_cases hname : f.name = e.name
    · split <;> simp [hname]
    · rw [List.find?_cons_of_neg (by simpa using hname)]
      split
      · rfl
      · simp [Ne.symm hname]

/-- Whether a table keeps the registrations `es`, in order. -/
structure Records (t : NameTable) (es : List Entry) : Prop where
  ordered : t.Ordered
  perm : t.entries.toList.Perm es
  bucket : ∀ i, (t.entries.toList.filter fun e => t.bucketOf e = i) =
    es.filter fun e => t.bucketOf e = i
  size_le : t.size ≤ 2 * t.bucketCount

variable {t : NameTable} {es : List Entry}

theorem records_empty : empty.Records [] where
  ordered := ordered_empty
  perm := .refl _
  bucket := fun _ => rfl
  size_le := by decide

theorem Ordered.filter_insert (h : t.Ordered) (e : Entry) (i : Nat) :
    ((t.insert e).entries.toList.filter fun f => t.bucketOf f = i) =
      (t.entries.toList ++ [e]).filter fun f => t.bucketOf f = i := by
  have hsplit := filter_lt_append_filter_le h.sorted (t.bucketOf e + 1)
  rw [h.toList_insert, List.filter_append, List.filter_cons, List.filter_append,
    List.filter_singleton]
  conv_rhs => rw [← hsplit, List.filter_append]
  by_cases hi : t.bucketOf e = i
  · have hnone : ((t.entries.toList.filter fun f => t.bucketOf e + 1 ≤ t.bucketOf f).filter
        fun f => t.bucketOf f = i) = [] := by
      rw [List.filter_filter, List.filter_eq_nil_iff]
      intro f _
      simp only [← Bool.decide_and, decide_eq_true_eq]
      omega
    rw [hnone, hi]
    simp
  · simp [hi]

/-- An entry that falls into a bucket of twice as many comes from one bucket of the former ones. -/
theorem bucketAmong_of_double {buckets i : Nat} {name : String}
    (h : bucketAmong (buckets * 2) name = i) : bucketAmong buckets name = i % buckets := by
  rw [← h, bucketAmong, bucketAmong, Nat.mod_mul_right_mod]

/-- Growing keeps the order in each bucket. -/
theorem Records.grow (hordered : t.Ordered) (hperm : t.entries.toList.Perm es)
    (hbucket : ∀ i, (t.entries.toList.filter fun e => t.bucketOf e = i) =
      es.filter fun e => t.bucketOf e = i)
    (hsize : t.size ≤ 2 * t.bucketCount + 1) : t.grow.Records es := by
  have hdoubled : 0 < t.bucketCount * 2 := Nat.mul_pos hordered.buckets (by decide)
  refine ⟨hordered.grow, hordered.perm_grow.trans hperm, ?_, ?_⟩
  · unfold NameTable.grow
    split
    · intro i
      have hdouble : ∀ xs : List Entry,
          (xs.filter fun e => bucketAmong (t.bucketCount * 2) e.name = i) =
            (xs.filter fun e => t.bucketOf e = i % t.bucketCount).filter fun e =>
              bucketAmong (t.bucketCount * 2) e.name = i := by
        intro xs
        rw [List.filter_filter]
        refine List.filter_congr fun e _ => ?_
        rw [← Bool.decide_and, decide_eq_decide]
        exact ⟨fun h => ⟨h, bucketAmong_of_double h⟩, And.left⟩
      simp only [bucketOf, bucketCount_rebuild]
      rw [toList_rebuild _ hdoubled, filter_mergeSort_key (fun e : Entry =>
        bucketAmong (t.bucketCount * 2) e.name), hdouble t.entries.toList, hdouble es, hbucket]
    · exact hbucket
  · unfold NameTable.grow
    split
    · have hpos := hordered.buckets
      have hlength : (t.rebuild (t.bucketCount * 2)).size = t.size := by
        rw [size, size, ← Array.length_toList, ← Array.length_toList,
          (t.perm_rebuild hdoubled).length_eq]
      rw [bucketCount_rebuild, hlength]
      omega
    · omega

theorem register_eq_ok_iff {name : String} {start : Nat} {t' : NameTable} :
    t.register name start = .ok t' ↔
      t.find? name = none ∧ (t.insert ⟨name, start⟩).grow = t' := by
  unfold register
  cases t.find? name <;> simp

theorem register_eq_error_iff {name : String} {start : Nat} {e : Entry} :
    t.register name start = .error e ↔ t.find? name = some e := by
  unfold register
  cases t.find? name <;> simp

theorem Records.register (h : t.Records es) {name : String} {start : Nat} {t' : NameTable}
    (hreg : t.register name start = .ok t') : t'.Records (es ++ [⟨name, start⟩]) := by
  obtain ⟨hnone, rfl⟩ := register_eq_ok_iff.1 hreg
  have hnew : ∀ f ∈ t.entries.toList, f.name ≠ name := by
    intro f hf hname
    rw [h.ordered.find?_eq_some_iff.2 ⟨hf, hname⟩] at hnone
    cases hnone
  have hperm := h.ordered.perm_insert ⟨name, start⟩
  have hbucketOf : (t.insert ⟨name, start⟩).bucketOf = t.bucketOf := by
    funext e
    rw [bucketOf, bucketOf, bucketCount_insert]
  apply Records.grow (h.ordered.insert hnew)
  · exact hperm.trans ((h.perm.cons _).trans (List.perm_append_singleton _ _).symm)
  · intro i
    rw [hbucketOf, h.ordered.filter_insert, List.filter_append, List.filter_append, h.bucket]
  · have hlength := hperm.length_eq
    have hsize := h.size_le
    rw [Array.length_toList, List.length_cons, Array.length_toList] at hlength
    rw [bucketCount_insert]
    unfold size at hsize ⊢
    omega

theorem Records.find?_eq (h : t.Records es) (name : String) :
    t.find? name = es.find? (·.name == name) := by
  have hnodup : (es.map (·.name)).Nodup := (h.perm.map _).nodup_iff.1 h.ordered.nodup
  cases hfind : es.find? (·.name == name) with
  | none =>
    rw [Option.eq_none_iff_forall_ne_some]
    intro e he
    obtain ⟨hmem, hname⟩ := h.ordered.find?_eq_some_iff.1 he
    exact List.find?_eq_none.1 hfind e (h.perm.mem_iff.1 hmem) (by simpa using hname)
  | some e =>
    rw [h.ordered.find?_eq_some_iff]
    exact ⟨h.perm.mem_iff.2 (List.mem_of_find?_eq_some hfind),
      by simpa using List.find?_some hfind⟩

theorem records_after (es : List Entry) : (after es).Records (firsts es) := by
  induction es using List.reverseRecOn with
  | nil => exact records_empty
  | append_singleton es e ih =>
    have hfind := ih.find?_eq e.name
    rw [find?_firsts] at hfind
    rw [after_append_singleton, firsts_append_singleton, ← hfind]
    unfold attempt
    cases hreg : (after es).register e.name e.start with
    | error f =>
      rw [register_eq_error_iff.1 hreg]
      exact ih
    | ok t' =>
      rw [(register_eq_ok_iff.1 hreg).1]
      exact ih.register hreg

/-- Whether a table that was asked for the registrations `es` is the map of their first entries:
what it answers, and how its entries stand in its buckets. -/
structure Registered (t : NameTable) (es : List Entry) : Prop where
  refused_iff : ∀ name start e, t.register name start = .error e ↔
    es.find? (·.name == name) = some e
  unchanged : ∀ e, (es.find? (·.name == e.name)).isSome → t.attempt e = t
  lookup : ∀ name, t.lookup name = (es.find? (·.name == name)).map (·.start)
  starts_zero : t.starts[0]? = some 0
  starts_sorted : t.starts.toList.Pairwise (· ≤ ·)
  starts_le : ∀ start ∈ t.starts, start ≤ t.size
  mem_bucket_iff : ∀ i < t.bucketCount, ∀ e,
    e ∈ t.bucket i ↔ e ∈ t.entries ∧ bucketAmong t.bucketCount e.name = i
  nodup : (t.entries.toList.map (·.name)).Nodup
  size_eq : t.size = (firsts es).length
  size_le : t.size ≤ 2 * t.bucketCount
  bucket : ∀ i < t.bucketCount, (t.bucket i).toList =
    (firsts es).filter fun e => bucketAmong t.bucketCount e.name = i

theorem Ordered.toList_starts (h : t.Ordered) :
    t.starts.toList = (List.range t.bucketCount).map fun i =>
      t.entries.toList.countP fun e => t.bucketOf e < i := by
  apply List.ext_getElem?
  intro i
  rw [Array.getElem?_toList, List.getElem?_map]
  rcases Nat.lt_or_ge i t.bucketCount with hi | hi
  · rw [h.starts i hi, List.getElem?_range hi, Option.map_some]
  · rw [Array.getElem?_eq_none hi, List.getElem?_eq_none (by simpa using hi), Option.map_none]

theorem Ordered.starts_sorted (h : t.Ordered) : t.starts.toList.Pairwise (· ≤ ·) := by
  rw [h.toList_starts, List.pairwise_map]
  refine List.pairwise_lt_range.imp fun {i j} hlt => List.countP_mono_left fun e _ he => ?_
  simp only [decide_eq_true_eq] at he ⊢
  omega

theorem Ordered.starts_le (h : t.Ordered) {start : Nat} (hstart : start ∈ t.starts) :
    start ≤ t.size := by
  rw [← Array.mem_toList_iff, h.toList_starts] at hstart
  obtain ⟨i, -, rfl⟩ := List.mem_map.1 hstart
  exact List.countP_le_length

/-- Whatever registrations a table is asked for, it is the map of the first of each name. -/
theorem registered_after (es : List Entry) : (after es).Registered es := by
  have h := records_after es
  have hfind : ∀ name, (after es).find? name = es.find? (·.name == name) := by
    intro name
    rw [h.find?_eq, find?_firsts]
  refine ⟨?refused_iff, ?unchanged, ?lookup, ?starts_zero, h.ordered.starts_sorted,
    fun _ => h.ordered.starts_le, ?mem_bucket_iff, h.ordered.nodup, ?size_eq, h.size_le, ?bucket⟩
  case refused_iff =>
    intro name start e
    rw [register_eq_error_iff, hfind]
  case unchanged =>
    intro e he
    obtain ⟨f, hf⟩ := Option.isSome_iff_exists.1 he
    unfold attempt
    rw [register_eq_error_iff.2 ((hfind e.name).trans hf)]
  case lookup =>
    intro name
    rw [NameTable.lookup, hfind]
  case starts_zero => rw [h.ordered.starts 0 h.ordered.buckets]; simp
  case mem_bucket_iff =>
    intro i hi e
    rw [← Array.mem_toList_iff, h.ordered.bucket_eq hi, List.mem_filter, decide_eq_true_iff,
      Array.mem_toList_iff, bucketOf]
  case size_eq => exact h.perm.length_eq
  case bucket =>
    intro i hi
    rw [h.ordered.bucket_eq hi, h.bucket]
    rfl

/-- The names from `t` down to `d` make the table grow, and `t` and `d` still share a bucket. -/
example :
    let t := after ((List.range 17).map fun i => ⟨String.singleton (Char.ofNat (116 - i)), i⟩)
    t.bucketCount = 16 ∧ (t.bucket 4).toList.map (·.name) = ["t", "d"] := by
  cbv

end NameTable
end LexicalPatterns
