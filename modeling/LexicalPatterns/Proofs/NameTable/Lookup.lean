import Mathlib.Data.List.Perm.Basic
import Mathlib.Data.List.Nodup
import LexicalPatterns.Proofs.NameTable.Buckets

/-!
# Lookup in name tables

A table that is ordered by buckets finds a name exactly when it has an entry for it. Registering a
name keeps the order, also when the table grows, and adds the one entry. Where the entries start at
different indices, the names are listed in the order of these.
-/

namespace LexicalPatterns.NameTable

def bucketOf (t : NameTable) (e : Entry) : Nat := bucketAmong t.bucketCount e.name

/-- Whether the entries stand bucket after bucket, with each name once, and the starts of the
buckets are known. -/
structure Ordered (t : NameTable) : Prop where
  buckets : 0 < t.bucketCount
  sorted : t.entries.toList.Pairwise fun a b => t.bucketOf a ≤ t.bucketOf b
  starts : ∀ i < t.bucketCount,
    t.starts[i]? = some (t.entries.toList.countP fun e => t.bucketOf e < i)
  nodup : (t.entries.toList.map (·.name)).Nodup

variable {t : NameTable}

theorem Ordered.bucketStart_eq (h : t.Ordered) {i : Nat} (hi : i ≤ t.bucketCount) :
    t.bucketStart i = t.entries.toList.countP fun e => t.bucketOf e < i := by
  unfold bucketStart
  rcases Nat.lt_or_eq_of_le hi with hlt | rfl
  · rw [h.starts i hlt, Option.getD_some]
  · have hall : (t.entries.toList.countP fun e => t.bucketOf e < t.bucketCount) =
        t.entries.toList.length := by
      rw [List.countP_eq_length]
      intro e _
      exact decide_eq_true (bucketAmong_lt h.buckets e.name)
    rw [hall, bucketCount, Array.getElem?_eq_none (Nat.le_refl _)]
    rfl

theorem Ordered.bucket_eq (h : t.Ordered) {i : Nat} (hi : i < t.bucketCount) :
    (t.bucket i).toList = t.entries.toList.filter fun e => t.bucketOf e = i := by
  rw [bucket, Array.toList_extract, h.bucketStart_eq (Nat.le_of_lt hi), h.bucketStart_eq hi,
    List.extract_eq_take_drop, ← List.drop_take, drop_take_countP_lt h.sorted]

theorem Ordered.eq_of_name_eq (h : t.Ordered) {e f : Entry} (he : e ∈ t.entries.toList)
    (hf : f ∈ t.entries.toList) (hname : e.name = f.name) : e = f :=
  List.inj_on_of_nodup_map h.nodup he hf hname

/-- A name is found exactly when there is an entry of it. -/
theorem Ordered.find?_eq_some_iff (h : t.Ordered) {name : String} {e : Entry} :
    t.find? name = some e ↔ e ∈ t.entries.toList ∧ e.name = name := by
  have hbucket := h.bucket_eq (bucketAmong_lt h.buckets name)
  unfold find?
  rw [← Array.find?_toList, hbucket]
  constructor
  · intro hfind
    have hmem := List.mem_of_find?_eq_some hfind
    have hname := List.find?_some hfind
    exact ⟨(List.mem_filter.1 hmem).1, by simpa using hname⟩
  · rintro ⟨hmem, rfl⟩
    have hsome : ((t.entries.toList.filter fun f => t.bucketOf f = bucketAmong t.bucketCount
        e.name).find? (·.name == e.name)).isSome := by
      rw [List.find?_isSome]
      exact ⟨e, List.mem_filter.2 ⟨hmem, by simp [bucketOf]⟩, by simp⟩
    obtain ⟨f, hf⟩ := Option.isSome_iff_exists.1 hsome
    have hmemf := (List.mem_filter.1 (List.mem_of_find?_eq_some hf)).1
    have hname := List.find?_some hf
    rw [hf, h.eq_of_name_eq hmemf hmem (by simpa using hname)]

theorem Ordered.lookup_eq_some_iff (h : t.Ordered) {name : String} {start : Nat} :
    t.lookup name = some start ↔ ⟨name, start⟩ ∈ t.entries.toList := by
  unfold lookup
  rw [Option.map_eq_some_iff]
  constructor
  · rintro ⟨e, he, rfl⟩
    obtain ⟨hmem, rfl⟩ := h.find?_eq_some_iff.1 he
    exact hmem
  · intro hmem
    exact ⟨_, h.find?_eq_some_iff.2 ⟨hmem, rfl⟩, rfl⟩

theorem ordered_empty : empty.Ordered where
  buckets := by decide
  sorted := .nil
  starts := by decide
  nodup := .nil

theorem Ordered.toList_insert (h : t.Ordered) (e : Entry) :
    (t.insert e).entries.toList =
      (t.entries.toList.filter fun f => t.bucketOf f < t.bucketOf e + 1) ++
        e :: t.entries.toList.filter fun f => t.bucketOf e + 1 ≤ t.bucketOf f := by
  have hstart := h.bucketStart_eq (bucketAmong_lt h.buckets e.name)
  have hle : t.bucketStart (t.bucketOf e + 1) ≤ t.entries.size := by
    unfold bucketOf
    rw [hstart, ← Array.length_toList]
    exact List.countP_le_length
  rw [insert, ← bucketOf, Array.insertIdxIfInBounds, dif_pos hle, Array.toList_insertIdx,
    bucketOf, hstart]
  exact insertIdx_countP_lt h.sorted _ e

theorem bucketCount_insert (e : Entry) : (t.insert e).bucketCount = t.bucketCount := by
  simp [insert, bucketCount]

theorem Ordered.perm_insert (h : t.Ordered) (e : Entry) :
    (t.insert e).entries.toList.Perm (e :: t.entries.toList) := by
  rw [h.toList_insert]
  refine List.perm_middle.trans (.cons e ?_)
  rw [filter_lt_append_filter_le h.sorted]

theorem Ordered.insert (h : t.Ordered) {e : Entry}
    (hnew : ∀ f ∈ t.entries.toList, f.name ≠ e.name) : (t.insert e).Ordered := by
  have hbucket : (t.insert e).bucketOf = t.bucketOf := by
    funext f
    rw [bucketOf, bucketCount_insert, bucketOf]
  have hperm := h.perm_insert e
  refine ⟨?_, ?_, ?_, ?_⟩
  · rw [bucketCount_insert]
    exact h.buckets
  · rw [hbucket, h.toList_insert, List.pairwise_append, List.pairwise_cons]
    refine ⟨h.sorted.filter _, ⟨fun f hf => ?_, h.sorted.filter _⟩, fun f hf f' hf' => ?_⟩
    · have := (List.mem_filter.1 hf).2
      simp only [decide_eq_true_eq] at this
      omega
    · have hlt := (List.mem_filter.1 hf).2
      simp only [decide_eq_true_eq] at hlt
      rcases List.mem_cons.1 hf' with rfl | hf'
      · omega
      · have := (List.mem_filter.1 hf').2
        simp only [decide_eq_true_eq] at this
        omega
  · intro i hi
    rw [bucketCount_insert] at hi
    rw [hbucket, hperm.countP_eq, List.countP_cons, NameTable.insert]
    simp only [Array.getElem?_mapIdx, h.starts i hi, Option.map_some, bucketOf]
    by_cases hlt : bucketAmong t.bucketCount e.name < i <;> simp [hlt]
  · rw [(hperm.map _).nodup_iff, List.map_cons, List.nodup_cons]
    refine ⟨fun hmem => ?_, h.nodup⟩
    obtain ⟨f, hf, hname⟩ := List.mem_map.1 hmem
    exact hnew f hf hname

theorem Ordered.rebuild (h : t.Ordered) {buckets : Nat} (hb : 0 < buckets) :
    (t.rebuild buckets).Ordered := by
  have hperm := t.perm_rebuild hb
  refine ⟨?_, ?_, ?_, ?_⟩
  · rwa [bucketCount_rebuild]
  · simp only [bucketOf, bucketCount_rebuild]
    rw [toList_rebuild t hb]
    exact pairwise_mergeSort_key (fun e : Entry => bucketAmong buckets e.name) t.entries.toList
  · intro i hi
    rw [bucketCount_rebuild] at hi
    simp only [bucketOf, bucketCount_rebuild, hperm.countP_eq]
    unfold NameTable.rebuild
    rw [← Array.getElem?_toList, toList_bucketStarts]
    simp [hi, List.countP_map, Function.comp_def]
  · rw [(hperm.map _).nodup_iff]
    exact h.nodup

theorem Ordered.grow (h : t.Ordered) : t.grow.Ordered := by
  unfold NameTable.grow
  split
  · exact h.rebuild (Nat.mul_pos h.buckets (by decide))
  · exact h

theorem Ordered.perm_grow (h : t.Ordered) : t.grow.entries.toList.Perm t.entries.toList := by
  unfold NameTable.grow
  split
  · exact t.perm_rebuild (Nat.mul_pos h.buckets (by decide))
  · exact .refl _

/-- Registering a new name adds its entry, and nothing else. -/
theorem Ordered.register (h : t.Ordered) {name : String} {start : Nat} {t' : NameTable}
    (hreg : t.register name start = .ok t') :
    t'.Ordered ∧ t'.entries.toList.Perm (⟨name, start⟩ :: t.entries.toList) := by
  unfold NameTable.register at hreg
  split at hreg
  · cases hreg
  · next hnone =>
    obtain rfl := Except.ok.inj hreg
    have hnew : ∀ f ∈ t.entries.toList, f.name ≠ name := by
      intro f hf hname
      rw [h.find?_eq_some_iff.2 ⟨hf, hname⟩] at hnone
      cases hnone
    exact ⟨(h.insert hnew).grow, (h.insert hnew).perm_grow.trans (h.perm_insert _)⟩

theorem Ordered.exists_register (h : t.Ordered) {name : String}
    (hnew : ∀ e ∈ t.entries.toList, e.name ≠ name) (start : Nat) :
    ∃ t', t.register name start = .ok t' := by
  have hnone : t.find? name = none := by
    rw [Option.eq_none_iff_forall_ne_some]
    intro e he
    obtain ⟨hmem, hname⟩ := h.find?_eq_some_iff.1 he
    exact hnew e hmem hname
  exact ⟨_, by rw [NameTable.register, hnone]⟩

theorem sortedEntries_eq_of_perm {es : List Entry} (hperm : t.entries.toList.Perm es)
    (hsorted : es.Pairwise fun e f => e.start < f.start) : t.sortedEntries = es := by
  have hmerge : t.sortedEntries.Pairwise fun e f => e.start ≤ f.start :=
    pairwise_mergeSort_key (·.start) t.entries.toList
  have hperm' : t.sortedEntries.Perm es := (List.mergeSort_perm _ _).trans hperm
  have hnodup : (es.map (·.start)).Nodup := List.pairwise_map.2 (hsorted.imp Nat.ne_of_lt)
  refine List.Perm.eq_of_pairwise ?_ hmerge (hsorted.imp Nat.le_of_lt) hperm'
  intro e f he hf hle hge
  exact List.inj_on_of_nodup_map hnodup (hperm'.mem_iff.1 he) hf (Nat.le_antisymm hle hge)

theorem nameAt_eq_some (hnodup : (t.entries.toList.map (·.start)).Nodup) {e : Entry}
    (he : e ∈ t.entries.toList) : t.nameAt e.start = some e.name := by
  have hsome : (t.entries.toList.find? (·.start == e.start)).isSome := by
    rw [List.find?_isSome]
    exact ⟨e, he, by simp⟩
  obtain ⟨f, hf⟩ := Option.isSome_iff_exists.1 hsome
  have hstart : f.start = e.start := by simpa using List.find?_some hf
  obtain rfl := List.inj_on_of_nodup_map hnodup (List.mem_of_find?_eq_some hf) he hstart
  rw [nameAt, ← Array.find?_toList, hf, Option.map_some]

end LexicalPatterns.NameTable
