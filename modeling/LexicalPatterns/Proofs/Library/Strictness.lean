import LexicalPatterns.Proofs.Library.Loading
import Mathlib.Data.List.Sort

/-!
# Strict and lenient loading

A strict batch is finished reference by reference up to the first one that no definition answers,
which refuses it. A lenient one goes on and tells all such references. So strict loading gives the
library of lenient loading where that has no warnings, and else refuses the first reference that
lenient loading tells.
-/

namespace LexicalPatterns

namespace Batch

/-- Resolves references one after the other, and tells those that no definition answers. With
`strict` the first of these ends it. -/
def settle (strict : Bool) (names : NameTable) :
    Array Instruction → List Fixup → Except CompileError (Array Instruction × List Dangling)
  | code, [] => .ok (code, [])
  | code, f :: fs =>
    if isDangling names f then
      if strict then .error (.unknownPattern f.name f.span f.origin)
      else (settle strict names code fs).map fun r => (r.1, ⟨f.name, f.span, f.origin⟩ :: r.2)
    else settle strict names (resolve names code f) fs

theorem settle_eq (strict : Bool) (names : NameTable) (code : Array Instruction)
    (fs : List Fixup) :
    settle strict names code fs =
      match strict, fs.filter (isDangling names) with
      | true, f :: _ => .error (.unknownPattern f.name f.span f.origin)
      | _, dangling =>
        .ok (fs.foldl (resolve names) code, dangling.map fun f => ⟨f.name, f.span, f.origin⟩) := by
  induction fs generalizing code with
  | nil => cases strict <;> rfl
  | cons f fs ih =>
    rw [settle, List.foldl_cons]
    by_cases hf : isDangling names f
    · have hsame : resolve names code f = code := by
        have hnone : names.lookup f.name = none := by simpa [isDangling] using hf
        rw [resolve, hnone]
      rw [List.filter_cons_of_pos hf, hsame, if_pos hf]
      cases strict with
      | true => rfl
      | false =>
        rw [if_neg Bool.false_ne_true, ih]
        rfl
    · rw [List.filter_cons_of_neg hf, if_neg hf, ih]

/-- Finishing a batch resolves its references one after the other. -/
theorem finish_eq_settle (b : Batch) (strict : Bool) :
    b.finish strict = (settle strict b.names b.code b.fixups.toList).map fun r =>
      { code := r.1, names := b.names, dangling := r.2 } := by
  rw [settle_eq, Array.foldl_toList]
  unfold finish
  cases strict <;> rcases b.fixups.toList.filter (isDangling b.names) with _ | ⟨f, fs⟩ <;> rfl

/-- What is told first where nothing is refused is what is refused where anything is. -/
theorem settle_true (names : NameTable) (code : Array Instruction) (fs : List Fixup) :
    settle true names code fs = settle false names code fs >>= fun r =>
      match r.2 with
      | [] => .ok r
      | d :: _ => .error (.unknownPattern d.name d.span d.origin) := by
  induction fs generalizing code with
  | nil => rfl
  | cons f fs ih =>
    unfold settle
    by_cases hf : isDangling names f
    · rw [if_pos hf, if_pos hf, settle_eq false]
      rfl
    · rw [if_neg hf, if_neg hf, ih]

/-- A strict batch that is finished is refused for the first reference that is told where it is not
strict, and is the same if none is told. -/
theorem finish_true (b : Batch) :
    b.finish true = b.finish false >>= fun p =>
      match p.dangling with
      | [] => .ok p
      | d :: _ => .error (.unknownPattern d.name d.span d.origin) := by
  rw [finish_eq_settle, finish_eq_settle, settle_true]
  rcases settle false b.names b.code b.fixups.toList with e | ⟨code, _ | ⟨d, ds⟩⟩ <;> rfl

end Batch

/-- The indices of the references in the code that no definition answers. -/
def Program.unanswered (p : Program) : List Nat :=
  (List.range p.code.size).filter fun i => (p.code[i]?).map (·.action) = some (.reference none)

theorem Program.mem_unanswered {p : Program} {i : Nat} :
    i ∈ p.unanswered ↔ (p.code[i]?).map (·.action) = some (.reference none) := by
  rw [unanswered, List.mem_filter, List.mem_range, decide_eq_true_eq, and_iff_right_iff_imp]
  intro h
  obtain ⟨instruction, hcode, -⟩ := Option.map_eq_some_iff.1 h
  exact (Array.getElem?_eq_some_iff.1 hcode).1

/-- Whether a node stands in a definition of a document as a reference. -/
def Document.HasReference (d : Document) (t : Tree) : Prop :=
  ∃ f ∈ d.definitions, ∃ item ∈ f.items, Tree.Subtree t item ∧ t.kind = .reference

namespace Library

variable {limit : Nat} {documents : List Document} {b : Batch} {l : Library} {r : Dangling}

theorem load_true_eq_ok_iff_dangling : load documents true limit = .ok l ↔
    load documents false limit = .ok l ∧ l.program.dangling = [] := by
  simp only [load_eq_ok_iff, Batch.finish_true]
  constructor
  · rintro ⟨b, p, hcollect, hfinish, rfl⟩
    obtain ⟨p', hfalse, hp⟩ := bind_eq_ok.1 hfinish
    rcases hdangling : p'.dangling with _ | ⟨r, rest⟩ <;> rw [hdangling] at hp
    · obtain rfl := Except.ok.inj hp
      exact ⟨⟨b, p', hcollect, hfalse, rfl⟩, hdangling⟩
    · cases hp
  · rintro ⟨⟨b, p, hcollect, hfinish, rfl⟩, hdangling⟩
    have hdangling : p.dangling = [] := hdangling
    exact ⟨b, p, hcollect, by rw [hfinish]; simp [bind, Except.bind, hdangling], rfl⟩

/-- What lenient loading refuses is refused, and else the first reference that it tells. -/
theorem load_true_eq_error_iff {d : Diagnostic} : load documents true limit = .error d ↔
    load documents false limit = .error d ∨
      ∃ l r rest document, load documents false limit = .ok l ∧ l.program.dangling = r :: rest ∧
        documents[r.origin]? = some document ∧
        d = .ofError document (.compile (.unknownPattern r.name r.span r.origin)) := by
  constructor
  · intro hload
    obtain hcollect | ⟨b, e, document, hcollect, hfinish, hdocument, rfl⟩ :=
      load_eq_error_iff.1 hload
    · exact .inl (load_of_collect_eq_error hcollect)
    · rw [b.finish_true] at hfinish
      obtain hfalse | ⟨p, hp, herror⟩ := bind_eq_error.1 hfinish
      · cases hfalse
      · rcases hdangling : p.dangling with _ | ⟨r, rest⟩ <;> rw [hdangling] at herror
        · cases herror
        · obtain rfl := Except.error.inj herror
          exact .inr ⟨_, r, rest, document, load_of_finish_eq_ok hcollect hp, hdangling, hdocument,
            rfl⟩
  · rintro (hload | ⟨l, r, rest, document, hload, hdangling, hdocument, rfl⟩)
    · obtain hcollect | ⟨b, e, -, -, hfinish, -⟩ := load_eq_error_iff.1 hload
      · exact load_of_collect_eq_error hcollect
      · cases hfinish
    · obtain ⟨b, p, hcollect, hfinish, rfl⟩ := load_eq_ok_iff.1 hload
      have hdangling : p.dangling = r :: rest := hdangling
      refine load_eq_error_iff.2 (.inr ⟨b, .unknownPattern r.name r.span r.origin, document,
        hcollect, ?_, hdocument, rfl⟩)
      rw [b.finish_true, hfinish]
      simp [bind, Except.bind, hdangling]

/-- Whether a reference that waits in a batch is the first in the code of a library that no
definition answers. -/
structure FirstDangling (l : Library) (f : Fixup) : Prop where
  dangling : l.program.code[f.index]? = some (.next (.reference none))
  first : ∀ i < f.index, ∀ movement, l.program.code[i]? ≠ some ⟨.reference none, movement⟩

/-- Whether `fs` are the references of a batch that a library tells: those in its code that no
definition answers. -/
structure Told (b : Batch) (l : Library) (fs : List Fixup) : Prop where
  sublist : fs.Sublist b.fixups.toList
  dangling : l.program.dangling = fs.map fun f => ⟨f.name, f.span, f.origin⟩
  undefined : ∀ f ∈ b.fixups, f ∈ fs ↔ l.program.names.lookup f.name = none
  code : ∀ f ∈ fs, l.program.code[f.index]? = some (.next (.reference none))
  /-- All of them are told, in the order of the code. -/
  indices : fs.map (·.index) = l.program.unanswered

theorem exists_told (hload : load documents false limit = .ok l) :
    ∃ b fs, collect 0 documents .empty = .ok b ∧ Told b l fs := by
  obtain ⟨b, p, hcollect, hfinish, rfl⟩ := load_eq_ok_iff.1 hload
  obtain ⟨accepted, hsound, -⟩ := exists_sound_of_collect Session.sound_empty hcollect
  have hresolves : b.Resolves p := hsound.holds.resolves hfinish
  have hcode : ∀ f ∈ b.fixups,
      p.code[f.index]? = some (.next (.reference (p.names.lookup f.name))) :=
    fun f hf => hresolves.names ▸ hsound.holds.getElem?_finish_index hfinish hf
  have hundefined : ∀ f ∈ b.fixups, f ∈ b.fixups.toList.filter (fun f =>
      (p.code[f.index]?).map (·.action) = some (.reference none)) ↔
        p.names.lookup f.name = none := by
    intro f hf
    rw [List.mem_filter, and_iff_right hf.val, decide_eq_true_eq, hcode f hf]
    simp [Instruction.next]
  refine ⟨b, _, hcollect, List.filter_sublist, hresolves.dangling, hundefined, fun f hf => ?code,
    ?indices⟩
  case code =>
    have hmem : f ∈ b.fixups := .mk (List.mem_filter.1 hf).1
    exact (hcode f hmem).trans (by rw [(hundefined f hmem).1 hf])
  case indices =>
    -- both sides increase, since the references are in the order of the code
    have hincreasing := List.pairwise_map.2 (hsound.tracked.increasing.filter fun f =>
      (p.code[f.index]?).map (·.action) = some (.reference none))
    refine hincreasing.eq_of_mem_iff (List.pairwise_lt_range.filter _) fun i => ?_
    constructor
    · intro hi
      obtain ⟨f, hf, rfl⟩ := List.mem_map.1 hi
      exact Program.mem_unanswered.2 (of_decide_eq_true (List.mem_filter.1 hf).2)
    · intro hi
      have haction := Program.mem_unanswered.1 hi
      obtain ⟨⟨action, movement⟩, hcode, rfl⟩ := Option.map_eq_some_iff.1 haction
      obtain ⟨f, hf, rfl, -⟩ := (hresolves.target_iff i none).1 ⟨movement, hcode⟩
      exact List.mem_map.2 ⟨f, List.mem_filter.2 ⟨hf.val, decide_eq_true haction⟩, rfl⟩

theorem Told.firstDangling {f : Fixup} {fs : List Fixup} (h : Told b l (f :: fs)) :
    FirstDangling l f where
  dangling := h.code f List.mem_cons_self
  first := by
    intro i hi movement hcode
    have hindices : f.index :: fs.map (·.index) = l.program.unanswered := h.indices
    have hincreasing : l.program.unanswered.Pairwise (· < ·) := List.pairwise_lt_range.filter _
    have hmem : i ∈ l.program.unanswered :=
      Program.mem_unanswered.2 (by rw [hcode, Option.map_some])
    rw [← hindices] at hincreasing hmem
    rcases List.mem_cons.1 hmem with rfl | hmem
    · exact Nat.lt_irrefl _ hi
    · exact Nat.lt_asymm hi ((List.pairwise_cons.1 hincreasing).1 i hmem)

theorem exists_reference_of_mem_fixups (hcollect : collect 0 documents .empty = .ok b)
    {f : Fixup} (hf : f ∈ b.fixups) :
    ∃ d t, documents[f.origin]? = some d ∧ d.HasReference t ∧ t.use d.text = (f.name, f.span) := by
  obtain ⟨a, ha, htag, hd⟩ := exists_of_mem_fixups hcollect hf
  obtain ⟨t, ht, htag⟩ := List.mem_map.1 htag
  obtain ⟨item, hitem, ht⟩ := List.mem_flatMap.1 ht
  have hname : t.span.text a.document.text = f.name := congrArg (·.1) htag
  have hspan : t.span = f.span := congrArg (·.2.1) htag
  exact ⟨a.document, t, hd,
    ⟨a.forest, (document_of_mem ha).1, item, hitem, Tree.subtree_of_mem_references ht⟩,
    Prod.ext hname hspan⟩

/-- A reference that is told tells the position of its document. -/
theorem exists_document_of_mem_dangling (hload : load documents false limit = .ok l)
    (hr : r ∈ l.program.dangling) : ∃ d, documents[r.origin]? = some d := by
  obtain ⟨b, p, hcollect, hfinish, rfl⟩ := load_eq_ok_iff.1 hload
  obtain rfl := Except.ok.inj hfinish
  obtain ⟨f, hf, rfl⟩ := List.mem_map.1 hr
  have hmem : f ∈ b.fixups := .mk (List.mem_filter.1 hf).1
  obtain ⟨d, -, hd, -⟩ := exists_reference_of_mem_fixups hcollect hmem
  exact ⟨d, hd⟩

theorem warnings_eq_nil_iff (hload : load documents false limit = .ok l) :
    l.warnings = [] ↔ l.program.dangling = [] := by
  have hdocument {r : Dangling} := exists_document_of_mem_dangling (r := r) hload
  obtain ⟨b, p, -, -, rfl⟩ := load_eq_ok_iff.1 hload
  have hmerge : ∀ ds : List Diagnostic, ds.mergeSort Diagnostic.precedes = [] ↔ ds = [] :=
    fun ds => by rw [← List.length_eq_zero_iff, List.length_mergeSort, List.length_eq_zero_iff]
  change warningsOf documents p = [] ↔ p.dangling = []
  rw [warningsOf, hmerge, List.filterMap_eq_nil_iff, List.eq_nil_iff_forall_not_mem]
  refine forall_congr' fun r => forall_congr' fun hr => ?_
  obtain ⟨d, hd⟩ := hdocument hr
  simp [hd]

theorem load_true_eq_ok_iff : load documents true limit = .ok l ↔
    load documents false limit = .ok l ∧ l.warnings = [] := by
  rw [load_true_eq_ok_iff_dangling]
  exact and_congr_right fun hload => (warnings_eq_nil_iff hload).symm

structure Agree (documents : List Document) (limit : Nat) : Prop where
  ok_iff : ∀ l, load documents true limit = .ok l ↔
    load documents false limit = .ok l ∧ l.warnings = []
  refused : ∀ e, load documents false limit = .error e → load documents true limit = .error e
  /-- Lenient loading tells the references of the code that no definition answers. -/
  told : ∀ l, load documents false limit = .ok l →
    ∃ b fs, collect 0 documents .empty = .ok b ∧ Told b l fs
  /-- A reference that no definition answers refuses the documents: the first one in the code, at
  its node in its document. -/
  dangling : ∀ l r rest, load documents false limit = .ok l → l.program.dangling = r :: rest →
    ∃ b f d t, collect 0 documents .empty = .ok b ∧ f ∈ b.fixups ∧
      r = ⟨f.name, f.span, f.origin⟩ ∧ FirstDangling l f ∧
      documents[r.origin]? = some d ∧ d.HasReference t ∧ t.use d.text = (r.name, r.span) ∧
      load documents true limit =
        .error (.ofError d (.compile (.unknownPattern r.name r.span r.origin)))

/-- Strict and lenient loading agree, whatever the documents are. -/
theorem agree (documents : List Document) (limit : Nat) : Agree documents limit := by
  refine ⟨fun l => load_true_eq_ok_iff, fun e he => load_true_eq_error_iff.2 (.inl he),
    fun l => exists_told, ?dangling⟩
  case dangling =>
    intro l r rest hload hdangling
    obtain ⟨b, fs, hcollect, htold⟩ := exists_told hload
    obtain ⟨f, fs, rfl, rfl, -⟩ := List.map_eq_cons_iff.1 (htold.dangling.symm.trans hdangling)
    have hf : f ∈ b.fixups := .mk (htold.sublist.mem List.mem_cons_self)
    obtain ⟨d, t, hd, ht, huse⟩ := exists_reference_of_mem_fixups hcollect hf
    exact ⟨b, f, d, t, hcollect, hf, rfl, htold.firstDangling, hd, ht, huse,
      load_true_eq_error_iff.2 (.inr ⟨l, _, rest, d, hload, hdangling, hd, rfl⟩)⟩

end Library
end LexicalPatterns
