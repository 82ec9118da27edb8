import LexicalPatterns.Library
import LexicalPatterns.Proofs.Batch.References

/-!
# Loading documents

The documents of a library are added to one batch, each under its position. So the references that
wait for their targets come from reference nodes of the documents, document after document, and each
tells the position of the document that it stands in.
-/

namespace LexicalPatterns

namespace Batch

/-- Where all definitions are accepted, they are accepted for the source that the batch is at. -/
theorem acceptedAll_eq {b : Batch} {source : String} {fs : List Forest} {placed : List Placed}
    (h : (defineAll source fs b).1 = .ok placed) :
    (acceptedAll source fs b).map (fun a => (a.origin, a.source, a.forest)) =
      fs.map fun f => (b.origin, source, f) := by
  induction fs generalizing b placed with
  | nil => rfl
  | cons f fs ih =>
    have horigin := b.origin_compile source f
    unfold defineAll at h
    unfold acceptedAll
    rcases hcompile : b.compile source f with ⟨e | p, b₁⟩
    · simp [hcompile] at h
    · rcases hrest : (defineAll source fs b₁).1 with e | others
      · simp [hcompile, hrest, Except.map] at h
      · rw [hcompile] at horigin
        have hfs := ih hrest
        rw [horigin] at hfs
        exact congrArg (_ :: ·) hfs

end Batch

def Document.definitions (d : Document) : List Forest :=
  match Batch.definitions d.text with
  | .ok fs => fs
  | .error _ => []

theorem Batch.acceptedOf_eq {b : Batch} {d : Document} {placed : List Placed}
    (h : (b.defineSource d.text).1 = .ok placed) :
    (b.acceptedOf d.text).map (fun a => (a.origin, a.source, a.forest)) =
      d.definitions.map fun f => (b.origin, d.text, f) := by
  unfold defineSource at h
  unfold acceptedOf Document.definitions
  rcases hfs : Batch.definitions d.text with e | fs
  · rfl
  · rw [hfs] at h
    rcases hall : (defineAll d.text fs b).1 with e | others
    · simp [hall, Except.mapError] at h
    · exact acceptedAll_eq hall

namespace Library

/-- A definition of a library, the document that it is in, and the document's position. -/
structure Definition where
  origin : Nat
  document : Document
  forest : Forest

namespace Definition

def references (a : Definition) : List Tree := a.forest.items.flatMap Tree.references

def tags (a : Definition) : List (String × Span × Nat) :=
  a.references.map (Tree.tag a.document.text a.origin)

end Definition

/-- The definitions of documents, the first of them at position `origin`. -/
def definitionsFrom : (origin : Nat) → List Document → List Definition
  | _, [] => []
  | origin, d :: ds => d.definitions.map (⟨origin, d, ·⟩) ++ definitionsFrom (origin + 1) ds

variable {origin limit : Nat} {documents : List Document} {b b' : Batch} {l : Library}

theorem exists_of_mem_definitionsFrom {a : Definition} (h : a ∈ definitionsFrom origin documents) :
    a.forest ∈ a.document.definitions ∧
      ∃ i, a.origin = origin + i ∧ documents[i]? = some a.document := by
  induction documents generalizing origin with
  | nil => cases h
  | cons d ds ih =>
    rcases List.mem_append.1 h with h | h
    · obtain ⟨f, hf, rfl⟩ := List.mem_map.1 h
      exact ⟨hf, 0, rfl, rfl⟩
    · obtain ⟨hforest, i, horigin, hi⟩ := ih h
      exact ⟨hforest, i + 1, by omega, hi⟩

theorem document_of_mem {a : Definition} (h : a ∈ definitionsFrom 0 documents) :
    a.forest ∈ a.document.definitions ∧ documents[a.origin]? = some a.document := by
  obtain ⟨hforest, i, horigin, hi⟩ := exists_of_mem_definitionsFrom h
  rw [horigin, Nat.zero_add]
  exact ⟨hforest, hi⟩

theorem flatMap_definitionsFrom {α : Type} (g : Document → Forest → List α) (origin : Nat)
    (documents : List Document) :
    (definitionsFrom origin documents).flatMap (fun a => g a.document a.forest) =
      documents.flatMap fun d => d.definitions.flatMap (g d) := by
  induction documents generalizing origin with
  | nil => rfl
  | cons d ds ih =>
    rw [definitionsFrom, List.flatMap_append, ih, List.flatMap_map, List.flatMap_cons]

/-- A batch that accepts documents has accepted their definitions, and no others. -/
theorem exists_sound_of_collect {s : Session} (h : s.Sound)
    (hcollect : collect origin documents s.batch = .ok b) :
    ∃ accepted, Session.Sound ⟨b, s.accepted ++ accepted⟩ ∧
      accepted.map (fun a => (a.origin, a.source, a.forest)) =
        (definitionsFrom origin documents).map fun a => (a.origin, a.document.text, a.forest) := by
  induction documents generalizing origin s with
  | nil =>
    obtain rfl : s.batch = b := Except.ok.inj hcollect
    exact ⟨[], by rwa [List.append_nil], rfl⟩
  | cons d ds ih =>
    obtain ⟨placed, b₁, hsource, hrest⟩ := exists_of_collect_cons hcollect
    -- a document is two requests: its position, and its text
    have h₁ := (h.perform (.origin origin)).perform (.source d.text)
    simp only [Session.perform, Batch.respond, Batch.acceptedBy, List.append_nil, hsource] at h₁
    obtain ⟨accepted, hsound, haccepted⟩ := ih h₁ hrest
    refine ⟨_, by rwa [List.append_assoc] at hsound, ?_⟩
    have hd := Batch.acceptedOf_eq (congrArg Prod.fst hsource)
    rw [List.map_append, haccepted, hd, definitionsFrom, List.map_append, List.map_map]
    rfl

/-- The references of a batch of documents come from the reference nodes of their definitions. -/
theorem map_tag_of_collect (hcollect : collect 0 documents .empty = .ok b) :
    b.fixups.toList.map Fixup.tag = (definitionsFrom 0 documents).flatMap Definition.tags := by
  obtain ⟨accepted, hsound, haccepted⟩ := exists_sound_of_collect Session.sound_empty hcollect
  have hfixups : b.fixups.toList = accepted.flatMap Accepted.fixups := hsound.fixups
  have htags : accepted.map (fun a => a.fixups.map Fixup.tag) =
      (definitionsFrom 0 documents).map Definition.tags := by
    have hmap := congrArg (List.map fun a : Nat × String × Forest =>
      (a.2.2.items.flatMap Tree.references).map (Tree.tag a.2.1 a.1)) haccepted
    rw [List.map_map, List.map_map] at hmap
    rw [List.map_congr_left fun a _ => a.map_tag_fixups]
    exact hmap
  rw [hfixups, List.map_flatMap, List.flatMap_def, htags, List.flatMap_def]

theorem exists_of_mem_fixups (hcollect : collect 0 documents .empty = .ok b) {f : Fixup}
    (hf : f ∈ b.fixups) :
    ∃ a ∈ definitionsFrom 0 documents, f.tag ∈ a.tags ∧ documents[f.origin]? = some a.document := by
  have htag : f.tag ∈ (definitionsFrom 0 documents).flatMap Definition.tags := by
    rw [← map_tag_of_collect hcollect]
    exact List.mem_map_of_mem hf.val
  obtain ⟨a, ha, htag⟩ := List.mem_flatMap.1 htag
  obtain ⟨t, -, ht⟩ := List.mem_map.1 htag
  have horigin : a.origin = f.origin := congrArg (·.2.2) ht
  exact ⟨a, ha, htag, horigin ▸ (document_of_mem ha).2⟩

theorem holds_of_collect {g : Grammar} (h : b.Holds g)
    (hcollect : collect origin documents b = .ok b') :
    b'.Holds (g ++ documents.flatMap fun d => Grammar.ofSource d.text) := by
  induction documents generalizing origin b g with
  | nil =>
    obtain rfl : b = b' := Except.ok.inj hcollect
    rwa [List.flatMap_nil, List.append_nil]
  | cons d ds ih =>
    obtain ⟨placed, b₁, hsource, hrest⟩ := exists_of_collect_cons hcollect
    have hb : (b.withOrigin origin).Holds g := ⟨h.code, h.fixups, h.ordered, h.entries⟩
    have hd := ih (hb.defineSource hsource).1 hrest
    rwa [List.append_assoc] at hd

section

variable {strict : Bool} {d : Diagnostic} {e : CompileError} {p : Program}

theorem load_of_collect_eq_error (hcollect : collect 0 documents .empty = .error d) :
    load documents strict limit = .error d := by
  unfold load
  split
  · next heq => rw [Except.error.inj (heq.symm.trans hcollect)]
  · next heq => exact absurd (heq.symm.trans hcollect) nofun

theorem load_of_finish_eq_error (hcollect : collect 0 documents .empty = .ok b)
    (hfinish : b.finish strict = .error e) : ∃ document, documents[e.origin]? = some document ∧
      load documents strict limit = .error (.ofError document (.compile e)) := by
  have horigin := origin_lt_of_finish hcollect hfinish
  refine ⟨_, List.getElem?_eq_getElem horigin, ?_⟩
  unfold load
  split
  · next heq => exact absurd (heq.symm.trans hcollect) nofun
  · next b' heq =>
    obtain rfl := Except.ok.inj (heq.symm.trans hcollect)
    split
    · next heq =>
      obtain rfl := Except.error.inj (heq.symm.trans hfinish)
      rfl
    · next heq => exact absurd (heq.symm.trans hfinish) nofun

theorem load_of_finish_eq_ok (hcollect : collect 0 documents .empty = .ok b)
    (hfinish : b.finish strict = .ok p) : load documents strict limit =
      .ok ⟨p.withRecursionLimit limit, documents, warningsOf documents p⟩ := by
  unfold load
  split
  · next heq => exact absurd (heq.symm.trans hcollect) nofun
  · next b' heq =>
    obtain rfl := Except.ok.inj (heq.symm.trans hcollect)
    split
    · next heq => exact absurd (heq.symm.trans hfinish) nofun
    · next heq =>
      obtain rfl := Except.ok.inj (heq.symm.trans hfinish)
      rfl

/-- Documents are loaded when their batch is finished. -/
theorem load_eq_ok_iff :
    load documents strict limit = .ok l ↔ ∃ b p, collect 0 documents .empty = .ok b ∧
      b.finish strict = .ok p ∧
      l = ⟨p.withRecursionLimit limit, documents, warningsOf documents p⟩ := by
  constructor
  · intro hload
    rcases hcollect : collect 0 documents .empty with d | b
    · exact absurd ((load_of_collect_eq_error hcollect).symm.trans hload) nofun
    · rcases hfinish : b.finish strict with e | p
      · obtain ⟨_, -, herror⟩ := load_of_finish_eq_error hcollect hfinish
        exact absurd (herror.symm.trans hload) nofun
      · have hl := (load_of_finish_eq_ok hcollect hfinish).symm.trans hload
        exact ⟨b, p, rfl, hfinish, (Except.ok.inj hl).symm⟩
  · rintro ⟨b, p, hcollect, hfinish, rfl⟩
    exact load_of_finish_eq_ok hcollect hfinish

/-- What a library tells can be told from the program of its documents. -/
theorem exists_load_of_map {α : Type} {f : Library → α} {a : α}
    (h : ((collect 0 documents .empty).toOption.bind fun b => (b.finish strict).toOption).map
      (fun p => f ⟨p.withRecursionLimit limit, documents, warningsOf documents p⟩) = some a) :
    ∃ l, load documents strict limit = .ok l ∧ f l = a := by
  obtain ⟨p, hp, ha⟩ := Option.map_eq_some_iff.1 h
  rcases hcollect : collect 0 documents .empty with d | b <;> rw [hcollect] at hp
  · cases hp
  · rcases hfinish : b.finish strict with e | p' <;> simp only [Except.toOption, Option.bind_some,
      hfinish] at hp
    · cases hp
    · obtain rfl := Option.some.inj hp
      exact ⟨_, load_of_finish_eq_ok hcollect hfinish, ha⟩

/-- Documents are refused when one of them is, or when their batch cannot be finished. -/
theorem load_eq_error_iff :
    load documents strict limit = .error d ↔ collect 0 documents .empty = .error d ∨
      ∃ b e document, collect 0 documents .empty = .ok b ∧ b.finish strict = .error e ∧
        documents[e.origin]? = some document ∧ d = .ofError document (.compile e) := by
  constructor
  · intro hload
    rcases hcollect : collect 0 documents .empty with d' | b
    · rw [load_of_collect_eq_error hcollect] at hload
      exact .inl (congrArg _ (Except.error.inj hload))
    · rcases hfinish : b.finish strict with e | p
      · obtain ⟨document, hdocument, herror⟩ := load_of_finish_eq_error hcollect hfinish
        exact .inr ⟨b, e, document, rfl, hfinish, hdocument,
          Except.error.inj (hload.symm.trans herror)⟩
      · exact absurd ((load_of_finish_eq_ok hcollect hfinish).symm.trans hload) nofun
  · rintro (hcollect | ⟨b, e, document, hcollect, hfinish, hdocument, rfl⟩)
    · exact load_of_collect_eq_error hcollect
    · obtain ⟨document', hdocument', herror⟩ := load_of_finish_eq_error hcollect hfinish
      obtain rfl := Option.some.inj (hdocument.symm.trans hdocument')
      exact herror

end

end Library
end LexicalPatterns
