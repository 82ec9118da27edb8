import Mathlib
import LexicalPatterns.Proofs.Library.Loading
import LexicalPatterns.Proofs.Meaning.Mentions

/-!
# Warnings

Lenient loading warns of each reference in the code that no definition answers. A reference node has
a warning for each reference that the code has for it: none in an operand that is not written, and
several in one that is copied.
-/

namespace LexicalPatterns

namespace Document

variable {d : Document} {f : Forest}

def mentions (d : Document) : List Mention :=
  d.definitions.flatMap fun f => f.trees.flatMap Tree.mentions

def names (d : Document) : List String := d.definitions.filterMap (·.name d.text)

def undefinedAt (d : Document) (span : Span) : Diagnostic :=
  .atSpan d span .warning ("reference to undefined pattern `" ++ span.text d.text ++ "`")

theorem exists_tree_of_mem_definitions (hf : f ∈ d.definitions) :
    ∃ t : Tree, t.Proper ∧ f = .ofTrees [t] ∧ f.items.flatMap Tree.references = t.references := by
  unfold definitions at hf
  split at hf
  · next fs hfs =>
    obtain ⟨tokens, ts, -, hts, rfl⟩ := Batch.definitions_eq_ok_iff.1 hfs
    obtain ⟨t, ht, rfl⟩ := List.mem_map.1 hf
    obtain ⟨hproper, span, nameSpan, items, rfl⟩ := hts.proper t ht
    refine ⟨_, hproper, rfl, ?_⟩
    rw [Forest.items, Forest.trees_ofTrees,
      @Tree.references_node .definition _ span trivial nofun]
    exact (List.append_nil _).symm
  · cases hf

/-- A document mentions names at its reference nodes, and nowhere else. -/
theorem map_span_mentions (d : Document) :
    d.mentions.map (·.span) =
      ((d.definitions.flatMap (·.nodes)).filter (·.kind = .reference)).map (·.span) := by
  rw [mentions, List.map_flatMap, List.filter_flatMap, List.map_flatMap]
  refine List.flatMap_congr fun f hf => ?_
  obtain ⟨t, -, rfl, -⟩ := exists_tree_of_mem_definitions hf
  rw [Forest.trees_ofTrees, List.flatMap_singleton, t.map_span_mentions, Forest.ofTrees,
    Tree.nodesAll, Tree.nodesAll, List.append_nil]

theorem references_perm (hf : f ∈ d.definitions) :
    ((f.items.flatMap Tree.references).map Tree.span).Perm
      ((f.trees.flatMap Tree.mentions).flatMap Mention.spans) := by
  obtain ⟨t, hproper, rfl, hreferences⟩ := exists_tree_of_mem_definitions hf
  rw [hreferences, Forest.trees_ofTrees, List.flatMap_singleton]
  exact hproper.references_perm

theorem names_eq (d : Document) : d.names = (Grammar.ofSource d.text).map (·.name) := by
  unfold names definitions Grammar.ofSource
  rcases Batch.definitions d.text with e | fs
  · rfl
  · simp only [Grammar.ofDefinitions, List.filterMap_map, List.map_filterMap]
    refine List.filterMap_congr fun f _ => ?_
    simp [Rule.ofForest?, Function.comp_def]

end Document

namespace Library

variable {limit : Nat} {documents : List Document} {b : Batch} {p : Program} {l : Library}

def declared (documents : List Document) : List String := documents.flatMap Document.names

theorem isDangling_iff (hcollect : collect 0 documents .empty = .ok b) (f : Fixup) :
    Batch.isDangling b.names f ↔ f.name ∉ declared documents := by
  have hholds := holds_of_collect Batch.holds_empty hcollect
  have hnames : declared documents =
      (documents.flatMap fun d => Grammar.ofSource d.text).map (·.name) := by
    rw [declared, List.map_flatMap]
    exact List.flatMap_congr fun d _ => d.names_eq
  rw [hnames, ← Grammar.map_name_entriesFrom 0, Batch.isDangling, Option.isNone_iff_eq_none,
    Option.eq_none_iff_forall_ne_some]
  constructor
  · intro hnone hmem
    obtain ⟨e, he, hname⟩ := List.mem_map.1 hmem
    exact hnone e.start (hholds.lookup_eq_some_iff.2 (hname ▸ he))
  · intro hnot start hstart
    exact hnot (List.mem_map.2 ⟨_, hholds.lookup_eq_some_iff.1 hstart, rfl⟩)

/-- The warning for a name at a span of a document, unless a definition declares it. -/
def warning? (documents : List Document) (d : Document) (span : Span) : Option Diagnostic :=
  if span.text d.text ∈ declared documents then none else some (d.undefinedAt span)

theorem filterMap_tags {a : Definition} (ha : a ∈ definitionsFrom 0 documents) :
    a.tags.filterMap (fun tag => if tag.1 ∈ declared documents then none else
        documents[tag.2.2]?.map (Diagnostic.ofDangling · ⟨tag.1, tag.2.1, tag.2.2⟩)) =
      (a.references.map Tree.span).filterMap (warning? documents a.document) := by
  rw [Definition.tags, List.filterMap_map, List.filterMap_map]
  refine List.filterMap_congr fun t _ => ?_
  simp only [Function.comp_apply, Tree.tag, warning?, (document_of_mem ha).2]
  rfl

/-- The warnings are those for the references of the definitions. -/
theorem warningsOf_perm (hcollect : collect 0 documents .empty = .ok b)
    (hfinish : b.finish false = .ok p) :
    (warningsOf documents p).Perm ((definitionsFrom 0 documents).flatMap fun a =>
      (a.references.map Tree.span).filterMap (warning? documents a.document)) := by
  refine (List.mergeSort_perm _ _).trans (.of_eq ?_)
  obtain rfl := Except.ok.inj hfinish
  rw [List.filterMap_map, List.filterMap_filter,
    ← List.flatMap_congr fun a ha => filterMap_tags ha, ← List.filterMap_flatMap,
    ← map_tag_of_collect hcollect, List.filterMap_map]
  refine List.filterMap_congr fun f _ => ?_
  have hdangling := isDangling_iff hcollect f
  by_cases hname : f.name ∈ declared documents
  · rw [if_neg (by simpa [hname] using hdangling)]
    exact (if_pos hname).symm
  · rw [if_pos (hdangling.2 hname)]
    exact (if_neg hname).symm

/-- The mentions of names that no definition declares, each with its document. -/
def undefinedMentions (documents : List Document) : List (Document × Mention) :=
  documents.flatMap fun d =>
    (d.mentions.filter fun m => m.span.text d.text ∉ declared documents).map (d, ·)

theorem filterMap_spans (d : Document) (ms : List Mention) :
    (ms.flatMap Mention.spans).filterMap (warning? documents d) =
      (ms.filter fun m => m.span.text d.text ∉ declared documents).flatMap fun m =>
        List.replicate m.copies (d.undefinedAt m.span) := by
  induction ms with
  | nil => rfl
  | cons m ms ih =>
    rw [List.flatMap_cons, List.filterMap_append, ih, Mention.spans, List.filterMap_replicate,
      warning?]
    by_cases hname : m.span.text d.text ∈ declared documents <;> simp [hname]

/-- Whether a library has the warnings that its documents ask for: one for each reference that the
code has for a mention of a name that no definition declares. -/
structure Warned (documents : List Document) (l : Library) : Prop where
  mentions : ∀ d ∈ documents, d.mentions.map (·.span) =
    ((d.definitions.flatMap (·.nodes)).filter (·.kind = .reference)).map (·.span)
  warnings : l.warnings.Perm ((undefinedMentions documents).flatMap fun u =>
    List.replicate u.2.copies (u.1.undefinedAt u.2.span))

/-- Lenient loading warns of each mention of a name that no definition declares, once for each copy
of the mention in the code. -/
theorem warned_of_load (hload : load documents false limit = .ok l) : Warned documents l := by
  refine ⟨fun d _ => d.map_span_mentions, ?_⟩
  obtain ⟨b, p, hcollect, hfinish, rfl⟩ := load_eq_ok_iff.1 hload
  refine (warningsOf_perm hcollect hfinish).trans ?_
  have hflat := flatMap_definitionsFrom (fun d f => ((f.items.flatMap Tree.references).map
    Tree.span).filterMap (warning? documents d)) 0 documents
  refine (List.Perm.of_eq hflat).trans ?_
  rw [undefinedMentions, List.flatMap_assoc]
  refine List.Perm.flatMap_left documents fun d _ => ?_
  rw [List.flatMap_map]
  have hspans : (d.definitions.flatMap fun f => ((f.items.flatMap Tree.references).map
      Tree.span).filterMap (warning? documents d)).Perm
        ((d.mentions.flatMap Mention.spans).filterMap (warning? documents d)) := by
    rw [Document.mentions, List.flatMap_assoc, List.filterMap_flatMap]
    exact List.Perm.flatMap_left _ fun f hf => (Document.references_perm hf).filterMap _
  exact hspans.trans (.of_eq (filterMap_spans d d.mentions))

def twoDocuments : List Document :=
  [{ path := "a.pat", text := "y=m{2} n? z\nw=[k{3}]{2,4} q{0}" },
    { path := "b.pat", text := "z='a' y n" }]

theorem warned_of_load_twoDocuments :
    ∃ l, load twoDocuments false 128 = .ok l ∧ l.warnings.length = 16 ∧ Warned twoDocuments l := by
  obtain ⟨l, hload, hlength⟩ : ∃ l, load twoDocuments false 128 = .ok l ∧
      l.warnings.length = 16 := exists_load_of_map (by cbv)
  exact ⟨l, hload, hlength, warned_of_load hload⟩

/-- A document with one reference node, in an operand of which two copies are written. -/
def copied : List Document := [{ path := "a.pat", text := "y=m{2}" }]

/-- The warnings are not one for each mention of a name that no definition declares. -/
theorem warnings_copied :
    ∃ l, load copied false 128 = .ok l ∧
      ¬ l.warnings.Perm ((undefinedMentions copied).map fun u => u.1.undefinedAt u.2.span) := by
  obtain ⟨l, hload, hlength⟩ : ∃ l, load copied false 128 = .ok l ∧ l.warnings.length = 2 :=
    exists_load_of_map (by cbv)
  have hmentions : (undefinedMentions copied).length = 1 := by cbv
  refine ⟨l, hload, fun hperm => ?_⟩
  have hsame := hperm.length_eq
  rw [hlength, List.length_map, hmentions] at hsame
  omega

end Library
end LexicalPatterns
