import LexicalPatterns.Proofs.Batch.Blame
import LexicalPatterns.Proofs.Documents.Lookup
import LexicalPatterns.Proofs.Library.Strictness
import LexicalPatterns.Proofs.Library.Warnings
import Mathlib.Data.Prod.Lex
import Mathlib.Data.String.Basic

/-!
# Warnings point at references

The warning for a reference shows the line that the reference node stands on, and points at the
node's name in it. Warnings are sorted by path, line and column, and there is one for each reference
that the program tells.
-/

namespace LexicalPatterns

namespace Document

variable {d : Document} {t : Tree}

theorem HasReference.exists_identifier (h : d.HasReference t) :
    ∃ tokens, tokenize d.text = .ok tokens ∧ ⟨.identifier, t.span⟩ ∈ tokens := by
  obtain ⟨f, hf, item, hitem, hsubtree, hkind⟩ := h
  obtain ⟨fs, hfs, hf⟩ : ∃ fs, Batch.definitions d.text = .ok fs ∧ f ∈ fs := by
    unfold definitions at hf
    split at hf
    · next fs hfs => exact ⟨fs, hfs, hf⟩
    · cases hf
  obtain ⟨tokens, u, htokens, rfl, hu⟩ := Batch.exists_placed_of_definitions hfs hf
  have hitem' : item ∈ u.children := by
    rw [Forest.items, Forest.trees_ofTrees] at hitem
    exact List.mem_of_mem_drop hitem
  have ht := (hu.of_mem_children item hitem').of_subtree hsubtree
  exact ⟨tokens, htokens, ht.identifier_mem (.inr hkind)⟩

theorem HasReference.fits (h : d.HasReference t) :
    t.span.start < t.span.stop ∧ t.span.Fits d.text := by
  obtain ⟨tokens, htokens, hmem⟩ := h.exists_identifier
  have htile := tokensTile_of_tokenize htokens
  exact ⟨htile.nonempty _ hmem, htile.fits _ hmem⟩

end Document

namespace Diagnostic

def key (a : Diagnostic) : String ×ₗ ℕ ×ₗ ℕ :=
  toLex (a.path, toLex (a.position.line, a.position.column))

theorem precedes_iff (a b : Diagnostic) : a.precedes b = true ↔ a.key ≤ b.key := by
  rw [key, key, Prod.Lex.toLex_le_toLex, Prod.Lex.toLex_le_toLex, precedes]
  by_cases hpath : a.path = b.path
  · by_cases hline : a.position.line = b.position.line <;> simp [hpath, hline]
  · simp [hpath]

theorem pairwise_mergeSort_precedes (ds : List Diagnostic) :
    (ds.mergeSort precedes).Pairwise fun a b => a.key ≤ b.key := by
  have hsorted : (ds.mergeSort precedes).Pairwise fun a b => a.precedes b = true := by
    apply List.pairwise_mergeSort
    · intro a b c
      simp only [precedes_iff]
      exact le_trans
    · intro a b
      rw [Bool.or_eq_true, precedes_iff, precedes_iff]
      exact le_total _ _
  exact hsorted.imp fun h => (precedes_iff _ _).1 h

end Diagnostic

namespace Library

variable {limit : Nat} {documents : List Document} {l : Library}

/-- Whether a diagnostic warns of a name that no definition of the documents declares, at a
reference node of the document `d` with that name. It shows the whole line of the node, in which the
name stands at its column. -/
structure PointsAt (documents : List Document) (d : Document) (name : String) (w : Diagnostic) :
    Prop where
  path : w.path = d.path
  severity : w.severity = .warning
  message : w.message = "reference to undefined pattern `" ++ name ++ "`"
  undeclared : name ∉ declared documents
  reference : ∃ t, d.HasReference t ∧ t.span.text d.text = name ∧
    w.position = d.position t.span.start
  shows : w.Shows d
  named : ∃ line, w.snippet = some line ∧
    name ≠ "" ∧ name.toList <+: line.toList.drop w.position.column

theorem pointsAt_ofDangling {d : Document} {t : Tree} {r : Dangling} (ht : d.HasReference t)
    (huse : t.use d.text = (r.name, r.span)) (hname : r.name ∉ declared documents) :
    PointsAt documents d r.name (.ofDangling d r) := by
  obtain ⟨htext, hspan⟩ := Prod.ext_iff.1 huse
  have htext : t.span.text d.text = r.name := htext
  have hspan : t.span = r.span := hspan
  obtain ⟨tokens, htokens, hmem⟩ := ht.exists_identifier
  have htile := tokensTile_of_tokenize htokens
  have hfits := ht.fits.2
  have hidentifier := htile.isIdentifier hmem
  constructor
  case path | severity | message => rfl
  case undeclared => exact hname
  case reference =>
    refine ⟨t, ht, htext, ?_⟩
    rw [hspan]
    rfl
  case shows => exact Diagnostic.shows_atSpan d r.span _ _
  case named =>
    have hprefix := Document.prefix_drop_lineText hfits (hidentifier.notMem (by decide))
    rw [htext] at hidentifier
    rw [htext, hspan] at hprefix
    exact ⟨d.lineText r.span.start, rfl, hidentifier.ne_empty, hprefix⟩

/-- A reference that is told is one of a document, to a name that no definition declares. -/
theorem exists_reference_of_mem_dangling {r : Dangling} (hload : load documents false limit = .ok l)
    (hr : r ∈ l.program.dangling) : ∃ d t, documents[r.origin]? = some d ∧ d.HasReference t ∧
      t.use d.text = (r.name, r.span) ∧ r.name ∉ declared documents := by
  obtain ⟨b, p, hcollect, hfinish, rfl⟩ := load_eq_ok_iff.1 hload
  obtain rfl := Except.ok.inj hfinish
  obtain ⟨f, hf, rfl⟩ := List.mem_map.1 hr
  obtain ⟨hmem, hdangling⟩ := List.mem_filter.1 hf
  obtain ⟨d, t, hd, ht, huse⟩ := exists_reference_of_mem_fixups hcollect (.mk hmem)
  exact ⟨d, t, hd, ht, huse, (isDangling_iff hcollect f).1 hdangling⟩

/-- Whether the warnings of a library point at references to names that no definition declares, are
sorted by path, line and column, and are one for each reference that the program tells. -/
structure Pointed (documents : List Document) (l : Library) : Prop where
  each : ∀ w ∈ l.warnings, ∃ d ∈ documents, ∃ name, PointsAt documents d name w
  sorted : l.warnings.Pairwise fun a b => a.key ≤ b.key
  complete : (l.warnings.map some).Perm (l.program.dangling.map fun r =>
    documents[r.origin]?.map (Diagnostic.ofDangling · r))

/-- The warnings of lenient loading point at the references that they are about. -/
theorem pointed_of_load (hload : load documents false limit = .ok l) : Pointed documents l := by
  have hreference {r : Dangling} := exists_reference_of_mem_dangling (r := r) hload
  obtain ⟨b, p, -, -, rfl⟩ := load_eq_ok_iff.1 hload
  have hperm := List.mergeSort_perm (p.dangling.filterMap fun r =>
    documents[r.origin]?.map (Diagnostic.ofDangling · r)) Diagnostic.precedes
  constructor
  case each =>
    intro w hw
    obtain ⟨r, hr, hwarning⟩ := List.mem_filterMap.1 (hperm.mem_iff.1 hw)
    obtain ⟨d, t, hd, ht, huse, hname⟩ := hreference hr
    rw [hd] at hwarning
    obtain rfl := Option.some.inj hwarning
    exact ⟨d, List.mem_of_getElem? hd, r.name, pointsAt_ofDangling ht huse hname⟩
  case sorted => exact Diagnostic.pairwise_mergeSort_precedes _
  case complete =>
    refine (hperm.map some).trans (.of_eq ?_)
    rw [List.map_filterMap_some_eq_filter_map_isSome]
    apply List.filter_eq_self.2
    intro warning hwarning
    obtain ⟨r, hr, rfl⟩ := List.mem_map.1 hwarning
    obtain ⟨d, -, hd, -⟩ := hreference hr
    rw [hd]
    rfl

def marked : List Document :=
  [{ path := "b.pat", text := "x='ß' m\n\ny=['é' n]{2}\n" },
    { path := "a.pat", text := "z='€' k x" }]

theorem pointed_of_load_marked :
    ∃ l, load marked false 128 = .ok l ∧
      l.warnings.map (fun w => (w.path, w.position, w.snippet)) =
        [("a.pat", ⟨1, 6⟩, some "z='€' k x"), ("b.pat", ⟨1, 6⟩, some "x='ß' m"),
          ("b.pat", ⟨3, 7⟩, some "y=['é' n]{2}"), ("b.pat", ⟨3, 7⟩, some "y=['é' n]{2}")] ∧
      Pointed marked l := by
  obtain ⟨l, hload, hwarnings⟩ : ∃ l, load marked false 128 = .ok l ∧
      l.warnings.map (fun w => (w.path, w.position, w.snippet)) =
        [("a.pat", ⟨1, 6⟩, some "z='€' k x"), ("b.pat", ⟨1, 6⟩, some "x='ß' m"),
          ("b.pat", ⟨3, 7⟩, some "y=['é' n]{2}"), ("b.pat", ⟨3, 7⟩, some "y=['é' n]{2}")] :=
    exists_load_of_map (by cbv)
  exact ⟨l, hload, hwarnings, pointed_of_load hload⟩

end Library
end LexicalPatterns
