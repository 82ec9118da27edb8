import LexicalPatterns.Proofs.Batch.Blame
import LexicalPatterns.Proofs.Documents.Lookup

/-!
# Refusals have a place

Whatever a batch refuses a source for, the refusal has a span of the source, and a diagnostic can be
made of it that shows a line of the source. Nothing on the way there can fail: no span is made with
its ends in the wrong order, and no text is taken that is not a part of the source.
-/

namespace LexicalPatterns.Batch

variable {b : Batch} {source : String}

/-- Whether every refusal of a source by a batch has a place. Reading the source fails no check. The
spans of its tokens and of the nodes of its definitions, which are all that texts are taken of, are
spans of the source, and so is that of a refusal. The diagnostic of a refusal is found by checked
lookups and shows a line of the source. -/
structure Locates (b : Batch) (source : String) : Prop where
  scanned : ∀ r, ByteScan.Walks 0 source.toUTF8.data.toList r ↔ r = tokenize source
  read : (Checked.read source).run = some (definitions source)
  tokens : ∀ ts, tokenize source = .ok ts →
    ∀ t ∈ ts, t.span.text? source = some (t.text source)
  nodes : ∀ fs, definitions source = .ok fs →
    ∀ f ∈ fs, ∀ n ∈ f.nodes, n.span.text? source = some (n.span.text source)
  refused : ∀ e b', b.defineSource source = (.error e, b') → e.span.Fits source
  diagnosed : ∀ e b' d, b.defineSource source = (.error e, b') → d.text = source →
    Diagnostic.atSpan? d e.span .error e.message = some (.ofError d e) ∧
      (Diagnostic.ofError d e).Shows d

/-- Whatever a batch has been asked for, what it refuses a source for has a place in the source. -/
theorem locates_after (rs : List Request) (source : String) :
    (empty.respondAll rs).2.Locates source := by
  have h : (empty.respondAll rs).2.WellFormed := wellFormed_empty.respondAll rs
  generalize (empty.respondAll rs).2 = b at h
  constructor
  case scanned => exact ByteScan.walks_iff source
  case read => exact (Checked.safe_read source).run_eq
  case tokens =>
    intro ts hts t ht
    exact Span.text?_eq ((tokensTile_of_tokenize hts).fits t ht)
  case nodes =>
    intro fs hfs f hf n hn
    exact Span.text?_eq (fits_of_definitions hfs hf hn).2
  case refused =>
    intro e b' hsource
    exact (h.points hsource).fits
  case diagnosed =>
    intro e b' d _ _
    exact ⟨Diagnostic.atSpan?_eq d e.span _ _, Diagnostic.shows_atSpan d e.span _ _⟩

end LexicalPatterns.Batch
