import LexicalPatterns.Proofs.Library.Pointing

/-!
# Columns within the shown line

A diagnostic points at a character of the line that it shows, or right behind the last one. There is
one exception: what misses something at the end of a document that ends with a line feed points one
column further, for the column counts the line feed, which the line is shown without.
-/

namespace LexicalPatterns

/-- Whether a diagnostic points at a character of the line that it shows, or right behind the last
one. -/
def Diagnostic.PointsInside (a : Diagnostic) : Prop :=
  ∃ line, a.snippet = some line ∧ a.position.column ≤ line.toList.length

/-- Whether a refusal of a document misses something at its end, behind a line feed. -/
def PatternError.MissesBehindFeed (d : Document) (e : PatternError) : Prop :=
  d.text.toList.getLast? = some '\n' ∧
    ∃ expected, e = .parse (.unexpectedEnd expected (.empty d.text.utf8ByteSize))

namespace Diagnostic

variable {d : Document} {span : Span}

theorem pointsInside_atSpan (hfits : span.Fits d.text) (hlt : span.start < span.stop)
    (severity : Severity) (message : String) : (atSpan d span severity message).PointsInside := by
  have hend : span.start < d.text.utf8ByteSize := Nat.lt_of_lt_of_le hlt hfits.stop_le
  exact ⟨d.lineText span.start, rfl, Document.column_le_of_lt hfits.start hend⟩

/-- A refusal at the end of a document points behind the shown line, and behind the line feed too if
there is one. -/
theorem column_ofError_end (d : Document) (expected : Expected) :
    let a := ofError d (.parse (.unexpectedEnd expected (.empty d.text.utf8ByteSize)))
    ∃ line, a.snippet = some line ∧ a.position.column =
      line.toList.length + if d.text.toList.getLast? = some '\n' then 1 else 0 :=
  ⟨d.lineText d.text.utf8ByteSize, rfl, d.column_end⟩

/-- A refusal points inside the line, unless it misses something behind a line feed at the end. -/
theorem pointsInside_ofError_iff {e : PatternError} (h : e.Points d.text) :
    (ofError d e).PointsInside ↔ ¬ e.MissesBehindFeed d := by
  rcases h.nonempty with hlt | ⟨expected, rfl⟩
  · refine ⟨?_, fun _ => pointsInside_atSpan h.fits hlt _ _⟩
    rintro - ⟨-, expected, rfl⟩
    exact Nat.lt_irrefl _ hlt
  · obtain ⟨line, hline, hcolumn⟩ := column_ofError_end d expected
    constructor
    · rintro ⟨line', hline', hle⟩ ⟨hfeed, -⟩
      obtain rfl := Option.some.inj (hline.symm.trans hline')
      rw [hcolumn, if_pos hfeed] at hle
      omega
    · intro hnot
      have hfeed : d.text.toList.getLast? ≠ some '\n' := fun hfeed => hnot ⟨hfeed, expected, rfl⟩
      rw [if_neg hfeed] at hcolumn
      exact ⟨line, hline, Nat.le_of_eq hcolumn⟩

end Diagnostic

namespace Library

variable {limit : Nat} {strict : Bool} {documents : List Document} {b : Batch} {a : Diagnostic}
  {l : Library}

/-- Adding documents to a batch is refused for a refusal of one of them. -/
theorem exists_points_of_collect {origin : Nat} (h : b.WellFormed)
    (hcollect : collect origin documents b = .error a) :
    ∃ d ∈ documents, ∃ e : PatternError, e.Points d.text ∧ a = .ofError d e := by
  induction documents generalizing origin b with
  | nil => cases hcollect
  | cons d ds ih =>
    have hb := h.withOrigin origin
    have hnext := hb.respond (.source d.text)
    unfold collect at hcollect
    rcases hsource : (b.withOrigin origin).defineSource d.text with ⟨e | placed, b₁⟩
    · rw [hsource] at hcollect
      exact ⟨d, List.mem_cons_self, e, hb.points hsource, (Except.error.inj hcollect).symm⟩
    · rw [hsource] at hcollect
      have hb₁ : b₁.WellFormed := by simpa [Batch.respond, hsource] using hnext
      obtain ⟨d', hd', hrest⟩ := ih hb₁ hcollect
      exact ⟨d', List.mem_cons_of_mem d hd', hrest⟩

theorem exists_fits_of_mem_dangling {r : Dangling} (hload : load documents false limit = .ok l)
    (hr : r ∈ l.program.dangling) : ∃ d, documents[r.origin]? = some d ∧
      r.span.start < r.span.stop ∧ r.span.Fits d.text := by
  obtain ⟨d, t, hd, ht, huse, -⟩ := exists_reference_of_mem_dangling hload hr
  have hspan : t.span = r.span := congrArg Prod.snd huse
  have hfits := ht.fits
  rw [hspan] at hfits
  exact ⟨d, hd, hfits⟩

theorem exists_points_of_load (hload : load documents strict limit = .error a) :
    ∃ d ∈ documents, ∃ e : PatternError, e.Points d.text ∧ a = .ofError d e := by
  have hlenient (hload : load documents false limit = .error a) :
      ∃ d ∈ documents, ∃ e : PatternError, e.Points d.text ∧ a = .ofError d e := by
    obtain hcollect | ⟨b, e, -, -, hfinish, -⟩ := load_eq_error_iff.1 hload
    · exact exists_points_of_collect Batch.wellFormed_empty hcollect
    · cases hfinish
  cases strict with
  | false => exact hlenient hload
  | true =>
    obtain hfalse | ⟨l, r, rest, d, hl, hdangling, hd, rfl⟩ := load_true_eq_error_iff.1 hload
    · exact hlenient hfalse
    · -- a reference that no definition answers stands in one of the documents
      obtain ⟨d', hd', hlt, hfits⟩ :=
        exists_fits_of_mem_dangling hl (hdangling ▸ List.mem_cons_self)
      obtain rfl := Option.some.inj (hd.symm.trans hd')
      exact ⟨d, List.mem_of_getElem? hd, .compile (.unknownPattern r.name r.span r.origin),
        ⟨hfits, .inl hlt⟩, rfl⟩

theorem pointsInside_of_mem_warnings (hload : load documents false limit = .ok l)
    (ha : a ∈ l.warnings) : a.PointsInside := by
  have hstands {r : Dangling} := exists_fits_of_mem_dangling (r := r) hload
  obtain ⟨b, p, -, -, rfl⟩ := load_eq_ok_iff.1 hload
  obtain ⟨r, hr, hwarning⟩ := List.mem_filterMap.1 ((List.mergeSort_perm _ _).mem_iff.1 ha)
  obtain ⟨d, hd, hlt, hfits⟩ := hstands hr
  rw [hd] at hwarning
  obtain rfl := Option.some.inj hwarning
  exact Diagnostic.pointsInside_atSpan hfits hlt _ _

/-- Where the diagnostics of loading documents point: inside the lines that they show, unless
something is missed behind a line feed at the end of a document, which is shown one column behind
the line's end. -/
structure Columns (documents : List Document) (strict : Bool) (limit : Nat) : Prop where
  warned : ∀ l, load documents strict limit = .ok l → ∀ a ∈ l.warnings, a.PointsInside
  refused : ∀ a, load documents strict limit = .error a → ∃ d ∈ documents, ∃ e : PatternError,
    a = .ofError d e ∧ (a.PointsInside ↔ ¬ e.MissesBehindFeed d) ∧
      (e.MissesBehindFeed d → ∃ line, a.snippet = some line ∧
        a.position.column = line.toList.length + 1)

theorem columns (documents : List Document) (strict : Bool) (limit : Nat) :
    Columns documents strict limit := by
  constructor
  case warned =>
    intro l hload a ha
    cases strict with
    | false => exact pointsInside_of_mem_warnings hload ha
    | true => exact pointsInside_of_mem_warnings (load_true_eq_ok_iff.1 hload).1 ha
  case refused =>
    intro a hload
    obtain ⟨d, hd, e, hpoints, rfl⟩ := exists_points_of_load hload
    refine ⟨d, hd, e, rfl, Diagnostic.pointsInside_ofError_iff hpoints, ?_⟩
    rintro ⟨hfeed, expected, rfl⟩
    obtain ⟨line, hline, hcolumn⟩ := Diagnostic.column_ofError_end d expected
    rw [if_pos hfeed] at hcolumn
    exact ⟨line, hline, hcolumn⟩

/-- A pattern that is missed behind a line feed, at column 3 of a line of two characters. -/
example : let d : Document := { path := "a.pat", text := "a=\n" }
    Batch.definitions d.text = .error (.parse (.unexpectedEnd .pattern ⟨3, 3⟩)) ∧
      d.position 3 = ⟨1, 3⟩ ∧ d.lineText 3 = "a=" := by
  refine ⟨?_, ?_, ?_⟩ <;> cbv

end Library
end LexicalPatterns
