import LexicalPatterns.Proofs.Listings.Lines
import LexicalPatterns.Proofs.Tokens.Tiling

/-!
# Listings of tokens

The listing of the tokens of a document has an entry for each token, after one with its path. The
text of a token stands in its entry as it is in the document, so an entry has the line feeds of that
text. Only quoted literals can have any, and the listing has one line for each token exactly where
none of them does.
-/

namespace LexicalPatterns

/-- Only the text of a quoted literal can have a line feed. -/
theorem Shape.notMem_lineFeed {kind : TokenKind} {text rest : List Char} (h : Shape kind text rest)
    (hkind : kind ≠ .quote) : '\n' ∉ text := by
  intro hmem
  cases h with
  | mark m => cases m <;> simp [Mark.char] at hmem
  | number _ hdigit => exact absurd (hdigit _ hmem) (by decide)
  | quote => exact hkind rfl
  | identifier _ hname => exact absurd (hname _ hmem) (by decide)
  | unknown hblank =>
    obtain rfl := List.mem_singleton.1 hmem
    exact absurd hblank (by decide)

theorem TokenKind.notMem_display (kind : TokenKind) : '\n' ∉ kind.display.toList := by
  cases kind with
  | mark m => cases m <;> decide
  | _ => decide

namespace Token

variable {d : Document} {t : Token}

theorem count_line (d : Document) (t : Token) :
    (t.line d).toList.count '\n' = (t.text d.text).toList.count '\n' := by
  have hnumber (n : Nat) : (toString n).toList.count '\n' = 0 :=
    List.count_eq_zero.2 fun h => absurd (isDigit_of_mem_toString h) (by decide)
  have hkind : t.kind.display.toList.count '\n' = 0 := List.count_eq_zero.2 t.kind.notMem_display
  have hspaces (n : Nat) : (List.replicate n ' ').count '\n' = 0 :=
    List.count_eq_zero.2 fun h => absurd (List.eq_of_mem_replicate h) (by decide)
  have hcolon : ":".toList.count '\n' = 0 := by decide
  have hspace : " ".toList.count '\n' = 0 := by decide
  simp only [line, String.toList_append, toList_padLeft, toList_padRight, List.count_append,
    hnumber, hkind, hspaces, hcolon, hspace, Nat.zero_add]

end Token

section Entries

variable {d : Document} {tokens : List Token} {t : Token}

/-- An entry has a line feed where its token is a quoted literal with one. -/
theorem TokensTile.lineFeed_mem_line_iff (h : TokensTile d.text tokens) (ht : t ∈ tokens) :
    '\n' ∈ (t.line d).toList ↔ t.kind = .quote ∧ '\n' ∈ (t.text d.text).toList := by
  rw [← List.count_pos_iff, Token.count_line, List.count_pos_iff]
  constructor
  · intro hmem
    exact ⟨by_contra fun hkind => (h.shape t ht).notMem_lineFeed hkind hmem, hmem⟩
  · exact fun hquote => hquote.2

theorem TokensTile.sum_count_line (h : TokensTile d.text tokens) :
    ((tokens.map (Token.line d)).map fun l => l.toList.count '\n').sum =
      ((tokens.filter (·.kind = .quote)).map fun t => (t.text d.text).toList.count '\n').sum := by
  have hsplit := List.sum_map_filter_add_sum_map_filter_not (·.kind = .quote)
    (fun t : Token => (t.text d.text).toList.count '\n') tokens
  have hothers : ((tokens.filter fun t => ¬ t.kind = .quote).map
      fun t => (t.text d.text).toList.count '\n').sum = 0 := by
    rw [List.sum_eq_zero_iff, List.forall_mem_map]
    intro t ht
    obtain ⟨ht, hkind⟩ := List.mem_filter.1 ht
    exact List.count_eq_zero.2 ((h.shape t ht).notMem_lineFeed (by simpa using hkind))
  simp only [List.map_map, Function.comp_def, Token.count_line]
  omega

end Entries

namespace Document

variable {d : Document} {tokens : List Token}

/-- What the listing of the tokens of a document is. Each token has an entry, in order, which is a
line of its own unless the token is a quoted literal with a line feed in it. So the listing has as
many line feeds more than entries as there are in quoted literals, and it has one line for each
entry exactly where there are none. -/
structure ListsTokens (d : Document) (tokens : List Token) : Prop where
  entries : d.tokenListing tokens = unlines ((d.path ++ ":") :: tokens.map (Token.line d))
  lineFeed_iff : ∀ t ∈ tokens, '\n' ∈ (t.line d).toList ↔
    t.kind = .quote ∧ '\n' ∈ (t.text d.text).toList
  count : (d.tokenListing tokens).toList.count '\n' = 1 + tokens.length +
    ((tokens.filter (·.kind = .quote)).map fun t => (t.text d.text).toList.count '\n').sum
  lines : (∀ t ∈ tokens, t.kind = .quote → '\n' ∉ (t.text d.text).toList) →
    IsLines (d.tokenListing tokens) ((d.path ++ ":") :: tokens.map (Token.line d))
  exists_lines_iff :
    (∃ lines, lines.length = 1 + tokens.length ∧ IsLines (d.tokenListing tokens) lines) ↔
      ∀ t ∈ tokens, t.kind = .quote → '\n' ∉ (t.text d.text).toList

/-- The listing of the tokens that a document is scanned into has one line for each of them, apart
from the line feeds in quoted literals. -/
theorem listsTokens_of_tokenize (hpath : '\n' ∉ d.path.toList)
    (htokens : tokenize d.text = .ok tokens) : d.ListsTokens tokens := by
  have htile := tokensTile_of_tokenize htokens
  have hheader : '\n' ∉ (d.path ++ ":").toList := by simpa using hpath
  have hcount : (d.tokenListing tokens).toList.count '\n' = 1 + tokens.length +
      ((tokens.filter (·.kind = .quote)).map fun t => (t.text d.text).toList.count '\n').sum := by
    rw [tokenListing, count_unlines, List.map_cons, List.sum_cons, List.count_eq_zero.2 hheader,
      htile.sum_count_line, List.length_cons, List.length_map]
    omega
  have hlines (hsingle : ∀ t ∈ tokens, t.kind = .quote → '\n' ∉ (t.text d.text).toList) :
      IsLines (d.tokenListing tokens) ((d.path ++ ":") :: tokens.map (Token.line d)) := by
    refine ⟨rfl, List.forall_mem_cons.2 ⟨hheader, List.forall_mem_map.2 fun t ht hmem => ?_⟩⟩
    obtain ⟨hkind, hmem⟩ := (htile.lineFeed_mem_line_iff ht).1 hmem
    exact hsingle t ht hkind hmem
  constructor
  case entries => rfl
  case lineFeed_iff => exact fun t ht => htile.lineFeed_mem_line_iff ht
  case count => exact hcount
  case lines => exact hlines
  case exists_lines_iff =>
    constructor
    · -- more lines than that take more line feeds
      rintro ⟨lines, hlength, h⟩ t ht hkind
      have hzero := h.count_eq
      rw [hcount, hlength, Nat.add_eq_left, List.sum_eq_zero_iff, List.forall_mem_map] at hzero
      exact List.count_eq_zero.1 (hzero t (List.mem_filter.2 ⟨ht, decide_eq_true hkind⟩))
    · intro hsingle
      refine ⟨_, ?_, hlines hsingle⟩
      rw [List.length_cons, List.length_map, Nat.add_comm]

/-- A literal that goes on in the next line takes its entry there. -/
theorem listsTokens_of_tokenize_broken :
    let d : Document := { path := "a.pat", text := "x='\n'" }
    let tokens : List Token :=
      [⟨.identifier, ⟨0, 1⟩⟩, ⟨.mark .equal, ⟨1, 2⟩⟩, ⟨.quote, ⟨2, 5⟩⟩]
    '\n' ∉ d.path.toList ∧ tokenize d.text = .ok tokens ∧
      d.tokenListing tokens = unlines ["a.pat:", "   1:0    identifier         x",
        "   1:1    `=`                =", "   1:2    quoted literal     '", "'"] ∧
      d.ListsTokens tokens := by
  intro d tokens
  have hpath : '\n' ∉ d.path.toList := by decide
  have htokens : tokenize d.text = .ok tokens := by cbv
  exact ⟨hpath, htokens, by cbv, listsTokens_of_tokenize hpath htokens⟩

end Document
end LexicalPatterns
