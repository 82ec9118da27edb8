import LexicalPatterns.Token.Basic
import LexicalPatterns.Token.Quote

/-!
# Scanning

`tokenize` splits a source into its tokens. Tabs, line feeds and spaces separate tokens and are
skipped. A character that starts no token is a token of its own, so only malformed quoted literals
are refused.
-/

namespace LexicalPatterns

/-- Why a quoted literal is refused. -/
inductive ScanError where
  | unterminatedQuote (span : Span)
  | emptyQuote (span : Span)
  | invalidEscape (escape : Char) (span : Span)
  deriving DecidableEq, Repr

namespace ScanError

def span : ScanError → Span
  | unterminatedQuote s => s
  | emptyQuote s => s
  | invalidEscape _ s => s

def message : ScanError → String
  | unterminatedQuote _ => "unterminated quote"
  | emptyQuote _ => "empty quote literal"
  | invalidEscape c _ => "unknown escape sequence `\\" ++ c.toString ++ "`"

end ScanError

/-- Whether a character only separates tokens. -/
def isBlank (c : Char) : Bool := c == '\t' || c == '\n' || c == ' '

/-- Whether a character belongs to identifiers, which hold ASCII letters and underscores. -/
def isNameChar (c : Char) : Bool := c.isAlpha || c == '_'

/-- The rest of a quoted literal opened at `start`, read from `offset` through its closing mark:
the offset after the mark and the characters after it. -/
def closeQuote (start : Nat) : Nat → List Char → Except ScanError (Nat × List Char)
  | offset, [] => .error (.unterminatedQuote ⟨start, offset⟩)
  | offset, c :: cs =>
    if c = '\'' then .ok (offset + 1, cs)
    else if c = '\\' then
      match cs with
      | [] => .error (.unterminatedQuote ⟨start, offset + 1⟩)
      | e :: cs =>
        if Quote.isEscape e then closeQuote start (offset + 2) cs
        else .error (.invalidEscape e ⟨offset, offset + 1 + e.utf8Size⟩)
    else closeQuote start (offset + c.utf8Size) cs

/-- The first token of a text: its class, the offset where it stops, and the text after it. -/
structure Lexeme where
  kind : TokenKind
  stop : Nat
  rest : List Char

namespace Lexeme

/-- A token of all leading characters of a class of ASCII characters, the first one known. -/
def run (kind : TokenKind) (isMember : Char → Bool) (start : Nat) (cs : List Char) : Lexeme :=
  ⟨kind, start + 1 + (cs.takeWhile isMember).length, cs.dropWhile isMember⟩

def read (start : Nat) (c : Char) (cs : List Char) : Except ScanError Lexeme :=
  match Mark.ofChar? c with
  | some m => .ok ⟨.mark m, start + 1, cs⟩
  | none =>
    if c.isDigit then .ok (run .number Char.isDigit start cs)
    else if c = '\'' then
      match closeQuote start (start + 1) cs with
      | .error e => .error e
      | .ok (stop, rest) =>
        if stop - start ≤ 2 then .error (.emptyQuote ⟨start, stop⟩)
        else .ok ⟨.quote, stop, rest⟩
    else if isNameChar c then .ok (run .identifier isNameChar start cs)
    else .ok ⟨.unknown, start + c.utf8Size, cs⟩

end Lexeme

theorem closeQuote_length {start offset stop : Nat} {cs rest : List Char}
    (h : closeQuote start offset cs = .ok (stop, rest)) : rest.length < cs.length := by
  fun_induction closeQuote start offset cs with
  | case1 => simp at h
  | case2 => simp_all
  | case3 => simp at h
  | case4 offset e cs _ he ih =>
    have := ih h
    simp only [List.length_cons]
    omega
  | case5 => simp at h
  | case6 offset c cs _ _ ih =>
    have := ih h
    simp only [List.length_cons]
    omega

theorem length_dropWhile_le (p : Char → Bool) (cs : List Char) :
    (cs.dropWhile p).length ≤ cs.length :=
  (List.dropWhile_suffix p).length_le

theorem Lexeme.length_rest {start : Nat} {c : Char} {cs : List Char} {l : Lexeme}
    (h : Lexeme.read start c cs = .ok l) : l.rest.length ≤ cs.length := by
  simp only [read] at h
  split at h
  · cases h; exact Nat.le_refl _
  · split at h
    · cases h; exact length_dropWhile_le _ _
    · split at h
      · split at h
        · cases h
        · rename_i hq
          split at h
          · cases h
          · cases h
            exact Nat.le_of_lt (closeQuote_length hq)
      · split at h
        · cases h; exact length_dropWhile_le _ _
        · cases h; exact Nat.le_refl _

def tokensFrom (offset : Nat) (cs : List Char) : Except ScanError (List Token) :=
  match cs with
  | [] => .ok []
  | c :: cs =>
    if isBlank c then tokensFrom (offset + 1) cs
    else
      match h : Lexeme.read offset c cs with
      | .error e => .error e
      | .ok l =>
        have := Lexeme.length_rest h
        (tokensFrom l.stop l.rest).map (⟨l.kind, ⟨offset, l.stop⟩⟩ :: ·)
termination_by cs.length

def tokenize (source : String) : Except ScanError (List Token) := tokensFrom 0 source.toList

end LexicalPatterns
