/-!
# Spans

A span is a half-open range of byte offsets into a source text. Tokens and syntax nodes refer to
their text through spans and never own a copy of it.
-/

namespace LexicalPatterns

/-- The bytes of a source from `start` up to, and without, `stop`. -/
structure Span where
  start : Nat
  stop : Nat
  deriving DecidableEq, Repr, Inhabited

namespace Span

def empty (offset : Nat) : Span := ⟨offset, offset⟩

def length (s : Span) : Nat := s.stop - s.start

def isEmpty (s : Span) : Bool := s.start == s.stop

def join (a b : Span) : Span := ⟨min a.start b.start, max a.stop b.stop⟩

def text (s : Span) (source : String) : String :=
  String.Pos.Raw.extract source ⟨s.start⟩ ⟨s.stop⟩

def display (s : Span) : String := toString s.start ++ ".." ++ toString s.stop

end Span
end LexicalPatterns
