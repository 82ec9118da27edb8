import LexicalPatterns.Text.Span

/-!
# Documents

A document is a source text with its path. Byte offsets are shown to readers as a line, counted
from one, and a column, which counts characters from zero.
-/

namespace LexicalPatterns

/-- The offsets after `offset` where lines start: behind each line feed that is not the last
byte. -/
def lineStartsFrom (offset : Nat) : List UInt8 → List Nat
  | [] => []
  | [_] => []
  | b :: c :: bs =>
    if b = 10 then (offset + 1) :: lineStartsFrom (offset + 1) (c :: bs)
    else lineStartsFrom (offset + 1) (c :: bs)

/-- The offsets where the lines of a text start. The first line starts at zero. -/
def lineStarts (text : String) : List Nat := 0 :: lineStartsFrom 0 text.toUTF8.toList

/-- A place in a text as readers know it. -/
structure Position where
  line : Nat
  column : Nat
  deriving DecidableEq, Repr

structure Document where
  path : String
  text : String
  starts : List Nat := lineStarts text
  starts_eq : starts = lineStarts text := by rfl

namespace Document

/-- The starts of the lines up to the one that holds an offset. Offsets behind the end count as
the end. -/
def startsUpTo (d : Document) (offset : Nat) : List Nat :=
  d.starts.takeWhile (· ≤ min offset d.text.utf8ByteSize)

def lineStart (d : Document) (offset : Nat) : Nat := ((d.startsUpTo offset).getLast?).getD 0

def startsCharacter (b : UInt8) : Bool := b &&& 0xC0 != 0x80

def position (d : Document) (offset : Nat) : Position where
  line := (d.startsUpTo offset).length
  column :=
    let before := d.text.toUTF8.extract (d.lineStart offset) (min offset d.text.utf8ByteSize)
    before.toList.countP startsCharacter

/-- The whole line of an offset, without its line feed. -/
def lineText (d : Document) (offset : Nat) : String :=
  let rest := (Span.mk (d.lineStart offset) d.text.utf8ByteSize).text d.text
  String.ofList (rest.toList.takeWhile (· ≠ '\n'))

end Document
end LexicalPatterns
