/-!
# Ranges of code points

A property of characters is kept as a list of ranges of code points, in ascending order.
-/

namespace LexicalPatterns

/-- Whether the code point of a character lies in one of the ranges, which include their ends. -/
def inRanges (ranges : List (Nat × Nat)) (c : Char) : Bool :=
  ranges.any fun (low, high) => low ≤ c.toNat && c.toNat ≤ high

end LexicalPatterns
