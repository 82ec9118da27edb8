/-!
# Quoted literals

A quoted literal stands between single quote marks. Inside it a backslash and one of ten
characters stand for one byte; everything else stands for itself.
-/

namespace LexicalPatterns.Quote

def escapeValue? (b : UInt8) : Option UInt8 :=
  if b = 97 then some 7          -- \a
  else if b = 98 then some 8     -- \b
  else if b = 102 then some 12   -- \f
  else if b = 110 then some 10   -- \n
  else if b = 114 then some 13   -- \r
  else if b = 116 then some 9    -- \t
  else if b = 118 then some 11   -- \v
  else if b = 92 ∨ b = 39 ∨ b = 34 then some b
  else none

def isEscape (c : Char) : Bool := c.val < 128 && (escapeValue? c.val.toUInt8).isSome

/-- The bytes that the inside of a literal stands for. An unknown escape yields the byte after the
backslash, and a backslash at the end yields nothing. -/
def decode : List UInt8 → List UInt8
  | [] => []
  | b :: bs =>
    if b = 92 then
      match bs with
      | [] => []
      | e :: bs => (escapeValue? e).getD e :: decode bs
    else b :: decode bs

def bytes (literal : String) : List UInt8 :=
  decode (literal.toUTF8.toList.drop 1).dropLast

end LexicalPatterns.Quote
