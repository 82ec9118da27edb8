/-!
# Escaped bytes

Literal bytes are shown in listings, summaries and messages by printable ASCII text: the quote
marks, the backslash and the common control characters after a backslash, every other byte outside
the printable range by its two hexadecimal digits.
-/

namespace LexicalPatterns

def hexDigit (n : Nat) : Char := Nat.digitChar n

def escapeByte (b : UInt8) : List Char :=
  if b = 9 then ['\\', 't']
  else if b = 10 then ['\\', 'n']
  else if b = 13 then ['\\', 'r']
  else if b = 34 then ['\\', '"']
  else if b = 39 then ['\\', '\'']
  else if b = 92 then ['\\', '\\']
  else if 0x20 ≤ b && b ≤ 0x7e then [Char.ofNat b.toNat]
  else ['\\', 'x', hexDigit (b.toNat / 16), hexDigit (b.toNat % 16)]

def escapeBytes (bytes : List UInt8) : String := String.ofList (bytes.flatMap escapeByte)

def quoteByte (b : UInt8) : String := "'" ++ escapeBytes [b] ++ "'"

end LexicalPatterns
