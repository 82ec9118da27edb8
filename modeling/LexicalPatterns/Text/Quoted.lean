import LexicalPatterns.Text.GraphemeExtend
import LexicalPatterns.Text.Printable

/-!
# Quoted text

Reports show inputs between double quote marks, with an escape for every character that could not
be seen or would end the text.
-/

namespace LexicalPatterns

def hexDigits (n : Nat) : String := String.ofList (Nat.toDigits 16 n)

/-- The voiced sound marks of half width, which extend the character before them and yet have a form
of their own. -/
def isSoundMark (c : Char) : Bool := c == '\uFF9E' || c == '\uFF9F'

/-- The letters that fill a place in a syllable and show nothing. -/
def isFiller (c : Char) : Bool := c ∈ ['\u115F', '\u1160', '\u3164', '\uFFA0']

/-- Whether a character can be told from the others in a text. Those that join the one before them
cannot, wherever they stand. -/
def isVisible (c : Char) : Bool :=
  isPrintable c && !isFiller c && (!isGraphemeExtend c || isSoundMark c)

def quotedChar (c : Char) : String :=
  if c = '\x00' then "\\0"
  else if c = '\t' then "\\t"
  else if c = '\r' then "\\r"
  else if c = '\n' then "\\n"
  else if c = '"' then "\\\""
  else if c = '\\' then "\\\\"
  else if ' ' ≤ c && c ≤ '~' then c.toString
  else if isVisible c then c.toString
  else "\\u\x7b" ++ hexDigits c.toNat ++ "\x7d"

def quoted (s : String) : String := "\"" ++ String.join (s.toList.map quotedChar) ++ "\""

end LexicalPatterns
