/-!
# YAML characters

The characters of YAML texts by their meaning, and places in a text. A text is made of lines, and
the column in which something starts matters.
-/

namespace LexicalPatterns.Yaml

def isBlank (c : Char) : Bool := c == ' ' || c == '\t'

/-- Whether a character ends a line. Other ways to end a line become line feeds beforehand. -/
def isBreak (c : Char) : Bool := c == '\n' || c == '\u2028' || c == '\u2029'

def isSpace (c : Char) : Bool := isBlank c || isBreak c

def atGap : List Char → Bool
  | [] => true
  | c :: _ => isSpace c

/-- The characters that bound scalars in flow collections. -/
def isFlowSign (c : Char) : Bool := c ∈ [',', '[', ']', '\x7b', '\x7d']

/-- The characters that mean something of their own where a plain scalar could start. -/
def isReserved (c : Char) : Bool :=
  isFlowSign c || c ∈ ['#', '&', '*', '!', '|', '>', '\'', '"', '%', '@', '\x60']

def isAllowed (c : Char) : Bool :=
  c = '\t' || c = '\n' || c = '\r' || (' ' ≤ c && c ≤ '~') || c = '\u0085' ||
    ('\u00a0' ≤ c && c ≠ '\uFFFE' && c ≠ '\uFFFF')

/-- One line feed for a carriage return, with or without a line feed, and for a next-line
character. -/
def unifyBreaks : List Char → List Char
  | [] => []
  | '\r' :: '\n' :: cs => '\n' :: unifyBreaks cs
  | c :: cs => (if c = '\r' || c = '\u0085' then '\n' else c) :: unifyBreaks cs

structure Place where
  line : Nat := 0
  column : Nat := 0
  deriving DecidableEq, Repr

def Place.after (p : Place) : List Char → Place
  | [] => p
  | c :: cs => after (if isBreak c then ⟨p.line + 1, 0⟩ else ⟨p.line, p.column + 1⟩) cs

/-- Whether the text starts like a line that bounds a document. -/
def startsMarker (cs : List Char) : Bool :=
  (cs.take 3 == ['-', '-', '-'] || cs.take 3 == ['.', '.', '.']) && atGap (cs.drop 3)

def hasMarker : List Char → Bool
  | [] => false
  | c :: cs => (isBreak c && startsMarker cs) || hasMarker cs

end LexicalPatterns.Yaml
