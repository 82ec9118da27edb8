import LexicalPatterns.Yaml.Scalar

/-!
# YAML tokens

The plain part of YAML: block and flow collections, plain and quoted scalars, comments and document
markers. Indentation bounds block collections, so tokens of their own say where one starts and ends.
That a scalar or a flow collection is a key shows only at the colon behind it, so the scanner
remembers where a key may have started. Texts outside of that part have no tokens.
-/

namespace LexicalPatterns.Yaml

inductive Token where
  /-- A scalar; `plain` when it has no quote marks. -/
  | scalar (text : String) (plain : Bool)
  /-- The start of a block list. -/
  | blockList
  /-- The start of a block map. -/
  | blockMap
  /-- The end of a block collection. -/
  | blockEnd
  | entry
  /-- The start of a key. -/
  | key
  | colon | openList | closeList | openMap | closeMap | comma
  | documentStart | documentEnd
  deriving DecidableEq, Repr

structure KeyStart where
  place : Place
  /-- How many tokens come before the key. -/
  index : Nat
  /-- Whether nothing but a key can stand there. -/
  isRequired : Bool
  deriving DecidableEq, Repr

/-- Whether a key that starts there is too far away from a place to end at it. -/
def KeyStart.isPast (k : KeyStart) (p : Place) : Bool :=
  k.place.line < p.line || k.place.column + 1024 < p.column

structure Scanner where
  rest : List Char
  place : Place := {}
  tokens : Array Token := #[]
  /-- The columns of the open block collections, the innermost first. -/
  indents : List Nat := []
  /-- Whether a key may start here. -/
  keyAllowed : Bool := true
  /-- Where a key may have started in the innermost open flow collection, or outside of all. -/
  keyStart : Option KeyStart := none
  /-- The same for what is around each open flow collection, the innermost first. -/
  outerKeys : List (Option KeyStart) := []

namespace Scanner

def inFlow (s : Scanner) : Bool := !s.outerKeys.isEmpty

/-- The first column for what belongs to the innermost block collection. -/
def limit (s : Scanner) : Nat := (s.indents.head?.map (· + 1)).getD 0

/-- Skips white space and comments. Tabs must not stand where a key may start, for they are no
indentation. A line may start with a byte order mark. -/
def skipSpace (s : Scanner) (inComment : Bool) : List Char → Scanner
  | [] => { s with rest := [] }
  | c :: cs =>
    let next := { s with place := s.place.after [c] }
    if isBreak c then skipSpace { next with keyAllowed := s.keyAllowed || !s.inFlow } false cs
    else if inComment || c == '#' then skipSpace next true cs
    else if c == ' ' || (c == '\t' && (s.inFlow || !s.keyAllowed)) ||
        (c == '\uFEFF' && s.place.column == 0) then skipSpace next false cs
    else { s with rest := c :: cs }

/-- Gives up the keys that started too far away. One that is required must not be given up. -/
def expireKeys (s : Scanner) : Option Scanner :=
  let isPast (k : KeyStart) := k.isPast s.place
  if (s.keyStart :: s.outerKeys).any (·.any fun k => k.isRequired && isPast k) then none
  else
    some { s with
      keyStart := s.keyStart.filter (!isPast ·)
      outerKeys := s.outerKeys.map (·.filter (!isPast ·)) }

def dropKey (s : Scanner) : Option Scanner :=
  if s.keyStart.any (·.isRequired) then none else some { s with keyStart := none }

def markKey (s : Scanner) : Option Scanner :=
  if s.keyAllowed then do
    let isRequired := !s.inFlow && s.indents.head? == some s.place.column
    return { ← s.dropKey with keyStart := some ⟨s.place, s.tokens.size, isRequired⟩ }
  else some s

def insert (s : Scanner) (index : Nat) (t : Token) : Scanner :=
  { s with tokens := s.tokens.insertIdxIfInBounds index t }

/-- Opens a block collection in a column, unless one is open there. Its token goes before those from
`index` on. -/
def openBlock (s : Scanner) (column index : Nat) (t : Token) : Scanner :=
  if s.inFlow || s.indents.head?.any (column ≤ ·) then s
  else { s.insert index t with indents := column :: s.indents }

def closeBlocks (s : Scanner) (isClosed : Nat → Bool) : Scanner :=
  if s.inFlow then s
  else
    { s with
      tokens := s.tokens ++ Array.replicate (s.indents.takeWhile isClosed).length .blockEnd
      indents := s.indents.dropWhile isClosed }

def sign (s : Scanner) (length : Nat) (t : Token) : Scanner :=
  { s with
    rest := s.rest.drop length
    place := s.place.after (s.rest.take length)
    tokens := s.tokens.push t }

def marker (s : Scanner) (t : Token) : Option Scanner := do
  let s ← (s.closeBlocks fun _ => true).dropKey
  return { s.sign 3 t with keyAllowed := false }

def openFlow (s : Scanner) (t : Token) : Option Scanner := do
  let s ← s.markKey
  return { s.sign 1 t with
    keyAllowed := true, keyStart := none, outerKeys := s.keyStart :: s.outerKeys }

def closeFlow (s : Scanner) (t : Token) : Option Scanner := do
  let s ← s.dropKey
  let closed := { s.sign 1 t with keyAllowed := false }
  match s.outerKeys with
  | [] => return closed
  | keyStart :: outerKeys => return { closed with keyStart, outerKeys }

def comma (s : Scanner) : Option Scanner := do
  let s ← s.dropKey
  return { s.sign 1 .comma with keyAllowed := true }

def entry (s : Scanner) : Option Scanner := do
  if !s.inFlow && !s.keyAllowed then none
  let s ← (s.openBlock s.place.column s.tokens.size .blockList).dropKey
  return { s.sign 1 .entry with keyAllowed := true }

def longKey (s : Scanner) : Option Scanner := do
  if !s.inFlow && !s.keyAllowed then none
  let s ← (s.openBlock s.place.column s.tokens.size .blockMap).dropKey
  return { s.sign 1 .key with keyAllowed := !s.inFlow }

/-- Reads a colon. If a key may have started before it, there is that key. -/
def colon (s : Scanner) : Option Scanner :=
  match s.keyStart with
  | some k =>
    let s := (s.insert k.index .key).openBlock k.place.column k.index .blockMap
    some { s.sign 1 .colon with keyAllowed := false, keyStart := none }
  | none =>
    if !s.inFlow && !s.keyAllowed then none
    else
      let s := s.openBlock s.place.column s.tokens.size .blockMap
      some { s.sign 1 .colon with keyAllowed := !s.inFlow }

def quoted (s : Scanner) (mark : Char) (cs : List Char) : Option Scanner := do
  let s ← s.markKey
  let (text, rest) ← readQuoted mark cs
  let read := s.sign (s.rest.length - rest.length) (.scalar (String.ofList text) false)
  return { read with keyAllowed := false }

def plain (s : Scanner) : Option Scanner := do
  let s ← s.markKey
  let read ← readPlain s.limit s.inFlow [] [] s.place s.rest
  return { s with
    rest := read.rest
    place := read.place
    tokens := s.tokens.push (.scalar (String.ofList read.text) true)
    keyAllowed := read.broken }

def read (s : Scanner) (c : Char) (cs : List Char) : Option Scanner :=
  if s.place.column == 0 && startsMarker (c :: cs) then
    s.marker (if c = '-' then .documentStart else .documentEnd)
  else
    match c with
    | '[' => s.openFlow .openList
    | '\x7b' => s.openFlow .openMap
    | ']' => s.closeFlow .closeList
    | '\x7d' => s.closeFlow .closeMap
    | ',' => s.comma
    | '\'' | '"' => s.quoted c cs
    | '-' => if atGap cs then s.entry else s.plain
    | '?' => if s.inFlow || atGap cs then s.longKey else s.plain
    | ':' => if s.inFlow || atGap cs then s.colon else s.plain
    | c => if isReserved c || isSpace c then none else s.plain

/-- Reads all tokens. Each step reads a character, so `fuel` is enough if it is larger than the
number of characters. -/
def run : (fuel : Nat) → Scanner → Option (List Token)
  | 0, _ => none
  | fuel + 1, s => do
    let s ← (s.skipSpace false s.rest).expireKeys
    let s := s.closeBlocks (s.place.column < ·)
    match s.rest with
    | [] => return (← (s.closeBlocks fun _ => true).dropKey).tokens.toList
    | c :: cs => run fuel (← s.read c cs)

end Scanner

def tokens (text : String) : Option (List Token) :=
  let cs := text.toList
  if cs.all isAllowed then
    let cs := unifyBreaks cs
    Scanner.run (cs.length + 1) { rest := cs }
  else none

end LexicalPatterns.Yaml
