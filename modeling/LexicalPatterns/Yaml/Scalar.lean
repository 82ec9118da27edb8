import LexicalPatterns.Yaml.Character

/-!
# YAML scalars

A scalar is a text that may go on over several lines. Plain scalars end where a sign follows, quoted
ones at their second quote mark. White space at the ends of the lines in a scalar is folded: a line
feed becomes a space, and one of several is dropped.
-/

namespace LexicalPatterns.Yaml

inductive Gap where
  | blanks (text : List Char)
  /-- The first line break, unless a backslash takes it away, and the other ones. -/
  | breaks (first : Option Char) (more : List Char)
  deriving DecidableEq, Repr

namespace Gap

/-- The gap with one more character. Blanks around line breaks do not count. -/
def add (g : Gap) (c : Char) : Gap :=
  match g, isBreak c with
  | blanks text, false => blanks (text ++ [c])
  | blanks _, true => breaks c []
  | breaks first more, false => breaks first more
  | breaks first more, true => breaks first (more ++ [c])

def text : Gap → List Char
  | blanks text => text
  | breaks (some '\n') [] => [' ']
  | breaks (some '\n') more => more
  | breaks first more => first.toList ++ more

def ofSpace (space : List Char) : Gap := space.foldl add (blanks [])

end Gap

/-- The first word of a plain scalar, which ends before white space, before a colon with white space
behind it and, in a flow collection, before a flow sign. A colon right before such a sign is
refused. -/
def plainWord (flow : Bool) : List Char → Option (List Char × List Char)
  | [] => some ([], [])
  | c :: cs =>
    if isSpace c then some ([], c :: cs)
    else if flow && c == ':' && cs.head?.any (fun d => isFlowSign d || d == '?') then none
    else if (c == ':' && atGap cs) || (flow && isFlowSign c) then some ([], c :: cs)
    else (plainWord flow cs).map fun (word, rest) => (c :: word, rest)

theorem length_plainWord {flow : Bool} {cs word rest : List Char}
    (h : plainWord flow cs = some (word, rest)) : word.length + rest.length = cs.length := by
  induction cs generalizing word with
  | nil => cases h; rfl
  | cons c cs ih =>
    simp only [plainWord] at h
    split at h
    · cases h; simp
    · split at h
      · cases h
      · split at h
        · cases h; simp
        · obtain ⟨⟨w, r⟩, hw, he⟩ := Option.map_eq_some_iff.1 h
          cases he
          have hl : w.length + r.length = cs.length := ih hw
          simp only [List.length_cons]
          omega

/-- Whether a tab stands left of column `limit` in a line that starts within the white space.
`column` is the one that is reached in such a line. -/
def hasIndentTab (limit : Nat) (column : Option Nat) : List Char → Bool
  | [] => false
  | c :: cs =>
    if isBreak c then hasIndentTab limit (some 0) cs
    else (c == '\t' && column.any (· < limit)) || hasIndentTab limit (column.map (· + 1)) cs

structure PlainScalar where
  text : List Char
  /-- Whether line breaks stand between the scalar and what comes after it. -/
  broken : Bool
  place : Place
  rest : List Char

/-- Reads on in a plain scalar after some text and a gap. In a block collection its lines start in
column `limit` or behind. -/
def readPlain (limit : Nat) (flow : Bool) (text gap : List Char) (place : Place) (cs : List Char) :
    Option PlainScalar :=
  if cs.head? == some '#' || (place.column == 0 && startsMarker cs) then
    some ⟨text, gap.any isBreak, place, cs⟩
  else
    match _h : plainWord flow cs with
    | none => none
    | some ([], _) => some ⟨text, gap.any isBreak, place, cs⟩
    | some (c :: word, rest) =>
      let text := text ++ (Gap.ofSpace gap).text ++ c :: word
      let space := rest.takeWhile isSpace
      let place := (place.after (c :: word)).after space
      if hasIndentTab limit none space then none
      else if space.isEmpty || (!flow && place.column < limit) then
        some ⟨text, space.any isBreak, place, rest.dropWhile isSpace⟩
      else readPlain limit flow text space place (rest.dropWhile isSpace)
termination_by cs.length
decreasing_by
  have := length_plainWord _h
  have := (List.dropWhile_suffix (l := rest) isSpace).length_le
  simp only [List.length_cons] at *
  omega

inductive QuotedPiece where
  /-- A character that stands for itself. -/
  | letter (c : Char)
  /-- White space to fold. -/
  | space (c : Char)
  /-- A line break with a backslash before it. -/
  | joint
  deriving DecidableEq, Repr

def QuotedPiece.ofChar (c : Char) : QuotedPiece := if isSpace c then space c else letter c

/-- The inside of a single-quoted scalar, in which a quote mark is written twice, and the characters
after the scalar. -/
def singleQuoted : List Char → Option (List QuotedPiece × List Char)
  | [] => none
  | '\'' :: '\'' :: cs => (singleQuoted cs).map fun (ps, rest) => (.letter '\'' :: ps, rest)
  | '\'' :: cs => some ([], cs)
  | c :: cs => (singleQuoted cs).map fun (ps, rest) => (.ofChar c :: ps, rest)

def hexValue? (c : Char) : Option Nat :=
  if c.isDigit then some (c.toNat - 48)
  else if 'a' ≤ c && c ≤ 'f' then some (c.toNat - 87)
  else if 'A' ≤ c && c ≤ 'F' then some (c.toNat - 55)
  else none

def hexChar? (digits : List Char) : Option Char := do
  let values ← digits.mapM hexValue?
  let n := values.foldl (fun n d => n * 16 + d) 0
  if n.isValidChar then return Char.ofNat n else none

def escape? (c : Char) : Option Char :=
  match c with
  | '0' => some '\x00' | 'a' => some '\x07' | 'b' => some '\x08' | 't' => some '\t'
  | '\t' => some '\t' | 'n' => some '\n' | 'v' => some '\x0b' | 'f' => some '\x0c'
  | 'r' => some '\r' | 'e' => some '\x1b' | ' ' => some ' ' | '"' => some '"'
  | '/' => some '/' | '\\' => some '\\' | 'N' => some '\u0085' | '_' => some '\u00a0'
  | 'L' => some '\u2028' | 'P' => some '\u2029'
  | _ => none

/-- How many digits follow a backslash and `c` to give a code point. -/
def escapeDigits? (c : Char) : Option Nat :=
  match c with
  | 'x' => some 2 | 'u' => some 4 | 'U' => some 8
  | _ => none

/-- The inside of a double-quoted scalar, and the characters after the scalar. -/
def doubleQuoted (cs : List Char) : Option (List QuotedPiece × List Char) :=
  match cs with
  | [] => none
  | '"' :: cs => some ([], cs)
  | '\\' :: c :: cs =>
    if isBreak c then (doubleQuoted cs).map fun (ps, rest) => (.joint :: ps, rest)
    else
      match escapeDigits? c with
      | some n => do
        let d ← if cs.length < n then none else hexChar? (cs.take n)
        let (ps, rest) ← doubleQuoted (cs.drop n)
        return (.letter d :: ps, rest)
      | none => do
        let d ← escape? c
        let (ps, rest) ← doubleQuoted cs
        return (.letter d :: ps, rest)
  | c :: cs => (doubleQuoted cs).map fun (ps, rest) => (.ofChar c :: ps, rest)
termination_by cs.length
decreasing_by
  all_goals simp only [List.length_cons, List.length_drop]
  all_goals omega

def folded (gap : Gap) : List QuotedPiece → List Char
  | [] => gap.text
  | .letter c :: ps => gap.text ++ c :: folded (.blanks []) ps
  | .space c :: ps => folded (gap.add c) ps
  | .joint :: ps => gap.text ++ folded (.breaks none []) ps

/-- The text of the scalar behind a quote mark, and the characters after the scalar. None of its
lines may bound a document. -/
def readQuoted (mark : Char) (cs : List Char) : Option (List Char × List Char) := do
  let (pieces, rest) ← if mark = '"' then doubleQuoted cs else singleQuoted cs
  if hasMarker (cs.take (cs.length - rest.length)) then none
  return (folded (.blanks []) pieces, rest)

end LexicalPatterns.Yaml
