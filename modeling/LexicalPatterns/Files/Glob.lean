/-!
# Globs

A glob is a pattern for paths: `?` stands for one byte and `*` for any bytes of one name, `**` for
any number of whole names, brackets for one byte of a class, braces for alternatives, and a
backslash takes the next character as it is. A glob matches bytes.
-/

namespace LexicalPatterns.Glob

def slash : UInt8 := 47

def dot : UInt8 := 46

/-- A piece of a glob. -/
inductive Piece where
  | byte (b : UInt8)
  /-- One byte other than a slash. -/
  | any
  /-- Any bytes other than a slash. -/
  | star
  /-- Any names, each with its slash, at the start. -/
  | anyStart
  /-- A slash and anything behind it. -/
  | anyEnd
  /-- A slash, or any names between two slashes. -/
  | anyMiddle
  /-- One byte of some ranges or, if `negated`, of none. -/
  | oneOf (negated : Bool) (ranges : List (UInt8 × UInt8))
  | alternatives (branches : List (List Piece))

/-- A group without anything to match. -/
def blank : Piece := .alternatives [[]]

def isBlank : Piece → Bool
  | .alternatives [[]] => true
  | _ => false

inductive Error where
  | unclosedClass
  | invalidRange (low high : Char)
  | unopenedAlternatives
  | unclosedAlternatives
  | danglingEscape
  deriving DecidableEq, Repr

def Error.message : Error → String
  | unclosedClass => "unclosed character class; missing ']'"
  | invalidRange low high =>
    "invalid range; '" ++ low.toString ++ "' > '" ++ high.toString ++ "'"
  | unopenedAlternatives =>
    "unopened alternate group; missing '\x7b' (maybe escape '\x7d' with '[\x7d]'?)"
  | unclosedAlternatives =>
    "unclosed alternate group; missing '\x7d' (maybe escape '\x7b' with '[\x7b]'?)"
  | danglingEscape => "dangling '\\'"

def literal (c : Char) : List Piece := (String.utf8EncodeChar c).map .byte

/-- What an open bracket class holds so far, the ranges in reverse. -/
structure ClassState where
  ranges : List (Char × Char)
  /-- Whether a hyphen waits for the end of its range. -/
  inRange : Bool

/-- The members of a class up to its closing bracket, and the characters after it. The first
member may be a bracket or a hyphen. -/
def classMembers (first : Bool) (s : ClassState) :
    List Char → Except Error (List (Char × Char) × List Char)
  | [] => .error .unclosedClass
  | c :: cs =>
    if c = ']' && !first then
      .ok ((if s.inRange then ('-', '-') :: s.ranges else s.ranges).reverse, cs)
    else if c = '-' && !first && !s.inRange then classMembers false { s with inRange := true } cs
    else
      match s.inRange, s.ranges with
      | true, (low, _) :: ranges =>
        if c < low then .error (.invalidRange low c)
        else classMembers false ⟨(low, c) :: ranges, false⟩ cs
      | _, ranges => classMembers false ⟨(c, c) :: ranges, false⟩ cs

/-- A range of characters as ranges of bytes: the last byte of the lower bound starts the range to
the first byte of the upper one, and all other bytes stand for themselves. -/
def byteRanges (r : Char × Char) : List (UInt8 × UInt8) :=
  let low := String.utf8EncodeChar r.1
  let high := String.utf8EncodeChar r.2
  if r.1 = r.2 then low.map fun b => (b, b)
  else
    match low.getLast?, high with
    | some l, h :: more => low.dropLast.map (fun b => (b, b)) ++ (l, h) :: more.map fun b => (b, b)
    | _, _ => []

/-- An unfinished glob: the pieces of the innermost open alternative in reverse, its finished
siblings in reverse, and the same for each group around it. -/
structure Draft where
  pieces : List Piece
  siblings : List (List Piece)
  outer : List (List Piece × List (List Piece))

namespace Draft

def add (d : Draft) (ps : List Piece) : Draft := { d with pieces := ps.reverse ++ d.pieces }

def openGroup (d : Draft) : Draft := ⟨[], [], (d.pieces, d.siblings) :: d.outer⟩

def nextBranch (d : Draft) : Draft :=
  { d with pieces := [], siblings := d.pieces.reverse :: d.siblings }

/-- Closes the innermost group. Its blank branches do not count, unless it has no others. -/
def closeGroup (d : Draft) : Except Error Draft :=
  match d.outer with
  | [] => .error .unopenedAlternatives
  | (pieces, siblings) :: outer =>
    let branches := ((d.pieces.reverse :: d.siblings).filter (!·.all isBlank)).reverse
    let group := if branches.isEmpty then blank else .alternatives branches
    .ok ⟨group :: pieces, siblings, outer⟩

/-- Puts two stars behind a separator: it becomes part of the new piece, and of one that stands for
any names already nothing changes. -/
def widen (d : Draft) (piece : Piece) : Draft :=
  match d.pieces with
  | .anyStart :: _ | .anyEnd :: _ => d
  | _ :: pieces => { d with pieces := piece :: pieces }
  | [] => { d with pieces := [piece] }

/-- Adds two stars behind the character `before`. Between separators they stand for names, else for
two stars. Gives the last character of them and what is left of `cs`, which follows them. -/
def addStars (d : Draft) (before : Option Char) (cs : List Char) : Draft × Char × List Char :=
  let inGroup := !d.outer.isEmpty
  let isBehind := before == some '/' || inGroup && (before == some ',' || before == some '\x7b')
  let plain := (d.add [.star, .star], '*', cs)
  match d.pieces.isEmpty, isBehind, cs with
  | true, _, [] => (d.add [.anyStart], '*', [])
  | true, _, '/' :: cs => (d.add [.anyStart], '/', cs)
  | true, _, _ | false, false, _ => plain
  | false, true, [] => (d.widen .anyEnd, '*', [])
  | false, true, '/' :: cs => (d.widen .anyMiddle, '/', cs)
  | false, true, n :: _ =>
    if inGroup && (n == ',' || n == '\x7d') then (d.widen .anyEnd, '*', cs) else plain

end Draft

/-- Reads the rest of a glob. `before` is the character before it. With `lenient` a bracket that is
never closed stands for itself. Each step reads a character, so `fuel` is enough if it is larger
than the number of characters. -/
def read (lenient : Bool) : (fuel : Nat) → (before : Option Char) → Draft → List Char →
    Except Error Draft
  | 0, _, d, _ => .ok d
  | _, _, d, [] => .ok d
  | fuel + 1, before, d, c :: cs =>
    match c with
    | '?' => read lenient fuel c (d.add [.any]) cs
    | '\x7b' => read lenient fuel c d.openGroup cs
    | '\x7d' => do read lenient fuel c (← d.closeGroup) cs
    | ',' => read lenient fuel c (if d.outer.isEmpty then d.add (literal c) else d.nextBranch) cs
    | '\\' =>
      match cs with
      | [] => .error .danglingEscape
      | e :: cs => read lenient fuel e (d.add (literal e)) cs
    | '[' =>
      let negated := cs.head? = some '!' || cs.head? = some '^'
      match classMembers true ⟨[], false⟩ (if negated then cs.drop 1 else cs), lenient with
      | .ok (ranges, rest), _ =>
        read lenient fuel (some ']') (d.add [.oneOf negated (ranges.flatMap byteRanges)]) rest
      | .error .unclosedClass, true => read lenient fuel c (d.add (literal c)) cs
      | .error e, _ => .error e
    | '*' =>
      match cs with
      | '*' :: cs =>
        let (d, last, cs) := d.addStars before cs
        read lenient fuel (some last) d cs
      | _ => read lenient fuel c (d.add [.star]) cs
    | c => read lenient fuel c (d.add (literal c)) cs

def parse (lenient : Bool) (text : String) : Except Error (List Piece) := do
  let cs := text.toList
  let d ← read lenient (cs.length + 1) none ⟨[], [], []⟩ cs
  if d.outer.isEmpty then return d.pieces.reverse else throw .unclosedAlternatives

end LexicalPatterns.Glob
