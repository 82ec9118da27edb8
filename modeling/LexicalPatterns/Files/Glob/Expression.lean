import LexicalPatterns.Files.Glob
import LexicalPatterns.Text.Escaped

/-!
# Globs as expressions

A glob that is more than some text and a star at one end is matched as a regular expression, and
the parts of such an expression may nest only so deep. `Glob.fault?` finds the first of some globs
that nests deeper. A glob that ends in an extension has an expression of its own, the others are
parts of one.
-/

namespace LexicalPatterns.Glob

/-- A byte as it stands in an expression: signs with a meaning of their own behind a backslash, and
what is no ASCII by its two hexadecimal digits. -/
def expressionByte (b : UInt8) : String :=
  let c := Char.ofNat b.toNat
  if 0x80 ≤ b then String.ofList ['\\', 'x', hexDigit (b.toNat / 16), hexDigit (b.toNat % 16)]
  else if c ∈ "\\.+*?()|[]\x7b\x7d^$#&-~".toList then String.ofList ['\\', c]
  else c.toString

def expressionRange (r : UInt8 × UInt8) : String :=
  if r.1 = r.2 then expressionByte r.1 else expressionByte r.1 ++ "-" ++ expressionByte r.2

mutual

def Piece.expression : Piece → String
  | .byte b => expressionByte b
  | .any => "[^/]"
  | .star => "[^/]*"
  | .anyStart => "(?:/?|.*/)"
  | .anyEnd => "/.*"
  | .anyMiddle => "(?:/|/.*/)"
  | .oneOf negated ranges =>
    "[" ++ (if negated then "^" else "") ++ String.join (ranges.map expressionRange) ++ "]"
  | .alternatives branches =>
    if isBlank (.alternatives branches) then ""
    else "(?:" ++ "|".intercalate (branchExpressions branches) ++ ")"

def sequenceExpression : List Piece → String
  | [] => ""
  | p :: ps => p.expression ++ sequenceExpression ps

def branchExpressions : List (List Piece) → List String
  | [] => []
  | b :: bs => sequenceExpression b :: branchExpressions bs

end

def expression (pieces : List Piece) : String :=
  match pieces with
  | [.anyStart] => "(?-u)^.*$"
  | pieces => "(?-u)^" ++ sequenceExpression pieces ++ "$"

/-- How many parts of a sequence a piece makes. -/
def Piece.partCount (p : Piece) : Nat :=
  match p with
  | .anyEnd => 2
  | p => if isBlank p then 0 else 1

mutual

/-- How deep the expression of a piece nests. Repetitions, classes, classes of several ranges,
groups, choices and sequences of several parts nest what they consist of. -/
def Piece.depth : Piece → Nat
  | .byte _ => 0
  | .any => 1
  | .star => 2
  | .anyStart => 4
  | .anyEnd => 1
  | .anyMiddle => 4
  | .oneOf _ ranges => if ranges.length ≤ 1 then 1 else 2
  | .alternatives branches =>
    if isBlank (.alternatives branches) then 0
    else (if branches.length ≤ 1 then 1 else 2) + branchDepth branches

def deepest : List Piece → Nat
  | [] => 0
  | p :: ps => max p.depth (deepest ps)

def branchDepth : List (List Piece) → Nat
  | [] => 0
  | b :: bs =>
    let sequence := if (b.map Piece.partCount).sum ≤ 1 then 0 else 1
    max (sequence + deepest b) (branchDepth bs)

end

def maxDepth : Nat := 250

/-- Whether the expression of a glob nests too deep. With its marks for the start and the end it is
always a sequence. -/
def isTooDeep (pieces : List Piece) : Bool := maxDepth < deepest pieces + 1

def Piece.byte? : Piece → Option UInt8
  | .byte b => some b
  | _ => none

def Piece.isByteBut (others : List UInt8) (p : Piece) : Bool := p.byte?.any (· ∉ others)

/-- Whether a glob is matched without an expression: it is some text, or ends in some behind any
names, or starts with some before anything, or is an extension alone. -/
def isSimple (pieces : List Piece) : Bool :=
  let isText (pieces : List Piece) := !pieces.isEmpty && pieces.all (·.isByteBut [])
  let isExtension (pieces : List Piece) :=
    match pieces with
    | .star :: .byte b :: name => b = dot && name.all (·.isByteBut [slash, dot])
    | _ => false
  match pieces, pieces.reverse with
  | .anyStart :: rest, _ => isText rest || isExtension rest
  | _, .anyEnd :: rest => rest.all (·.isByteBut [])
  | _, _ => isText pieces

/-- Whether only names with some extension can match: the last piece but bytes of an extension is a
dot. -/
def hasExtension (pieces : List Piece) : Bool :=
  let rest := pieces.reverse.dropWhile (·.isByteBut [slash, dot])
  (rest.head?.bind Piece.byte?) = some dot

inductive Fault where
  /-- The expression of one that has an expression of its own nests too deep. -/
  | alone (expression : String)
  /-- That of one of the others does. `index` counts the others before it. -/
  | amongOthers (index : Nat)
  deriving DecidableEq, Repr

def Fault.message : Fault → String
  | alone expression => "error parsing glob '" ++ expression ++ "': " ++ unread 0
  | amongOthers index => unread index
where
  unread (index : Nat) : String := "error parsing pattern " ++ toString index

/-- What is wrong with some globs. Those with an extension are looked at first. -/
def fault? (globs : List (List Piece)) : Option Fault :=
  let (withExtension, others) := (globs.filter (!isSimple ·)).partition hasExtension
  let ofExtension := (withExtension.find? isTooDeep).map fun g => .alone (expression g)
  ofExtension.or ((others.findIdx? isTooDeep).map .amongOthers)

end LexicalPatterns.Glob
