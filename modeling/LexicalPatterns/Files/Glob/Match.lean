import LexicalPatterns.Files.Glob

/-!
# Matching globs

A glob is tried at all places of a path at once. Each of its pieces takes the places that the pieces
before it may have come to and gives those behind it, so the work grows with the size of the glob
times the length of the path, however many ways there are to match.
-/

namespace LexicalPatterns.Glob

/-- Which places of a path a match may have come to: one mark for the start of the path and one
behind each of its bytes. -/
abbrev Marks := List Bool

namespace Marks

def start (path : List UInt8) : Marks := true :: path.map fun _ => false

def union (a b : Marks) : Marks := List.zipWith (· || ·) a b

def behind (kind : UInt8 → Bool) (path : List UInt8) (marks : Marks) : Marks :=
  false :: List.zipWith (fun b m => m && kind b) path marks

/-- The places behind any number of bytes of a kind. `carried` tells whether the place of the first
mark is one of them for what is before it. -/
def behindMany (kind : UInt8 → Bool) (path : List UInt8) (carried : Bool) : Marks → Marks
  | [] => []
  | m :: marks =>
    let here := m || carried
    here :: behindMany kind path.tail (here && path.head?.any kind) marks

def behindAll (path : List UInt8) (marks : Marks) : Marks :=
  behindMany (fun _ => true) path false marks

end Marks

mutual

/-- The places of a path behind a piece that is tried at some places. -/
def Piece.advance (path : List UInt8) (marks : Marks) : Piece → Marks
  | .byte b => marks.behind (· = b) path
  | .any => marks.behind (· ≠ slash) path
  | .star => marks.behindMany (· ≠ slash) path false
  | .anyStart => marks.union ((marks.behindAll path).behind (· = slash) path)
  | .anyEnd => (marks.behind (· = slash) path).behindAll path
  | .anyMiddle =>
    let marks := marks.behind (· = slash) path
    marks.union ((marks.behindAll path).behind (· = slash) path)
  | .oneOf negated ranges =>
    marks.behind (fun b => ranges.any (fun (l, h) => l ≤ b && b ≤ h) != negated) path
  | .alternatives branches => advanceAny path marks branches

def advanceAll (path : List UInt8) (marks : Marks) : List Piece → Marks
  | [] => marks
  | p :: ps => advanceAll path (p.advance path marks) ps

def advanceAny (path : List UInt8) (marks : Marks) : List (List Piece) → Marks
  | [] => marks.map fun _ => false
  | b :: bs => (advanceAll path marks b).union (advanceAny path marks bs)

end

/-- Whether the pieces match a whole path. Two stars alone match every path. -/
def isMatch (pieces : List Piece) (path : String) : Bool :=
  match pieces with
  | [.anyStart] => true
  | pieces =>
    let bytes := path.toUTF8.toList
    (advanceAll bytes (.start bytes) pieces).getLast? = some true

end LexicalPatterns.Glob
