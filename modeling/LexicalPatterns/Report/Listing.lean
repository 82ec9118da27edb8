import LexicalPatterns.Document
import LexicalPatterns.Program
import LexicalPatterns.Report.Text
import LexicalPatterns.Token.Basic

/-!
# Listings

The instructions of a program and the tokens of a document, line by line.
-/

namespace LexicalPatterns

/-- Where an instruction at `index` leads, if that is not plain from the instruction: the target of
a jump, or the name behind a reference. -/
def Instruction.note (names : NameTable) (index : Nat) (i : Instruction) : String :=
  match i.action with
  | .empty | .literal _ | .range _ _ =>
    if i.movement = 1 then "" else "  -> " ++ toString (index + i.movement)
  | .reference (some start) =>
    match names.nameAt start with
    | some name => "  (" ++ name ++ ")"
    | none => ""
  | _ => ""

/-- The lines of an instruction at `index`: its own, after that of a name that starts there. -/
def Instruction.lines (names : NameTable) (index : Nat) (i : Instruction) : List String :=
  let line := padLeft 6 (toString index) ++ "  " ++ i.display ++ i.note names index
  match names.nameAt index with
  | some name => [name ++ ":", line]
  | none => [line]

def Program.listing (p : Program) : String :=
  unlines (p.code.toList.zipIdx.flatMap fun (i, index) => i.lines p.names index)

def Token.line (d : Document) (t : Token) : String :=
  let place := d.position t.span.start
  padLeft 4 (toString place.line) ++ ":" ++ padRight 4 (toString place.column) ++ " " ++
    padRight 18 t.kind.display ++ " " ++ t.text d.text

def Document.tokenListing (d : Document) (tokens : List Token) : String :=
  unlines ((d.path ++ ":") :: tokens.map (Token.line d))

end LexicalPatterns
