import LexicalPatterns.Batch
import LexicalPatterns.Proofs.Syntax.Readers
import LexicalPatterns.Proofs.Tokens.Tiling

/-!
# Checked reading

Reading a source makes spans from offsets and takes texts that spans cover. The readers here do the
same steps as those that they are named for, and check each of them: they have no result at all
where the ends of a span would be in the wrong order, where a text would be out of bounds or cut a
character, or where a loop would go on without having read a token.
-/

namespace LexicalPatterns

/-- A computation that may be refused, and that has no result if one of its checks fails. -/
abbrev Checked (ε α : Type) := ExceptT ε Option α

namespace Checked

variable {ε α β : Type}

def stuck : Checked ε α := ExceptT.mk none

def plain (r : Except ε α) : Checked ε α := ExceptT.mk (some r)

/-- The span between two offsets, which has to end behind its start or there. -/
def span (start stop : Nat) : Checked ε Span := ExceptT.lift (Span.new? start stop)

/-- The text of a span, which has to be one of the source. -/
def text (source : String) (s : Span) : Checked ε String := ExceptT.lift (s.text? source)

/-! ### Tokens -/

def tokensFrom (offset : Nat) (cs : List Char) : Checked ScanError (List Token) :=
  match cs with
  | [] => return []
  | c :: cs =>
    if isBlank c then tokensFrom (offset + 1) cs
    else
      match Lexeme.read offset c cs with
      | .error e => do
        let _ ← span e.span.start e.span.stop
        throw e
      | .ok l => do
        let s ← span offset l.stop
        if l.rest.length ≤ cs.length then
          let ts ← tokensFrom l.stop l.rest
          return ⟨l.kind, s⟩ :: ts
        else stuck
termination_by cs.length

/-! ### Definitions -/

variable (source : String)

def number (c : Cursor) : Checked ParseFailure (Nat × Cursor) := do
  let (t, next) ← plain (Parse.readToken source .number .number c)
  let digits ← text source t.span
  let n := Parse.decimal digits.toList
  if n < UInt32.size then return (n, next)
  else throw ⟨.invalidNumber digits t.span, next.rest⟩

def bounds (c : Cursor) : Checked ParseFailure (NodeKind × Cursor) := do
  let (min, next) ← number source c
  match next.rest with
  | [] => throw (next.unexpected source .closeBrace)
  | t :: ts =>
    if t.kind = .mark .comma then
      if ts.head?.any (·.kind = .number) then
        let (max, next) ← number source (.after t ts)
        let (_, next) ← plain (Parse.readToken source (.mark .closeBrace) .closeBrace next)
        return (.between min max, next)
      else
        let (_, next) ← plain (Parse.readToken source (.mark .closeBrace) .closeBrace (.after t ts))
        return (.atLeast min, next)
    else
      let (_, next) ← plain (Parse.readToken source (.mark .closeBrace) .closeBrace next)
      return (.exactly min, next)

def repetition? (c : Cursor) : Checked ParseFailure (Option (NodeKind × Cursor)) :=
  match c.rest with
  | [] => return none
  | t :: ts =>
    match t.kind with
    | .mark .question => return some (.between 0 1, .after t ts)
    | .mark .star => return some (.atLeast 0, .after t ts)
    | .mark .plus => return some (.atLeast 1, .after t ts)
    | .mark .openBrace => do
      let r ← bounds source (.after t ts)
      return some r
    | _ => return none

def repetitions (first start : Nat) (b : Builder) (c : Cursor) :
    Checked ParseFailure (Builder × Cursor) := do
  match ← repetition? source c with
  | none => return (b, c)
  | some (kind, next) =>
    let s ← span start next.stop
    if next.rest.length < c.rest.length then repetitions first start (b.wrap first 1 kind s) next
    else stuck
termination_by c.rest.length

def literal (low : Token) (rest : List Token) :
    Checked ParseFailure ((NodeKind × Span) × Cursor) := do
  let lowText ← text source low.span
  match rest with
  | a :: b :: more =>
    if Parse.atRangeDots (a :: b :: more) then
      let (high, next) ← plain (Parse.readToken source .quote .quote (.after b more))
      let highText ← text source high.span
      let s ← span (min low.span.start high.span.start) (max low.span.stop high.span.stop)
      match Quote.bytes lowText, Quote.bytes highText with
      | [l], [h] => return ((.range l h, s), next)
      | _, _ => throw ⟨.invalidRange s, next.rest⟩
    else return ((Parse.literalKind (Quote.bytes lowText), low.span), .after low rest)
  | rest => return ((Parse.literalKind (Quote.bytes lowText), low.span), .after low rest)

mutual

def unit (b : Builder) (c : Cursor) : Checked ParseFailure (Builder × Cursor) :=
  match _h : c.rest with
  | [] => throw (c.unexpected source .pattern)
  | t :: ts =>
    match t.kind with
    | .mark .dot => return (b.add .wildcard t.span, .after t ts)
    | .identifier => return (b.add .reference t.span, .after t ts)
    | .quote => do
      let ((kind, s), next) ← literal source t ts
      return (b.add kind s, next)
    | .mark .openBracket => do
      let (built, next) ← alternation true b (.after t ts)
      match next.rest with
      | [] =>
        let s ← span t.span.start source.utf8ByteSize
        throw ⟨.unclosedGroup s, []⟩
      | close :: more =>
        if close.kind = .mark .closeBracket then return (built, .after close more)
        else throw (next.unexpected source .closeBracket)
    | _ => throw (c.unexpected source .pattern)
termination_by (c.rest.length, 0)
decreasing_by
  apply Prod.Lex.left
  simp [Cursor.after, _h]

def item (b : Builder) (c : Cursor) : Checked ParseFailure (Builder × Cursor) := do
  let (built, next) ← unit b c
  repetitions source b.length (c.start source) built next
termination_by (c.rest.length, 1)

def sequence (b : Builder) (c : Cursor) : Checked ParseFailure ((Nat × Builder) × Cursor) := do
  if Parse.atUnit c.rest then
    let (built, next) ← item b c
    if Parse.atUnit next.rest then
      if next.rest.length < c.rest.length then
        let ((count, built), next) ← sequence built next
        return ((count + 1, built), next)
      else stuck
    else return ((1, built), next)
  else throw (c.unexpected source .pattern)
termination_by (c.rest.length, 2)

def branches (b : Builder) (c : Cursor) :
    Checked ParseFailure ((List Parse.Stretch × Builder) × Cursor) := do
  let ((count, built), next) ← sequence b c
  let s ← span (c.start source) next.stop
  let branch : Parse.Stretch := ⟨b.length, count, s⟩
  match next.rest with
  | [] => return (([branch], built), next)
  | t :: rest =>
    if t.kind = .mark .pipe then
      if rest.length < c.rest.length then
        let ((more, built), next) ← branches built (.after t rest)
        return ((branch :: more, built), next)
      else stuck
    else return (([branch], built), next)
termination_by (c.rest.length, 3)

def alternation (grouped : Bool) (b : Builder) (c : Cursor) :
    Checked ParseFailure (Builder × Cursor) := do
  let ((bs, built), next) ← branches b c
  let s ← span (c.start source) next.stop
  return (Parse.gather grouped b.length s bs built, next)
termination_by (c.rest.length, 4)

end

def definition (b : Builder) (c : Cursor) : Checked ParseFailure (Builder × Cursor) := do
  let (name, next) ← plain (Parse.readToken source .identifier .patternName c)
  let (_, body) ← plain (Parse.readToken source (.mark .equal) .equal next)
  let inside := (b.add .definition name.span).push.add .declaration name.span
  let (built, next) ← alternation source false inside body
  let s ← span name.span.start next.stop
  if next.rest.head?.all (·.kind = .identifier) then
    return (built.pop.setSpan b.length s, next)
  else throw (next.unexpected source .nextDefinition)

def definitions (b : Builder) (c : Cursor) : Checked ParseFailure Builder := do
  if c.rest.isEmpty then return b
  else
    let (built, next) ← definition source b c
    if next.rest.length < c.rest.length then definitions built next
    else stuck
termination_by c.rest.length

def read : Checked PatternError (List Forest) := do
  let tokens ← (tokensFrom 0 source.toList).adapt .scan
  let built ← (definitions source .empty ⟨tokens, 0⟩).adapt fun f => .parse f.error
  return built.finish.split

end Checked
end LexicalPatterns
