import LexicalPatterns.Syntax.Builder
import LexicalPatterns.Token.Scan

/-!
# Parsing

A source is a sequence of definitions:

    definition  := identifier '=' alternation
    alternation := sequence ('|' sequence)*
    sequence    := item+
    item        := unit ('?' | '*' | '+' | '{' n '}' | '{' n ',' m '}' | '{' n ',' '}')*
    unit        := '.' | quote | quote '..' quote | identifier | '[' alternation ']'

A sequence also ends where the next definition starts, at an identifier before an equal sign.
Each function takes a cursor and returns, with what it read, a cursor that has fewer tokens left.
Nodes are added as their tokens are read. A node around others is put in when their end is known.
-/

namespace LexicalPatterns

/-- What the grammar asks for at a place. -/
inductive Expected where
  | patternName | equal | pattern | nextDefinition | number | closeBrace | quote | closeBracket
  deriving DecidableEq, Repr

def Expected.display : Expected → String
  | patternName => "pattern name"
  | equal => "`=`"
  | pattern => "pattern"
  | nextDefinition => "pattern or next definition"
  | number => "number"
  | closeBrace => "`\x7d`"
  | quote => "quoted literal"
  | closeBracket => "`]`"

inductive ParseError where
  | unexpectedToken (expected : Expected) (found : TokenKind) (span : Span)
  | unexpectedEnd (expected : Expected) (span : Span)
  | invalidNumber (text : String) (span : Span)
  | invalidRange (span : Span)
  | unclosedGroup (span : Span)
  deriving DecidableEq, Repr

namespace ParseError

def span : ParseError → Span
  | unexpectedToken _ _ s => s
  | unexpectedEnd _ s => s
  | invalidNumber _ s => s
  | invalidRange s => s
  | unclosedGroup s => s

def message : ParseError → String
  | unexpectedToken expected found _ =>
    "expected " ++ expected.display ++ ", found " ++ found.display
  | unexpectedEnd expected _ => "pattern ends unexpectedly, expected " ++ expected.display
  | invalidNumber text _ => "repeat count `" ++ text ++ "` does not fit in 32 bits"
  | invalidRange _ => "range bounds must be single characters"
  | unclosedGroup _ => "group is never closed, expected `]`"

end ParseError

/-- A refusal, with the tokens that were left when it arose. -/
structure ParseFailure where
  error : ParseError
  rest : List Token
  deriving DecidableEq, Repr

def ParseFailure.atEnd (f : ParseFailure) : Bool := f.rest.isEmpty

structure Cursor where
  rest : List Token
  /-- Where the token before the place stops. -/
  stop : Nat

namespace Cursor

def after (t : Token) (rest : List Token) : Cursor := ⟨rest, t.span.stop⟩

/-- Where the next token starts, or the source ends. -/
def start (source : String) (c : Cursor) : Nat :=
  match c.rest with
  | [] => source.utf8ByteSize
  | t :: _ => t.span.start

def unexpected (source : String) (expected : Expected) (c : Cursor) : ParseFailure :=
  match c.rest with
  | [] => ⟨.unexpectedEnd expected (.empty source.utf8ByteSize), []⟩
  | t :: ts => ⟨.unexpectedToken expected t.kind t.span, t :: ts⟩

end Cursor

/-- Something read at `c` from at least one token, and the place after it. -/
structure Parsed (α : Type) (c : Cursor) where
  value : α
  next : Cursor
  shorter : next.rest.length < c.rest.length

namespace Parse

variable (source : String)

def token (kind : TokenKind) (expected : Expected) (c : Cursor) :
    Except ParseFailure (Parsed Token c) :=
  match h : c.rest with
  | [] => .error (c.unexpected source expected)
  | t :: ts =>
    if t.kind = kind then .ok ⟨t, .after t ts, by simp [Cursor.after, h]⟩
    else .error (c.unexpected source expected)

def decimal (digits : List Char) : Nat := digits.foldl (fun n d => n * 10 + (d.toNat - 48)) 0

def number (c : Cursor) : Except ParseFailure (Parsed Nat c) := do
  let p ← token source .number .number c
  let text := p.value.text source
  let n := decimal text.toList
  if n < UInt32.size then return ⟨n, p.next, p.shorter⟩
  else throw ⟨.invalidNumber text p.value.span, p.next.rest⟩

/-- The bounds of a repetition, after its opening brace. -/
def bounds (c : Cursor) : Except ParseFailure (Parsed NodeKind c) := do
  let min ← number source c
  match h : min.next.rest with
  | [] => throw (min.next.unexpected source .closeBrace)
  | t :: ts =>
    if t.kind = .mark .comma then
      let afterComma := Cursor.after t ts
      if ts.head?.any (·.kind = .number) then
        let max ← number source afterComma
        let close ← token source (.mark .closeBrace) .closeBrace max.next
        return ⟨.between min.value max.value, close.next, by
          have h₁ := min.shorter
          have h₂ := max.shorter
          have h₃ := close.shorter
          simp only [afterComma, Cursor.after, h, List.length_cons] at h₁ h₂
          omega⟩
      else
        let close ← token source (.mark .closeBrace) .closeBrace afterComma
        return ⟨.atLeast min.value, close.next, by
          have h₁ := min.shorter
          have h₃ := close.shorter
          simp only [afterComma, Cursor.after, h, List.length_cons] at h₁ h₃
          omega⟩
    else
      let close ← token source (.mark .closeBrace) .closeBrace min.next
      return ⟨.exactly min.value, close.next, Nat.lt_trans close.shorter min.shorter⟩

/-- The repetitions that follow the item at position `first`, each put around the one before. -/
def repetitions (first start : Nat) (b : Builder) (c : Cursor) :
    Except ParseFailure { r : Builder × Cursor // r.2.rest.length ≤ c.rest.length } :=
  match h : c.rest with
  | [] => .ok ⟨(b, c), Nat.le_of_eq (by simp [h])⟩
  | t :: ts =>
    let simple (kind : NodeKind) :
        Except ParseFailure { r : Builder × Cursor // r.2.rest.length ≤ (t :: ts).length } := do
      let ⟨r, hr⟩ ← repetitions first start (b.wrap first 1 kind ⟨start, t.span.stop⟩) (.after t ts)
      return ⟨r, Nat.le_succ_of_le hr⟩
    match t.kind with
    | .mark .question => simple (.between 0 1)
    | .mark .star => simple (.atLeast 0)
    | .mark .plus => simple (.atLeast 1)
    | .mark .openBrace => do
      let p ← bounds source (.after t ts)
      let ⟨r, hr⟩ ←
        repetitions first start (b.wrap first 1 p.value ⟨start, p.next.stop⟩) p.next
      return ⟨r, by
        have := p.shorter
        simp only [Cursor.after, List.length_cons] at this ⊢
        omega⟩
    | _ => .ok ⟨(b, c), Nat.le_of_eq (by simp [h])⟩
termination_by c.rest.length
decreasing_by
  · simp [Cursor.after, h]
  · have := p.shorter
    simp only [Cursor.after, h, List.length_cons] at this ⊢
    omega

def atRangeDots : List Token → Bool
  | a :: b :: _ => a.kind = .mark .dot && b.kind = .mark .dot && a.span.stop == b.span.start
  | _ => false

def literalKind : List UInt8 → NodeKind
  | [b] => .character b
  | bs => .string bs

/-- The kind and the span of the literal or range that starts with the quoted literal `low`, which
`rest` follows. -/
def literal (low : Token) (rest : List Token) :
    Except ParseFailure { r : (NodeKind × Span) × Cursor // r.2.rest.length ≤ rest.length } :=
  let lowBytes := Quote.bytes (low.text source)
  match rest with
  | a :: b :: more =>
    if atRangeDots (a :: b :: more) then do
      let high ← token source .quote .quote (.after b more)
      let span := low.span.join high.value.span
      match lowBytes, Quote.bytes (high.value.text source) with
      | [l], [h] => return ⟨((.range l h, span), high.next), by
          have := high.shorter
          simp only [Cursor.after, List.length_cons] at this ⊢
          omega⟩
      | _, _ => throw ⟨.invalidRange span, high.next.rest⟩
    else .ok ⟨((literalKind lowBytes, low.span), .after low (a :: b :: more)), Nat.le_refl _⟩
  | rest => .ok ⟨((literalKind lowBytes, low.span), .after low rest), Nat.le_refl _⟩

/-- The items of one branch of an alternation: the position of the first, their number, and the span
of them all. -/
structure Stretch where
  first : Nat
  count : Nat
  span : Span

def Stretch.group (r : Stretch) (b : Builder) : Builder :=
  if 1 < r.count then b.wrap r.first r.count .group r.span else b

/-- Puts the nodes in that an alternation needs around its branches: a choice if there are several,
and where `grouped` is set a group around the items of a single one. Branches are grouped from the
last to the first, so that the positions of those still to come stay right. -/
def gather (grouped : Bool) (first : Nat) (span : Span) (branches : List Stretch) (b : Builder) :
    Builder :=
  match branches with
  | [r] => if grouped && 1 < r.count then b.wrap first r.count .group span else b
  | rs => (rs.foldr Stretch.group b).wrap first rs.length .choice span

def atUnit : List Token → Bool
  | [] => false
  | t :: ts =>
    match t.kind with
    | .identifier => !ts.head?.any (·.kind = .mark .equal)
    | .mark .dot | .quote | .mark .openBracket => true
    | _ => false

mutual

def unit (b : Builder) (c : Cursor) : Except ParseFailure (Parsed Builder c) :=
  match h : c.rest with
  | [] => .error (c.unexpected source .pattern)
  | t :: ts =>
    match t.kind with
    | .mark .dot => .ok ⟨b.add .wildcard t.span, .after t ts, by simp [Cursor.after, h]⟩
    | .identifier => .ok ⟨b.add .reference t.span, .after t ts, by simp [Cursor.after, h]⟩
    | .quote => do
      let ⟨((kind, span), next), hn⟩ ← literal source t ts
      return ⟨b.add kind span, next, by
        simp only [h, List.length_cons]
        exact Nat.lt_succ_of_le hn⟩
    | .mark .openBracket => do
      let p ← alternation true b (.after t ts)
      match hc : p.next.rest with
      | [] => throw ⟨.unclosedGroup ⟨t.span.start, source.utf8ByteSize⟩, []⟩
      | close :: more =>
        if close.kind = .mark .closeBracket then
          return ⟨p.value, .after close more, by
            have := p.shorter
            simp only [Cursor.after, h, hc, List.length_cons] at this ⊢
            omega⟩
        else throw (p.next.unexpected source .closeBracket)
    | _ => .error (c.unexpected source .pattern)
termination_by (c.rest.length, 0)
decreasing_by
  apply Prod.Lex.left
  simp [Cursor.after, h]

def item (b : Builder) (c : Cursor) : Except ParseFailure (Parsed Builder c) := do
  let u ← unit b c
  let ⟨(built, next), hn⟩ ← repetitions source b.length (c.start source) u.value u.next
  return ⟨built, next, Nat.lt_of_le_of_lt hn u.shorter⟩
termination_by (c.rest.length, 1)
decreasing_by
  apply Prod.Lex.right
  decide

/-- At least one item, with the number of them. -/
def sequence (b : Builder) (c : Cursor) : Except ParseFailure (Parsed (Nat × Builder) c) := do
  if atUnit c.rest then
    let p ← item b c
    if atUnit p.next.rest then
      let ps ← sequence p.value p.next
      return ⟨(ps.value.1 + 1, ps.value.2), ps.next, Nat.lt_trans ps.shorter p.shorter⟩
    else return ⟨(1, p.value), p.next, p.shorter⟩
  else throw (c.unexpected source .pattern)
termination_by (c.rest.length, 2)
decreasing_by
  · apply Prod.Lex.right
    decide
  · apply Prod.Lex.left
    exact p.shorter

def branches (b : Builder) (c : Cursor) :
    Except ParseFailure (Parsed (List Stretch × Builder) c) := do
  let s ← sequence b c
  let branch : Stretch := ⟨b.length, s.value.1, ⟨c.start source, s.next.stop⟩⟩
  match h : s.next.rest with
  | [] => return ⟨([branch], s.value.2), s.next, s.shorter⟩
  | t :: ts =>
    if t.kind = .mark .pipe then
      let more ← branches s.value.2 (.after t ts)
      return ⟨(branch :: more.value.1, more.value.2), more.next, by
        have h₁ := s.shorter
        have h₂ := more.shorter
        simp only [Cursor.after, h, List.length_cons] at h₁ h₂
        omega⟩
    else return ⟨([branch], s.value.2), s.next, s.shorter⟩
termination_by (c.rest.length, 3)
decreasing_by
  · apply Prod.Lex.right
    decide
  · apply Prod.Lex.left
    have h₁ := s.shorter
    simp only [Cursor.after, h, List.length_cons] at h₁ ⊢
    omega

def alternation (grouped : Bool) (b : Builder) (c : Cursor) :
    Except ParseFailure (Parsed Builder c) := do
  let p ← branches b c
  let span : Span := ⟨c.start source, p.next.stop⟩
  return ⟨gather grouped b.length span p.value.1 p.value.2, p.next, p.shorter⟩
termination_by (c.rest.length, 4)
decreasing_by
  apply Prod.Lex.right
  decide

end

/-- A definition, which the end of the source or an identifier follows. -/
def definition (b : Builder) (c : Cursor) : Except ParseFailure (Parsed Builder c) := do
  let name ← token source .identifier .patternName c
  let equal ← token source (.mark .equal) .equal name.next
  let inside := (b.add .definition name.value.span).push.add .declaration name.value.span
  let body ← alternation source false inside equal.next
  let closed := body.value.pop.setSpan b.length ⟨name.value.span.start, body.next.stop⟩
  if body.next.rest.head?.all (·.kind = .identifier) then
    return ⟨closed, body.next, Nat.lt_trans body.shorter (Nat.lt_trans equal.shorter name.shorter)⟩
  else throw (body.next.unexpected source .nextDefinition)

def definitions (b : Builder) (c : Cursor) : Except ParseFailure Builder := do
  if c.rest.isEmpty then return b
  else
    let d ← definition source b c
    definitions d.value d.next
termination_by c.rest.length
decreasing_by exact d.shorter

end Parse

namespace Forest

def ofTokens? (source : String) (tokens : List Token) : Except ParseFailure Forest :=
  (Parse.definitions source .empty ⟨tokens, 0⟩).map Builder.finish

end Forest
end LexicalPatterns
