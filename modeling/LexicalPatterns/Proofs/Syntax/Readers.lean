import LexicalPatterns.Proofs.Except
import LexicalPatterns.Syntax.Parse

/-!
# What parsers read

Parsers carry the evidence that they leave fewer tokens, which lets them recurse. What they read and
where they stop is told without it, and each of them is described by one equation.
-/

namespace LexicalPatterns

def Parsed.result {α : Type} {c : Cursor} (p : Parsed α c) : α × Cursor := (p.value, p.next)

namespace Parse

section Results

variable {ε α β : Type} {c : Cursor}

theorem bind_result (x : Except ε (Parsed α c)) (f : α × Cursor → Except ε β) :
    (x >>= fun p => f p.result) = x.map Parsed.result >>= f := by
  cases x <;> rfl

theorem map_val_bind {p q : α → Prop} (x : Except ε { a // p a }) (h : ∀ a, p a → q a) :
    (x >>= fun a => pure ⟨a.1, h a.1 a.2⟩ : Except ε { a // q a }).map Subtype.val =
      x.map Subtype.val := by
  cases x <;> rfl

end Results

variable (source : String)

def readToken (kind : TokenKind) (expected : Expected) (c : Cursor) :
    Except ParseFailure (Token × Cursor) := (token source kind expected c).map Parsed.result

def readNumber (c : Cursor) : Except ParseFailure (Nat × Cursor) :=
  (number source c).map Parsed.result

def readBounds (c : Cursor) : Except ParseFailure (NodeKind × Cursor) :=
  (bounds source c).map Parsed.result

def readRepetitions (first start : Nat) (b : Builder) (c : Cursor) :
    Except ParseFailure (Builder × Cursor) :=
  (repetitions source first start b c).map Subtype.val

def readLiteral (low : Token) (rest : List Token) :
    Except ParseFailure ((NodeKind × Span) × Cursor) :=
  (literal source low rest).map Subtype.val

def readUnit (b : Builder) (c : Cursor) : Except ParseFailure (Builder × Cursor) :=
  (unit source b c).map Parsed.result

def readItem (b : Builder) (c : Cursor) : Except ParseFailure (Builder × Cursor) :=
  (item source b c).map Parsed.result

def readSequence (b : Builder) (c : Cursor) : Except ParseFailure ((Nat × Builder) × Cursor) :=
  (sequence source b c).map Parsed.result

def readBranches (b : Builder) (c : Cursor) :
    Except ParseFailure ((List Stretch × Builder) × Cursor) :=
  (branches source b c).map Parsed.result

def readAlternation (grouped : Bool) (b : Builder) (c : Cursor) :
    Except ParseFailure (Builder × Cursor) := (alternation source grouped b c).map Parsed.result

def readDefinition (b : Builder) (c : Cursor) : Except ParseFailure (Builder × Cursor) :=
  (definition source b c).map Parsed.result

variable {source : String}

theorem readToken_eq (kind : TokenKind) (expected : Expected) (c : Cursor) :
    readToken source kind expected c =
      match c.rest with
      | [] => .error (c.unexpected source expected)
      | t :: ts => if t.kind = kind then .ok (t, .after t ts)
        else .error (c.unexpected source expected) := by
  obtain ⟨rest, stop⟩ := c
  unfold readToken token
  cases rest with
  | nil => rfl
  | cons t ts => dsimp only; split <;> rfl

theorem readNumber_eq (c : Cursor) :
    readNumber source c = (do
      let (t, next) ← readToken source .number .number c
      let n := decimal (t.text source).toList
      if n < UInt32.size then return (n, next)
      else throw ⟨.invalidNumber (t.text source) t.span, next.rest⟩) := by
  unfold readNumber number readToken
  rw [map_bind_eq, ← bind_result]
  congr 1
  funext p
  dsimp only [Parsed.result]
  split <;> rfl

theorem readBounds_eq (c : Cursor) :
    readBounds source c = (do
      let (min, next) ← readNumber source c
      match next.rest with
      | [] => throw (next.unexpected source .closeBrace)
      | t :: ts =>
        if t.kind = .mark .comma then
          if ts.head?.any (·.kind = .number) then
            let (max, next) ← readNumber source (.after t ts)
            let (_, next) ← readToken source (.mark .closeBrace) .closeBrace next
            return (.between min max, next)
          else
            let (_, next) ← readToken source (.mark .closeBrace) .closeBrace (.after t ts)
            return (.atLeast min, next)
        else
          let (_, next) ← readToken source (.mark .closeBrace) .closeBrace next
          return (.exactly min, next)) := by
  unfold readBounds bounds readNumber readToken
  rw [map_bind_eq, ← bind_result]
  congr 1
  funext ⟨min, ⟨rest, stop⟩, _⟩
  cases rest with
  | nil => rfl
  | cons t ts =>
    dsimp only [Parsed.result]
    split
    · split
      · rw [map_bind_eq, ← bind_result]
        congr 1
        funext max
        rw [map_bind_eq, ← bind_result]
        rfl
      · rw [map_bind_eq, ← bind_result]
        rfl
    · rw [map_bind_eq, ← bind_result]
      rfl

theorem readRepetitions_eq (first start : Nat) (b : Builder) (c : Cursor) :
    readRepetitions source first start b c =
      match c.rest with
      | [] => .ok (b, c)
      | t :: ts =>
        let simple (kind : NodeKind) :=
          readRepetitions source first start (b.wrap first 1 kind ⟨start, t.span.stop⟩)
            (.after t ts)
        match t.kind with
        | .mark .question => simple (.between 0 1)
        | .mark .star => simple (.atLeast 0)
        | .mark .plus => simple (.atLeast 1)
        | .mark .openBrace => do
          let (kind, next) ← readBounds source (.after t ts)
          readRepetitions source first start (b.wrap first 1 kind ⟨start, next.stop⟩) next
        | _ => .ok (b, c) := by
  obtain ⟨rest, stop⟩ := c
  cases rest with
  | nil => rw [readRepetitions, repetitions]; rfl
  | cons t ts =>
    obtain ⟨kind, span⟩ := t
    unfold readRepetitions
    rw [repetitions]
    cases kind with
    | mark m =>
      cases m with
      | question => exact map_val_bind _ _
      | star => exact map_val_bind _ _
      | plus => exact map_val_bind _ _
      | openBrace =>
        dsimp only
        rw [map_bind_eq, readBounds, ← bind_result]
        congr 1
        funext p
        exact map_val_bind _ _
      | _ => rfl
    | _ => rfl

theorem readLiteral_eq (low : Token) (rest : List Token) :
    readLiteral source low rest =
      match rest with
      | a :: b :: more =>
        if atRangeDots (a :: b :: more) then do
          let (high, next) ← readToken source .quote .quote (.after b more)
          match Quote.bytes (low.text source), Quote.bytes (high.text source) with
          | [l], [h] => return ((.range l h, low.span.join high.span), next)
          | _, _ => throw ⟨.invalidRange (low.span.join high.span), next.rest⟩
        else .ok ((literalKind (Quote.bytes (low.text source)), low.span), .after low rest)
      | rest => .ok ((literalKind (Quote.bytes (low.text source)), low.span), .after low rest) := by
  unfold readLiteral
  match rest with
  | [] => rfl
  | [_] => rfl
  | a :: b :: more =>
    unfold literal
    dsimp only
    split
    · rw [map_bind_eq, readToken, ← bind_result]
      congr 1
      funext high
      dsimp only [Parsed.result]
      rcases Quote.bytes (low.text source) with _ | ⟨l, _ | ⟨l', ls⟩⟩ <;>
        rcases Quote.bytes (high.value.text source) with _ | ⟨h, _ | ⟨h', hs⟩⟩ <;> rfl
    · rfl

theorem readUnit_eq (b : Builder) (c : Cursor) :
    readUnit source b c =
      match c.rest with
      | [] => .error (c.unexpected source .pattern)
      | t :: ts =>
        match t.kind with
        | .mark .dot => .ok (b.add .wildcard t.span, .after t ts)
        | .identifier => .ok (b.add .reference t.span, .after t ts)
        | .quote => do
          let ((kind, span), next) ← readLiteral source t ts
          return (b.add kind span, next)
        | .mark .openBracket => do
          let (built, next) ← readAlternation source true b (.after t ts)
          match next.rest with
          | [] => throw ⟨.unclosedGroup ⟨t.span.start, source.utf8ByteSize⟩, []⟩
          | close :: more =>
            if close.kind = .mark .closeBracket then return (built, .after close more)
            else throw (next.unexpected source .closeBracket)
        | _ => .error (c.unexpected source .pattern) := by
  obtain ⟨rest, stop⟩ := c
  unfold readUnit
  rw [unit]
  cases rest with
  | nil => rfl
  | cons t ts =>
    obtain ⟨kind, span⟩ := t
    cases kind with
    | mark m =>
      cases m with
      | openBracket =>
        dsimp only
        rw [map_bind_eq, readAlternation, ← bind_result]
        congr 1
        funext ⟨built, ⟨rest, stop⟩, _⟩
        cases rest with
        | nil => rfl
        | cons close more =>
          dsimp only [Parsed.result]
          split <;> rfl
      | _ => rfl
    | quote =>
      unfold readLiteral
      dsimp only
      cases literal source ⟨.quote, span⟩ ts <;> rfl
    | _ => rfl

theorem readItem_eq (b : Builder) (c : Cursor) :
    readItem source b c = (do
      let (built, next) ← readUnit source b c
      readRepetitions source b.length (c.start source) built next) := by
  unfold readItem
  rw [item, map_bind_eq, readUnit, ← bind_result]
  congr 1
  funext u
  unfold readRepetitions
  dsimp only [Parsed.result]
  cases repetitions source b.length (c.start source) u.value u.next <;> rfl

theorem readSequence_eq (b : Builder) (c : Cursor) :
    readSequence source b c =
      if atUnit c.rest then do
        let (built, next) ← readItem source b c
        if atUnit next.rest then
          let ((count, built), next) ← readSequence source built next
          return ((count + 1, built), next)
        else return ((1, built), next)
      else .error (c.unexpected source .pattern) := by
  unfold readSequence
  rw [sequence]
  split
  · rw [map_bind_eq, readItem, ← bind_result]
    congr 1
    funext p
    dsimp only [Parsed.result]
    split
    · rw [map_bind_eq, ← bind_result]
      rfl
    · rfl
  · rfl

theorem readBranches_eq (b : Builder) (c : Cursor) :
    readBranches source b c = (do
      let ((count, built), next) ← readSequence source b c
      let branch : Stretch := ⟨b.length, count, ⟨c.start source, next.stop⟩⟩
      match next.rest with
      | [] => return (([branch], built), next)
      | t :: rest =>
        if t.kind = .mark .pipe then
          let ((branches, built), next) ← readBranches source built (.after t rest)
          return ((branch :: branches, built), next)
        else return (([branch], built), next)) := by
  unfold readBranches
  rw [branches, map_bind_eq, readSequence, ← bind_result]
  congr 1
  funext ⟨⟨count, built⟩, ⟨rest, stop⟩, _⟩
  cases rest with
  | nil => rfl
  | cons t rest =>
    dsimp only [Parsed.result]
    split
    · rw [map_bind_eq, ← bind_result]
      rfl
    · rfl

theorem readAlternation_eq (grouped : Bool) (b : Builder) (c : Cursor) :
    readAlternation source grouped b c = (do
      let ((branches, built), next) ← readBranches source b c
      let span : Span := ⟨c.start source, next.stop⟩
      return (gather grouped b.length span branches built, next)) := by
  unfold readAlternation
  rw [alternation, map_bind_eq, readBranches, ← bind_result]
  rfl

theorem readDefinition_eq (b : Builder) (c : Cursor) :
    readDefinition source b c = (do
      let (name, next) ← readToken source .identifier .patternName c
      let (_, body) ← readToken source (.mark .equal) .equal next
      let inside := (b.add .definition name.span).push.add .declaration name.span
      let (built, next) ← readAlternation source false inside body
      if next.rest.head?.all (·.kind = .identifier) then
        return (built.pop.setSpan b.length ⟨name.span.start, next.stop⟩, next)
      else throw (next.unexpected source .nextDefinition)) := by
  unfold readDefinition definition readToken readAlternation
  rw [map_bind_eq, ← bind_result]
  congr 1
  funext ⟨name, afterName, _⟩
  dsimp only [Parsed.result]
  rw [map_bind_eq, ← bind_result]
  congr 1
  funext ⟨equal, body, _⟩
  dsimp only [Parsed.result]
  rw [map_bind_eq, ← bind_result]
  congr 1
  funext ⟨branches, next, _⟩
  rw [apply_ite (Except.map Parsed.result)]
  rfl

theorem definitions_eq (b : Builder) (c : Cursor) :
    definitions source b c =
      if c.rest.isEmpty then .ok b
      else (do
        let (built, next) ← readDefinition source b c
        definitions source built next) := by
  rw [definitions, readDefinition]
  split
  · rfl
  · rw [← bind_result]
    rfl

end Parse
end LexicalPatterns
