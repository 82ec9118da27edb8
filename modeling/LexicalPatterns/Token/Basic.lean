import LexicalPatterns.Text.Span

/-!
# Tokens

A pattern source is a sequence of tokens: one-character marks, numbers, quoted literals,
identifiers, and single characters that start none of these.
-/

namespace LexicalPatterns

/-- The characters that are a token by themselves. -/
inductive Mark where
  | equal | dot | pipe | comma | question | star | plus
  | openBrace | closeBrace | openBracket | closeBracket
  deriving DecidableEq, Repr

namespace Mark

def all : List Mark :=
  [equal, dot, pipe, comma, question, star, plus, openBrace, closeBrace, openBracket, closeBracket]

def char : Mark → Char
  | equal => '='
  | dot => '.'
  | pipe => '|'
  | comma => ','
  | question => '?'
  | star => '*'
  | plus => '+'
  | openBrace => '\x7b'
  | closeBrace => '\x7d'
  | openBracket => '['
  | closeBracket => ']'

def ofChar? (c : Char) : Option Mark := all.find? (fun m => m.char == c)

def ofByte? (b : UInt8) : Option Mark := ofChar? (Char.ofNat b.toNat)

theorem ofChar?_char (m : Mark) : ofChar? m.char = some m := by cases m <;> decide

theorem char_of_ofChar? {c : Char} {m : Mark} (h : ofChar? c = some m) : m.char = c := by
  simpa using List.find?_some h

end Mark

/-- The lexical classes. -/
inductive TokenKind where
  | mark (m : Mark)
  | number
  | quote
  | identifier
  | unknown
  deriving DecidableEq, Repr

namespace TokenKind

def isMark : TokenKind → Bool
  | mark _ => true
  | _ => false

def display : TokenKind → String
  | mark m => "`" ++ m.char.toString ++ "`"
  | number => "number"
  | quote => "quoted literal"
  | identifier => "identifier"
  | unknown => "unknown character"

end TokenKind

/-- A token of a source, which holds its text. -/
structure Token where
  kind : TokenKind
  span : Span
  deriving DecidableEq, Repr

def Token.text (t : Token) (source : String) : String := t.span.text source

end LexicalPatterns
