import LexicalPatterns.Text.Escaped
import LexicalPatterns.Text.Span

/-!
# Syntax trees

A definition is a tree: its root holds the declared name and the items of the body. Items are
literals, references to other patterns, choices, groups and repetitions.
-/

namespace LexicalPatterns

/-- What a node of a syntax tree stands for. -/
inductive NodeKind where
  /-- The root of a definition: its declaration, then the items of its body. -/
  | definition
  /-- The declared name, which is the text of the node's span. -/
  | declaration
  /-- The use of a pattern by its name, which is the text of the node's span. -/
  | reference
  | character (byte : UInt8)
  | string (bytes : List UInt8)
  | range (low high : UInt8)
  | wildcard
  | choice
  | group
  | exactly (count : Nat)
  | between (min max : Nat)
  | atLeast (min : Nat)
  deriving DecidableEq, Repr

namespace NodeKind

def isRepeat : NodeKind → Bool
  | exactly _ | between _ _ | atLeast _ => true
  | _ => false

/-- The kind in a summary, where `text` is the text of the node's span. -/
def label (text : String) : NodeKind → String
  | definition => "def"
  | declaration => "decl:" ++ text
  | reference => "ref:" ++ text
  | character b => "char:" ++ quoteByte b
  | string bs => "str:\"" ++ escapeBytes bs ++ "\""
  | range low high => "range:" ++ quoteByte low ++ ".." ++ quoteByte high
  | wildcard => "any"
  | choice => "or"
  | group => "group"
  | exactly n => "repeat\x7b" ++ toString n ++ "\x7d"
  | between min max => "repeat\x7b" ++ toString min ++ "," ++ toString max ++ "\x7d"
  | atLeast min => "repeat\x7b" ++ toString min ++ ",\x7d"

end NodeKind

/-- A node with its children in source order. -/
inductive Tree where
  | node (kind : NodeKind) (span : Span) (children : List Tree)
  deriving Repr

namespace Tree

def kind : Tree → NodeKind
  | node k _ _ => k

def span : Tree → Span
  | node _ s _ => s

def children : Tree → List Tree
  | node _ _ cs => cs

def leaf (kind : NodeKind) (span : Span) : Tree := node kind span []

mutual

def size : Tree → Nat
  | node _ _ cs => 1 + sizes cs

def sizes : List Tree → Nat
  | [] => 0
  | t :: ts => size t + sizes ts

end

mutual

/-- The tree in one line: a leaf is its label, any other node its label and its children in
parentheses. -/
def summary (source : String) : Tree → String
  | node k s cs =>
    let label := k.label (s.text source)
    if cs.isEmpty then label else "(" ++ label ++ summaries source cs ++ ")"

def summaries (source : String) : List Tree → String
  | [] => ""
  | t :: ts => " " ++ summary source t ++ summaries source ts

end

end Tree
end LexicalPatterns
