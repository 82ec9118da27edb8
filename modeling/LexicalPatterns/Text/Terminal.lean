import LexicalPatterns.Text.Utf8

/-!
# Terminal text

Texts for a terminal hold sequences that set colours and the like. An escape character starts them.
`Terminal.visible` is what is left of such a text without its sequences and control characters.
White space stays, and outside of sequences so does everything that is not ASCII.
-/

namespace LexicalPatterns.Terminal

/-- Where reading stands between two bytes. -/
inductive State where
  /-- Behind a byte that is seen. -/
  | text
  /-- In no sequence, behind a byte that is not seen. -/
  | ground
  /-- Behind an escape character. -/
  | escape
  /-- In a sequence that ends with a digit or a letter. -/
  | designation
  /-- In a sequence of parameters that ends with a letter. -/
  | control
  /-- In a command to the system, which a bell ends. -/
  | command
  /-- At the start of a request to a device. -/
  | request
  /-- In the parameters of a request. -/
  | parameters
  /-- Behind the parameters of a request. -/
  | selection
  /-- In a string, which the byte that terminates strings ends. -/
  | string
  deriving DecidableEq, Repr

namespace State

def next (s : State) (b : UInt8) : State :=
  if b = 0x1b then escape
  else if b = 0x18 || b = 0x1a then ground
  else
    match s with
    | text | ground => ground
    | escape =>
      if b < 0x20 || 0x7f ≤ b then escape
      else if b < 0x30 then designation
      else if b = 0x50 then request
      else if b = 0x5b then control
      else if b = 0x5d then command
      else if b ∈ [0x58, 0x5e, 0x5f] then string
      else ground
    | designation => if 0x30 ≤ b && b < 0x7f then ground else designation
    | control => if 0x40 ≤ b && b < 0x7f then ground else control
    | command => if b = 0x07 then ground else command
    | request =>
      if b < 0x20 || 0x7f ≤ b then request
      else if b < 0x30 then selection
      else if b < 0x40 then parameters
      else string
    | parameters =>
      if b < 0x20 || 0x7f ≤ b then parameters
      else if b < 0x30 then selection
      else if b < 0x3c then parameters
      else string
    | selection => if b < 0x30 || 0x7f ≤ b then selection else string
    | string => if b = 0x9c then ground else string

def shows (s : State) (b : UInt8) : Bool :=
  let isSpace := b ∈ [0x09, 0x0a, 0x0c, 0x0d]
  let isStart := isSpace || (0x20 ≤ b && b < 0x7f) || 0xc0 ≤ b
  match s with
  | text => isStart || (0x80 ≤ b && b < 0xc0)
  | ground => isStart
  | escape | designation | control => isSpace
  | command | request | parameters | selection | string => false

end State

/-- The bytes that are seen. A byte that is seen ends every sequence. -/
def visibleBytes (s : State) : List UInt8 → List UInt8
  | [] => []
  | b :: bs => if s.shows b then b :: visibleBytes .text bs else visibleBytes (s.next b) bs

def visible (text : String) : String := Utf8.lossy (visibleBytes .text text.toUTF8.toList)

def styled (style : Nat) (text : String) : String :=
  "\x1b[" ++ toString style ++ "m" ++ text ++ "\x1b[0m"

def bold : Nat := 1

def yellow : Nat := 33

end LexicalPatterns.Terminal
