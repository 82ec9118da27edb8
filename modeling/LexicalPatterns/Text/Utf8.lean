/-!
# UTF-8

Bytes are read as UTF-8 in two ways: `decode` refuses bytes that are not, and tells where; `lossy`
puts a replacement character for each longest piece that starts no character.
-/

namespace LexicalPatterns.Utf8

inductive Head where
  /-- A character, and the bytes after it. -/
  | char (c : Char) (rest : List UInt8)
  /-- This many bytes that start like a character, or a byte that starts none, and that the next
  byte does not continue. -/
  | invalid (length : Nat)
  /-- The start of a character that the end of the bytes cuts off. -/
  | incomplete

/-- For a byte that starts a longer character: how many bytes follow, and the bounds of the next
one. -/
def lead? (b : UInt8) : Option (Nat × UInt8 × UInt8) :=
  if 0xC2 ≤ b && b ≤ 0xDF then some (1, 0x80, 0xBF)
  else if b = 0xE0 then some (2, 0xA0, 0xBF)
  else if b = 0xED then some (2, 0x80, 0x9F)
  else if 0xE1 ≤ b && b ≤ 0xEF then some (2, 0x80, 0xBF)
  else if b = 0xF0 then some (3, 0x90, 0xBF)
  else if 0xF1 ≤ b && b ≤ 0xF3 then some (3, 0x80, 0xBF)
  else if b = 0xF4 then some (3, 0x80, 0x8F)
  else none

/-- The bits of a byte that starts a character of `following + 1` bytes. -/
def leadBits (following : Nat) (b : UInt8) : Nat := b.toNat % (64 >>> following)

/-- Reads the `following` last bytes of a character whose first `read` bytes gave `value`. -/
def continued : (following : Nat) → (low high : UInt8) → (value read : Nat) → List UInt8 → Head
  | 0, _, _, value, _, rest => .char (Char.ofNat value) rest
  | _ + 1, _, _, _, _, [] => .incomplete
  | following + 1, low, high, value, read, b :: bs =>
    if low ≤ b && b ≤ high then
      continued following 0x80 0xBF (value * 64 + b.toNat % 64) (read + 1) bs
    else .invalid read

def head (b : UInt8) (bs : List UInt8) : Head :=
  if b < 0x80 then .char (Char.ofNat b.toNat) bs
  else
    match lead? b with
    | none => .invalid 1
    | some (following, low, high) => continued following low high (leadBits following b) 1 bs

theorem length_continued {following value read : Nat} {low high : UInt8} {bs rest : List UInt8}
    {c : Char} (h : continued following low high value read bs = .char c rest) :
    rest.length ≤ bs.length := by
  fun_induction continued following low high value read bs with
  | case1 => cases h; exact Nat.le_refl _
  | case2 => cases h
  | case3 _ _ _ _ _ b bs _ ih => exact Nat.le_succ_of_le (ih h)
  | case4 => cases h

theorem length_head {b : UInt8} {bs rest : List UInt8} {c : Char} (h : head b bs = .char c rest) :
    rest.length ≤ bs.length := by
  simp only [head] at h
  split at h
  · cases h; exact Nat.le_refl _
  · split at h
    · cases h
    · exact length_continued h

inductive Error where
  | invalid (length index : Nat)
  | incomplete (index : Nat)
  deriving DecidableEq, Repr

/-- How many bytes come before the error. -/
def Error.index : Error → Nat
  | invalid _ index => index
  | incomplete index => index

def Error.message : Error → String
  | invalid length index =>
    "invalid utf-8 sequence of " ++ toString length ++ " bytes from index " ++ toString index
  | incomplete index => "incomplete utf-8 byte sequence from index " ++ toString index

def firstError (index : Nat) (bytes : List UInt8) : Option Error :=
  match bytes with
  | [] => none
  | b :: bs =>
    match h : head b bs with
    | .char _ rest =>
      have := length_head h
      firstError (index + (bs.length + 1 - rest.length)) rest
    | .invalid length => some (.invalid length index)
    | .incomplete => some (.incomplete index)
termination_by bytes.length

def decode (bytes : ByteArray) : Except Error String :=
  match String.fromUTF8? bytes with
  | some s => .ok s
  | none => .error ((firstError 0 bytes.toList).getD (.incomplete 0))

def lossyAfter (before : String) (bytes : List UInt8) : String :=
  match bytes with
  | [] => before
  | b :: bs =>
    match h : head b bs with
    | .char c rest =>
      have := length_head h
      lossyAfter (before.push c) rest
    | .invalid length => lossyAfter (before.push '\uFFFD') (bs.drop (length - 1))
    | .incomplete => before.push '\uFFFD'
termination_by bytes.length
decreasing_by
  · simp only [List.length_cons]; omega
  · simp only [List.length_drop, List.length_cons]; omega

/-- The text that the bytes are, with a replacement character for each piece that is none. -/
def lossy (bytes : List UInt8) : String := lossyAfter "" bytes

end LexicalPatterns.Utf8
