/-!
# JSON text

Values with ordered members, and their text over several lines with two spaces for each level.
-/

namespace LexicalPatterns

inductive JsonValue where
  | null
  | number (n : Nat)
  | string (s : String)
  | array (items : List JsonValue)
  | object (members : List (String × JsonValue))

namespace JsonValue

/-- A character in a JSON string. Only the quote mark, the backslash and the control characters
below the space are escaped. -/
def escapedChar (c : Char) : String :=
  if c = '"' then "\\\""
  else if c = '\\' then "\\\\"
  else if c = '\x08' then "\\b"
  else if c = '\t' then "\\t"
  else if c = '\n' then "\\n"
  else if c = '\x0c' then "\\f"
  else if c = '\r' then "\\r"
  else if c < ' ' then
    String.ofList ['\\', 'u', '0', '0', Nat.digitChar (c.toNat / 16), Nat.digitChar (c.toNat % 16)]
  else c.toString

def quote (s : String) : String := "\"" ++ String.join (s.toList.map escapedChar) ++ "\""

def newline (level : Nat) : String := "\n" ++ "".pushn ' ' (2 * level)

mutual

def text (level : Nat) : JsonValue → String
  | null => "null"
  | number n => toString n
  | string s => quote s
  | array items =>
    if items.isEmpty then "[]"
    else "[" ++ ",".intercalate (itemTexts (level + 1) items) ++ newline level ++ "]"
  | object members =>
    if members.isEmpty then "\x7b\x7d"
    else "\x7b" ++ ",".intercalate (memberTexts (level + 1) members) ++ newline level ++ "\x7d"

def itemTexts (level : Nat) : List JsonValue → List String
  | [] => []
  | v :: vs => (newline level ++ text level v) :: itemTexts level vs

def memberTexts (level : Nat) : List (String × JsonValue) → List String
  | [] => []
  | (name, v) :: vs =>
    (newline level ++ quote name ++ ": " ++ text level v) :: memberTexts level vs

end

def pretty (v : JsonValue) : String := text 0 v

end JsonValue
end LexicalPatterns
