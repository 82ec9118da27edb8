import LexicalPatterns.Machine.Run
import LexicalPatterns.Text.WhiteSpace
import LexicalPatterns.Yaml.Value

/-!
# Settings

A settings file is a YAML map with at most three keys. Arguments of the command line go before its
values.
-/

namespace LexicalPatterns

structure Settings where
  /-- How deep references nest while matching. -/
  recursionLimit : Nat := defaultRecursionLimit
  /-- Whether references to undefined names are errors. -/
  strict : Bool := false
  /-- Patterns of names that are left out of directories. -/
  exclude : List String := []
  deriving DecidableEq, Repr

inductive SettingsError where
  /-- The text is no YAML map of known keys with values of their type. -/
  | malformed
  | recursionLimitRange (limit : Nat)
  deriving DecidableEq, Repr

def SettingsError.message : SettingsError → String
  | malformed => "invalid settings"
  | recursionLimitRange limit =>
    "recursion_limit must be between 1 and " ++ toString maxRecursionLimit ++ ", got " ++
      toString limit

namespace Settings

def digits? (base : Nat) (cs : List Char) : Option Nat := do
  if cs.isEmpty then none
  let values ← cs.mapM Yaml.hexValue?
  if values.all (· < base) then return values.foldl (fun n d => n * base + d) 0 else none

/-- A number below `2 ^ 64`: decimal without leading zeros, or with a mark for base sixteen, eight
or two. -/
def natural? (text : String) : Option Nat := do
  let cs := match text.toList with
    | '+' :: cs => cs
    | cs => cs
  let marked := match cs with
    | '0' :: 'x' :: cs => digits? 16 cs
    | '0' :: 'o' :: cs => digits? 8 cs
    | '0' :: 'b' :: cs => digits? 2 cs
    | ['0'] => some 0
    | '0' :: _ => none
    | cs => digits? 10 cs
  let n ← marked
  if n < UInt64.size then return n else none

def flag? (text : String) : Option Bool :=
  if text ∈ ["true", "True", "TRUE"] then some true
  else if text ∈ ["false", "False", "FALSE"] then some false
  else none

def text? : Yaml.Value → Option String
  | .scalar text _ => some text
  | _ => none

def set (s : Settings) (key : String) (value : Yaml.Value) : Option Settings :=
  match key, value with
  | "recursion_limit", .scalar text true => do return { s with recursionLimit := ← natural? text }
  | "strict", .scalar text true => do return { s with strict := ← flag? text }
  | "exclude", .list items => do return { s with exclude := ← items.mapM text? }
  | "exclude", .scalar "" true => some { s with exclude := [] }
  | _, _ => none

/-- The settings of a map, in which no key stands twice. -/
def ofEntries (s : Settings) (seen : List String) : List (Yaml.Value × Yaml.Value) → Option Settings
  | [] => some s
  | (key, value) :: entries => do
    let key ← text? key
    if key ∈ seen then none
    let s ← s.set key value
    ofEntries s (key :: seen) entries

def ofValue : Yaml.Value → Option Settings
  | .map entries => ofEntries {} [] entries
  | .scalar "" true => some {}
  | _ => none

/-- The settings of a text. White space alone leaves all of them as they are. -/
def ofText (text : String) : Except SettingsError Settings :=
  if text.toList.all isWhiteSpace then .ok {}
  else
    match (Yaml.Value.ofText? text).bind ofValue with
    | none => .error .malformed
    | some s =>
      if 1 ≤ s.recursionLimit ∧ s.recursionLimit ≤ maxRecursionLimit then .ok s
      else .error (.recursionLimitRange s.recursionLimit)

end Settings
end LexicalPatterns
