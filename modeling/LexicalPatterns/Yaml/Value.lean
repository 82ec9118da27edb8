import LexicalPatterns.Yaml.Token

/-!
# YAML values

The value of a document is read from its tokens. Where an entry, a key or what belongs to it is left
out, the value is that of nothing: an empty plain scalar.
-/

namespace LexicalPatterns.Yaml

inductive Value where
  /-- A scalar; `plain` when it has no quote marks. -/
  | scalar (text : String) (plain : Bool)
  | list (items : List Value)
  | map (entries : List (Value × Value))
  deriving Repr

namespace Value

/-- The value of nothing at all. -/
def nothing : Value := scalar "" true

abbrev Reading := Option (Value × List Token)

mutual

/-- A value. With `inMap` a block list may start without a token of its own. -/
def value : (fuel : Nat) → (block inMap : Bool) → List Token → Reading
  | 0, _, _, _ => none
  | fuel + 1, block, inMap, ts =>
    match ts, block, inMap with
    | .scalar text plain :: ts, _, _ => some (scalar text plain, ts)
    | .openList :: .closeList :: ts, _, _ => some (list [], ts)
    | .openList :: ts, _, _ => flowList fuel [] ts
    | .openMap :: .closeMap :: ts, _, _ => some (map [], ts)
    | .openMap :: ts, _, _ => flowMap fuel [] ts
    | .blockList :: ts, true, _ => blockList fuel true [] ts
    | .blockMap :: ts, true, _ => blockMap fuel [] ts
    | .entry :: ts, true, true => blockList fuel false [] (.entry :: ts)
    | _, _, _ => none

/-- A value in a block collection, or nothing where the next part of the collection comes first. -/
def blockPart : (fuel : Nat) → (inMap : Bool) → List Token → Reading
  | 0, _, _ => none
  | fuel + 1, inMap, ts =>
    match ts, inMap with
    | .key :: _, _ | .colon :: _, _ | .blockEnd :: _, _ | .entry :: _, false => some (nothing, ts)
    | ts, inMap => value fuel true inMap ts

/-- The rest of a block list after `items`. If it is not `closed` it ends without a token of its
own. -/
def blockList : (fuel : Nat) → (closed : Bool) → (items : List Value) → List Token → Reading
  | 0, _, _, _ => none
  | fuel + 1, closed, items, ts =>
    match ts, closed with
    | .entry :: ts, _ => do
      let (item, ts) ← blockPart fuel false ts
      blockList fuel closed (items ++ [item]) ts
    | .blockEnd :: ts, true => some (list items, ts)
    | ts, false => some (list items, ts)
    | _, true => none

def blockMap : (fuel : Nat) → (entries : List (Value × Value)) → List Token → Reading
  | 0, _, _ => none
  | fuel + 1, entries, ts =>
    match ts with
    | .key :: ts => do
      let (key, ts) ← blockPart fuel true ts
      let (value, ts) ← match ts with
        | .colon :: ts => blockPart fuel true ts
        | ts => some (nothing, ts)
      blockMap fuel (entries ++ [(key, value)]) ts
    | .blockEnd :: ts => some (map entries, ts)
    | _ => none

def flowPart : (fuel : Nat) → List Token → Reading
  | 0, _ => none
  | fuel + 1, ts =>
    match ts with
    | .colon :: _ | .comma :: _ | .closeList :: _ | .closeMap :: _ => some (nothing, ts)
    | ts => value fuel false false ts

def flowEntry : (fuel : Nat) → List Token → Option ((Value × Value) × List Token)
  | 0, _ => none
  | fuel + 1, ts => do
    let (key, ts) ← flowPart fuel ts
    let (value, ts) ← match ts with
      | .colon :: ts => flowPart fuel ts
      | ts => some (nothing, ts)
    return ((key, value), ts)

/-- The rest of a flow list after `items`, from the next item on. -/
def flowList : (fuel : Nat) → (items : List Value) → List Token → Reading
  | 0, _, _ => none
  | fuel + 1, items, ts => do
    let (item, ts) ← match ts with
      | .key :: ts => do
        let (entry, ts) ← flowEntry fuel ts
        pure (map [entry], ts)
      | ts => value fuel false false ts
    match ts with
    | .closeList :: ts | .comma :: .closeList :: ts => some (list (items ++ [item]), ts)
    | .comma :: ts => flowList fuel (items ++ [item]) ts
    | _ => none

def flowMap : (fuel : Nat) → (entries : List (Value × Value)) → List Token → Reading
  | 0, _, _ => none
  | fuel + 1, entries, ts => do
    let (entry, ts) ← match ts with
      | .key :: ts => flowEntry fuel ts
      | ts => do
        let (key, ts) ← value fuel false false ts
        pure ((key, nothing), ts)
    match ts with
    | .closeMap :: ts | .comma :: .closeMap :: ts => some (map (entries ++ [entry]), ts)
    | .comma :: ts => flowMap fuel (entries ++ [entry]) ts
    | _ => none

end

def ofTokens? (ts : List Token) : Option Value := do
  let fuel := 3 * ts.length + 3
  let (value, rest) ← match ts with
    | [] | [.documentStart] => some (nothing, [])
    | .documentStart :: .documentEnd :: ts => some (nothing, ts)
    | .documentStart :: ts => value fuel true false ts
    | ts => value fuel true false ts
  if rest.all (· = .documentEnd) then return value else none

def ofText? (text : String) : Option Value := (tokens text).bind ofTokens?

end Value
end LexicalPatterns.Yaml
