/-!
# Lines

A line feed ends a line, and a carriage return right before it belongs to the end. What stands
behind the last line feed is a line too, unless it is empty.
-/

namespace LexicalPatterns

def withoutReturn (line : String) : String :=
  match line.toList.reverse with
  | '\r' :: cs => String.ofList cs.reverse
  | _ => line

def linesOf (text : String) : List String :=
  let parts := text.splitOn "\n"
  let ended := parts.dropLast.map withoutReturn
  match parts.getLast? with
  | none | some "" => ended
  | some last => ended ++ [last]

end LexicalPatterns
