import LexicalPatterns.Machine.Run
import LexicalPatterns.Report.Format
import LexicalPatterns.Text.Lines
import LexicalPatterns.Text.Terminal

/-!
# Arguments

The arguments of the command line are paths, switches and options with a value. A value stands
behind its option, separately or attached to it. Options other than `--input` and switches are given
once at most. After `--` every argument is a path.
-/

namespace LexicalPatterns

structure Arguments where
  paths : List String := []
  pattern : Option String := none
  inputs : List String := []
  inputFile : Option String := none
  stdin : Bool := false
  search : Bool := false
  dump : Bool := false
  tokens : Bool := false
  list : Bool := false
  format : ReportFormat := .text
  config : Option String := none
  strict : Bool := false
  recursionLimit : Option Nat := none
  debug : Bool := false
  deriving DecidableEq, Repr

inductive ArgumentsError where
  /-- A value is missing, empty where it must not be, or none of those that are possible. -/
  | invalidValue
  /-- A value is refused for the reason in the message. -/
  | refusedValue (message : String)
  /-- Something is given twice. -/
  | conflict
  /-- A switch is given a value. -/
  | unneededValue
  | unknown
  /-- The help text is asked for, and nothing else. -/
  | helpAsked
  /-- The version is asked for, and nothing else. -/
  | versionAsked
  deriving DecidableEq, Repr

def versionText : String := "patlak 0.1.0"

namespace ArgumentsError

def exitCode : ArgumentsError → Nat
  | helpAsked | versionAsked => 0
  | _ => 2

def message : ArgumentsError → String
  | invalidValue => "error: invalid value"
  | refusedValue message => message
  | conflict => "error: the argument cannot be used multiple times"
  | unneededValue => "error: unexpected value"
  | unknown => "error: unexpected argument"
  | helpAsked =>
    "Usage: patlak [--pattern NAME] [--input TEXT] [--input-file FILE] [--stdin] [--search] " ++
      "[--dump] [--tokens] [--list] [--format text|json] [--config FILE] [--strict] " ++
      "[--recursion-limit N] [--debug] [PATHS]"
  | versionAsked => versionText

end ArgumentsError

inductive ValueOption where
  | pattern | input | inputFile | format | config | recursionLimit
  deriving DecidableEq, Repr

inductive Switch where
  | stdin | search | dump | tokens | list | strict | debug | help | version
  deriving DecidableEq, Repr

inductive Flag where
  | option (o : ValueOption)
  | switch (s : Switch)
  deriving DecidableEq, Repr

namespace Flag

def ofLong? (name : String) : Option Flag :=
  match name with
  | "pattern" => some (option .pattern)
  | "input" => some (option .input)
  | "input-file" => some (option .inputFile)
  | "format" => some (option .format)
  | "config" => some (option .config)
  | "recursion-limit" => some (option .recursionLimit)
  | "stdin" => some (switch .stdin)
  | "search" => some (switch .search)
  | "dump" => some (switch .dump)
  | "tokens" => some (switch .tokens)
  | "list" => some (switch .list)
  | "strict" => some (switch .strict)
  | "debug" => some (switch .debug)
  | "help" => some (switch .help)
  | "version" => some (switch .version)
  | _ => none

def ofShort? (c : Char) : Option Flag :=
  match c with
  | 'p' => some (option .pattern)
  | 'i' => some (option .input)
  | 'f' => some (option .format)
  | 'c' => some (option .config)
  | 'h' => some (switch .help)
  | 'V' => some (switch .version)
  | _ => none

end Flag

/-- A decimal number below `2 ^ 64`, which may have a plus sign. -/
def wordValue? (text : String) : Option Nat :=
  let cs := match text.toList with
    | '+' :: cs => cs
    | cs => cs
  if cs.isEmpty || !cs.all Char.isDigit then none
  else
    let n := cs.foldl (fun n d => n * 10 + (d.toNat - 48)) 0
    if n < UInt64.size then some n else none

/-- The refusal of a recursion limit as a terminal shows it, up to the end of the first line. What
starts a sequence in the value may take some of the text behind it away. -/
def limitRefused (value reason : String) : ArgumentsError :=
  let text := Terminal.visible <|
    "error: invalid value '" ++ Terminal.styled Terminal.yellow value ++ "' for '" ++
      Terminal.styled Terminal.bold "--recursion-limit <N>" ++ "': " ++ reason ++
      "\n\nFor more information, try '" ++ Terminal.styled Terminal.bold "--help" ++ "'.\n"
  .refusedValue ((linesOf text).headD "")

def recursionLimitOf (value : String) : Except ArgumentsError Nat :=
  match wordValue? value with
  | none => .error (limitRefused value ("`" ++ value ++ "` is not a number"))
  | some n =>
    if 1 ≤ n ∧ n ≤ maxRecursionLimit then .ok n
    else .error (limitRefused value ("must be between 1 and " ++ toString maxRecursionLimit))

def formatOf (value : String) : Except ArgumentsError ReportFormat :=
  match value with
  | "text" => .ok .text
  | "json" => .ok .json
  | _ => .error .invalidValue

/-- A path, which must not be empty. -/
def pathOf (value : String) : Except ArgumentsError String :=
  if value = "" then .error .invalidValue else .ok value

namespace Arguments

def withValue (a : Arguments) (o : ValueOption) (value : String) :
    Except ArgumentsError Arguments :=
  match o with
  | .pattern => .ok { a with pattern := some value }
  | .input => .ok { a with inputs := a.inputs ++ [value] }
  | .inputFile => do return { a with inputFile := some (← pathOf value) }
  | .format => do return { a with format := ← formatOf value }
  | .config => do return { a with config := some (← pathOf value) }
  | .recursionLimit => do return { a with recursionLimit := some (← recursionLimitOf value) }

def withSwitch (a : Arguments) : Switch → Except ArgumentsError Arguments
  | .stdin => .ok { a with stdin := true }
  | .search => .ok { a with search := true }
  | .dump => .ok { a with dump := true }
  | .tokens => .ok { a with tokens := true }
  | .list => .ok { a with list := true }
  | .strict => .ok { a with strict := true }
  | .debug => .ok { a with debug := true }
  | .help => .error .helpAsked
  | .version => .error .versionAsked

end Arguments

/-- What was given last and still awaits its check. -/
inductive Pending where
  | nothing
  /-- An option, with its value unless that is still to come. -/
  | option (o : ValueOption) (value : Option String)
  | paths (values : List String)
  deriving DecidableEq, Repr

structure ArgumentReader where
  arguments : Arguments := {}
  /-- What must not be given again. -/
  given : List Flag := []
  pending : Pending := .nothing

namespace ArgumentReader

/-- Notes that a flag is given, once at most. -/
def once (r : ArgumentReader) (f : Flag) : Except ArgumentsError ArgumentReader :=
  if f ∈ r.given then .error .conflict else .ok { r with given := f :: r.given }

def take (r : ArgumentReader) (o : ValueOption) (value : String) :
    Except ArgumentsError ArgumentReader := do
  let r ← if o = .input then pure r else r.once (.option o)
  return { r with arguments := ← r.arguments.withValue o value }

/-- Checks and takes what was given last. -/
def settle (r : ArgumentReader) : Except ArgumentsError ArgumentReader :=
  let settled := { r with pending := .nothing }
  match r.pending with
  | .nothing => .ok settled
  | .option _ none => .error .invalidValue
  | .option o (some value) => settled.take o value
  | .paths values => do
    let paths ← values.mapM pathOf
    return { settled with arguments.paths := r.arguments.paths ++ paths }

def option (r : ArgumentReader) (o : ValueOption) (attached : Option String) :
    Except ArgumentsError ArgumentReader := do
  let r ← r.settle
  match attached with
  | some value => r.take o value
  | none => return { r with pending := .option o none }

def switch (r : ArgumentReader) (s : Switch) : Except ArgumentsError ArgumentReader := do
  let r ← r.settle
  match s with
  | .help | .version => return { r with arguments := ← r.arguments.withSwitch s }
  | s =>
    let r ← r.once (.switch s)
    return { r with arguments := ← r.arguments.withSwitch s }

def path (r : ArgumentReader) (value : String) : Except ArgumentsError ArgumentReader :=
  match r.pending with
  | .paths values => .ok { r with pending := .paths (values ++ [value]) }
  | _ => do
    let r ← r.settle
    return { r with pending := .paths [value] }

def long (r : ArgumentReader) (text : List Char) : Except ArgumentsError ArgumentReader :=
  let name := String.ofList (text.takeWhile (· ≠ '='))
  let value := match text.dropWhile (· ≠ '=') with
    | [] => none
    | _ :: cs => some (String.ofList cs)
  match Flag.ofLong? name, value with
  | some (.option o), value => r.option o value
  | some (.switch s), none => r.switch s
  | some (.switch _), some _ => .error .unneededValue
  | none, _ => .error .unknown

/-- Reads what stands behind one hyphen: switches, and then an option with the rest as its value. -/
def short (r : ArgumentReader) : List Char → Except ArgumentsError ArgumentReader
  | [] => .ok r
  | c :: cs =>
    match Flag.ofShort? c with
    | some (.option o) =>
      r.option o (match cs with
        | [] => none
        | '=' :: value => some (String.ofList value)
        | value => some (String.ofList value))
    | some (.switch s) => do short (← r.switch s) cs
    | none => .error .unknown

def plain (r : ArgumentReader) (text : String) : Except ArgumentsError ArgumentReader :=
  match r.pending with
  | .option o none => .ok { r with pending := .option o (some text) }
  | _ => r.path text

/-- Reads all arguments. With `onlyPaths` nothing else can follow. -/
def read (onlyPaths : Bool) : List String → ArgumentReader → Except ArgumentsError ArgumentReader
  | [], r => r.settle
  | text :: texts, r =>
    if onlyPaths then do read true texts (← r.path text)
    else
      match text.toList with
      | ['-', '-'] => read true texts r
      | '-' :: '-' :: cs => do read false texts (← r.long cs)
      | '-' :: c :: cs => do read false texts (← r.short (c :: cs))
      | _ => do read false texts (← r.plain text)

end ArgumentReader

/-- The arguments that the texts give. Without paths the working directory is meant. -/
def Arguments.parse (texts : List String) : Except ArgumentsError Arguments := do
  let r ← ArgumentReader.read false texts {}
  if r.arguments.paths.isEmpty then return { r.arguments with paths := ["."] }
  else return r.arguments

end LexicalPatterns
