import LexicalPatterns.CommandLine.Arguments
import LexicalPatterns.Files.Read
import LexicalPatterns.Files.Search
import LexicalPatterns.Library
import LexicalPatterns.Report.Listing
import LexicalPatterns.Text.Lines

/-!
# Runs

A run loads the pattern files that its arguments name and lists them or matches inputs against one
of their patterns. It exits with 0 if all inputs match, 1 if some do not, 2 if the pattern files are
refused, and 3 if something cannot be read.
-/

namespace LexicalPatterns

structure RunResult where
  exitCode : Nat
  output : String := ""
  errors : String := ""
  deriving DecidableEq, Repr

inductive RunError where
  | settings (e : SettingsFileError)
  | discover (e : DiscoverError)
  | document (e : DocumentError)
  | inputFile (path : String) (e : ReadError)
  | standardInput (e : ReadError)
  | noPattern
  deriving DecidableEq, Repr

def withReason (text : String) : Option String → String
  | some reason => text ++ ": " ++ reason
  | none => text

def RunError.message : RunError → String
  | settings e => withReason e.message e.reason?
  | discover e => withReason e.message e.reason?
  | document e => e.message
  | inputFile path e => "failed to read " ++ path ++ ": " ++ e.message
  | standardInput e => "failed to read standard input: " ++ e.message
  | noPattern => "inputs given without --pattern"

def RunError.result (output : String) (e : RunError) : RunResult :=
  ⟨3, output, "error: " ++ e.message ++ "\n"⟩

def Diagnostic.result (output : String) (d : Diagnostic) : RunResult :=
  ⟨2, output, d.display ++ "\n"⟩

namespace Arguments

/-- The directory whose settings count: that of the first path, or the path itself. -/
def target (fs : FileSystem) (a : Arguments) : Option String :=
  a.paths.head?.map fun p => if fs.isFile p then (Path.parent? p).getD p else p

/-- The inputs to match: those of the arguments, the lines of the input file, and the lines of
standard input. -/
def gatherInputs (fs : FileSystem) (stdin : ByteArray) (a : Arguments) :
    Except RunError (List String) := do
  let fromFile ← match a.inputFile with
    | none => pure []
    | some path => do pure (linesOf (← (fs.readText path).mapError (.inputFile path)))
  let fromStdin ← if a.stdin then do pure (linesOf (← (textOfBytes stdin).mapError .standardInput))
    else pure []
  return a.inputs ++ fromFile ++ fromStdin

end Arguments

def listTokens (fs : FileSystem) (output : String) : List String → RunResult
  | [] => ⟨0, output, ""⟩
  | path :: paths =>
    match fs.readDocument path with
    | .error e => RunError.result output (.document e)
    | .ok d =>
      match tokenize d.text with
      | .error e => (Diagnostic.ofError d (.scan e)).result output
      | .ok ts => listTokens fs (output ++ d.tokenListing ts) paths

def matchInputs (fs : FileSystem) (stdin : ByteArray) (a : Arguments) (files : List String)
    (library : Library) : Except RunError RunResult := do
  let inputs ← a.gatherInputs fs stdin
  let program := library.program
  let outcomes ← match a.pattern with
    | some name => pure (inputs.map (Outcome.ofInput program name · a.search))
    | none => if inputs.isEmpty then pure [] else throw .noPattern
  let errors := match a.pattern with
    | some name =>
      if (program.names.lookup name).isNone then
        "warning: no pattern named `" ++ name ++ "` is defined\n"
      else ""
    | none => ""
  let report : Report := ⟨files, program.names.size, library.warnings, outcomes⟩
  return ⟨if report.allMatched then 0 else 1, report.render a.format, errors⟩

def execute (fs : FileSystem) (stdin : ByteArray) (a : Arguments) : Except RunError RunResult := do
  let located ← (LocatedSettings.load fs a.config (a.target fs)).mapError .settings
  let settings := located.settings
  let files ← (discover fs a.paths settings).mapError .discover
  if a.tokens then return listTokens fs "" files
  let documents ← (files.mapM fs.readDocument).mapError .document
  let limit := a.recursionLimit.getD settings.recursionLimit
  match Library.load documents (a.strict || settings.strict) limit with
  | .error d => return d.result ""
  | .ok library =>
    if a.dump then return ⟨0, library.program.listing, ""⟩
    else if a.list then return ⟨0, unlines library.program.names.names, ""⟩
    else matchInputs fs stdin a files library

def run (fs : FileSystem) (stdin : ByteArray) (a : Arguments) : RunResult :=
  match execute fs stdin a with
  | .ok r => r
  | .error e => e.result ""

end LexicalPatterns
