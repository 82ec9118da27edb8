import LexicalPatterns.Document
import LexicalPatterns.Files.Tree
import LexicalPatterns.Settings
import LexicalPatterns.Text.Utf8

/-!
# Reading files

Texts, documents and settings are read from the file system. An error tells what was tried and,
behind it, the reason.
-/

namespace LexicalPatterns

inductive ReadError where
  | file (e : FileError)
  | notText
  deriving DecidableEq, Repr

def ReadError.message : ReadError → String
  | file e => e.message
  | notText => "stream did not contain valid UTF-8"

def textOfBytes (bytes : ByteArray) : Except ReadError String :=
  (Utf8.decode bytes).mapError fun _ => .notText

def FileSystem.readText (fs : FileSystem) (path : String) : Except ReadError String := do
  textOfBytes (← (fs.read path).mapError .file)

inductive DocumentError where
  | unreadable (path : String) (e : FileError)
  | notText (path : String) (e : Utf8.Error)
  deriving DecidableEq, Repr

def DocumentError.message : DocumentError → String
  | unreadable path e => "failed to read " ++ path ++ ": " ++ e.message
  | notText path e => path ++ " is not valid UTF-8: " ++ e.message

def FileSystem.readDocument (fs : FileSystem) (path : String) : Except DocumentError Document := do
  let bytes ← (fs.read path).mapError (.unreadable path)
  let text ← (Utf8.decode bytes).mapError (.notText path)
  return { path, text }

def settingsFileName : String := ".patlak.yml"

inductive SettingsFileError where
  | missing (path : String)
  | unreadable (path : String) (e : ReadError)
  | invalid (path : String) (e : SettingsError)
  deriving DecidableEq, Repr

namespace SettingsFileError

/-- What was tried in vain. -/
def message : SettingsFileError → String
  | missing path => "config file not found: " ++ path
  | unreadable path _ => "failed to read config " ++ path
  | invalid path _ => "failed to parse " ++ path

def reason? : SettingsFileError → Option String
  | missing _ => none
  | unreadable _ e => some e.message
  | invalid _ e => some e.message

end SettingsFileError

/-- Settings with the directory of the file that they come from, if there is a file. -/
structure LocatedSettings where
  settings : Settings := {}
  directory : Option String := none
  deriving DecidableEq, Repr

namespace LocatedSettings

def ofFile (fs : FileSystem) (path : String) : Except SettingsFileError LocatedSettings := do
  let text ← (fs.readText path).mapError (.unreadable path)
  let settings ← (Settings.ofText text).mapError (.invalid path)
  let directory := (Path.parent? path).getD ""
  return { settings, directory := some (if directory = "" then "." else directory) }

/-- The settings at a path that has to exist or, without one, those of the target directory or of
the working directory. Where neither has a file the settings are as they are by default. -/
def load (fs : FileSystem) (path target : Option String) :
    Except SettingsFileError LocatedSettings :=
  match path with
  | some path => if fs.pathExists path then ofFile fs path else .error (.missing path)
  | none =>
    let candidates := (target.map (Path.join · settingsFileName)).toList ++ [settingsFileName]
    match candidates.find? fs.isFile with
    | some path => ofFile fs path
    | none => .ok {}

end LocatedSettings
end LexicalPatterns
