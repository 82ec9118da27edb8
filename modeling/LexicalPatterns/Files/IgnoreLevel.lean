import LexicalPatterns.Files.Repository

/-!
# Levels of ignore rules

Every directory on the way to an entry may have rule files, and what the nearest of them says about
the entry counts. Rules of a repository end at its top and come after those for all searches.
-/

namespace LexicalPatterns

/-- The rules of one directory. -/
structure IgnoreLevel where
  /-- The path of the directory. Its rules see what is below as paths from there. -/
  path : String
  ignore : List IgnoreRule
  gitIgnore : List IgnoreRule
  gitExclude : List IgnoreRule
  /-- Whether the directory is the top of a repository. -/
  isRepository : Bool
  /-- What is wrong with its rule files. -/
  complaints : List String

namespace IgnoreLevel

/-- The rule file at a path, without rules if there is no such file, and what is wrong with it. -/
def ruleFile (fs : FileSystem) (path : String) : RuleFile × List String :=
  match fs.find? path with
  | some (.file content) =>
    let f := RuleFile.ofContent content
    (f, f.complaints.map (fun c => path ++ ": " ++ c) ++ f.fault?.toList.map (·.message))
  | _ => (.empty, [])

def ofDirectory (fs : FileSystem) (path : String) (directory : FileTree) : IgnoreLevel :=
  let (ignore, inIgnore) := ruleFile fs (Path.join path ".ignore")
  let (gitIgnore, inGitIgnore) := ruleFile fs (Path.join path ".gitignore")
  let (gitExclude, inGitExclude) := match Repository.excludeFile? fs path directory with
    | .ok (some file) => ruleFile fs file
    | .ok none => (.empty, [])
    | .error complaint => (.empty, [complaint])
  { path
    ignore := ignore.rules
    gitIgnore := gitIgnore.rules
    gitExclude := gitExclude.rules
    isRepository := Repository.isTop directory
    complaints := inIgnore ++ inGitIgnore ++ inGitExclude }

/-- The levels above a place, the nearest first. -/
def above (fs : FileSystem) : List (FileTree × String) → List IgnoreLevel
  | [] => []
  | (t, name) :: rest =>
    ofDirectory fs (FileSystem.absolutePath (name :: rest.map (·.2))) t :: above fs rest

/-- A level and the path of an entry as it is given to the level's rules. -/
abbrev View := IgnoreLevel × String

/-- The views up to the nearest top of a repository. -/
def upToRepository : List View → List View
  | [] => []
  | v :: vs => if v.1.isRepository then [v] else v :: upToRepository vs

def nearestVerdict (rules : IgnoreLevel → List IgnoreRule) (views : List View)
    (isDirectory : Bool) : Option Verdict :=
  views.findSome? fun (level, path) =>
    IgnoreRule.decide (rules level) (Path.below level.path path) isDirectory

/-- What ignore files say about an entry, where `views` has the nearest level first. Those of the
repository count only below its top, and only where the others say nothing. -/
def verdict (views : List View) (isDirectory : Bool) : Option Verdict :=
  let inRepository := if views.any (·.1.isRepository) then upToRepository views else []
  (nearestVerdict (·.ignore) views isDirectory)
    |>.or (nearestVerdict (·.gitIgnore) inRepository isDirectory)
    |>.or (nearestVerdict (·.gitExclude) inRepository isDirectory)

end IgnoreLevel

end LexicalPatterns
