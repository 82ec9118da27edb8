import LexicalPatterns.Proofs.Files.Order
import LexicalPatterns.Proofs.Files.Search
import Mathlib.Data.Fintype.Card

/-!
# Files that are found once

The found files are in the order of their parts, and none is left out. A dot at the start of a path
is one of its parts, though, and sets the path apart from the one without it. So each file is listed
once if all paths start with a dot or none does, and else a file may be listed twice.
-/

namespace LexicalPatterns

open LexicalPatterns.Path (isDotted plain parts Before Extends)

/-! ### Paths to one file in an ordered list -/

theorem pairwise_dotted_of_ordered {files : List String} (h : files.Pairwise Before) :
    files.Pairwise fun p q => plain p = plain q → isDotted p ≠ isDotted q :=
  h.imp fun hbefore hplain hdotted => hbefore.parts_ne (Path.parts_eq_iff.2 ⟨hplain, hdotted⟩)

/-- A mark of two values tells the paths to one file apart, so there are two at most. -/
theorem count_plain_le_two {files : List String}
    (h : files.Pairwise fun p q => plain p = plain q → isDotted p ≠ isDotted q)
    (file : Path.Plain) : (files.map plain).count file ≤ 2 := by
  have hmarks : ((files.filter (plain · = file)).map isDotted).Nodup := by
    rw [List.nodup_iff_pairwise_ne, List.pairwise_map, List.pairwise_filter]
    refine h.imp fun hne hp hq => hne ?_
    exact (of_decide_eq_true hp).trans (of_decide_eq_true hq).symm
  have htwo := hmarks.length_le_card
  rw [List.length_map, Fintype.card_bool] at htwo
  rwa [List.count, List.countP_map, List.countP_eq_length_filter]

/-! ### What is found -/

section

variable {w : Walker} {fs : FileSystem} {paths files : List String} {settings : Settings}

/-- Whether a path names a file or the walk below it finds the file. -/
def Reaches (w : Walker) (fs : FileSystem) (settings : Settings) (path file : String) : Prop :=
  ∃ found, w.filesOfPath fs settings.exclude path = .ok found ∧ file ∈ found

theorem Reaches.extends {path file : String} (hfs : fs.root.isSlashless) (hw : w.Joins fs)
    (h : Reaches w fs settings path file) : Extends path file := by
  obtain ⟨found, hfound, hfile⟩ := h
  exact Walker.extends_of_mem_filesOfPath hfs hw hfound hfile

/-- What the files are that are found for some paths and settings. Paths with one plain form denote
one file. -/
structure Discovered (w : Walker) (fs : FileSystem) (paths : List String) (settings : Settings)
    (files : List String) : Prop where
  /-- The files are in the order of their parts, and no two have the same ones. -/
  ordered : files.Pairwise Before
  /-- Each file is reached by one of the paths and told by a path that goes on from it. -/
  reached : ∀ file ∈ files, ∃ path ∈ paths, Reaches w fs settings path file ∧ Extends path file
  /-- Nothing that one of the paths reaches is left out. -/
  complete : ∀ path ∈ paths, ∀ file, Reaches w fs settings path file →
    ∃ listed ∈ files, parts listed = parts file
  /-- Entries with one plain form are looked up at one place. -/
  alike : ∀ p ∈ files, ∀ q ∈ files, plain p = plain q →
    ∀ a b, fs.place p = .ok a → fs.place q = .ok b → a = b
  /-- Of two entries for one file one starts with a dot and the other one does not. -/
  dotted : files.Pairwise fun p q => plain p = plain q → isDotted p ≠ isDotted q
  /-- No file is listed more than twice. -/
  twice : ∀ file, (files.map plain).count file ≤ 2
  /-- Each file is listed once exactly if none is reached both by a path that starts with a dot and
  by one that does not. -/
  once : (files.map plain).Nodup ↔ ∀ p ∈ paths, ∀ q ∈ paths, isDotted p ≠ isDotted q →
    ∀ f g, Reaches w fs settings p f → Reaches w fs settings q g → plain f ≠ plain g

/-- The files are those found for the paths, in order and without repetitions. -/
theorem exists_found_of_discover (h : w.discover fs paths settings = .ok files) :
    ∃ found, paths.mapM (w.filesOfPath fs settings.exclude) = .ok found ∧
      files.Pairwise Before ∧ (∀ file ∈ files, file ∈ found.flatten) ∧
      ∀ file ∈ found.flatten, ∃ listed ∈ files, parts listed = parts file := by
  obtain ⟨found, hfound, h⟩ := bind_eq_ok.1 h
  obtain rfl := Except.ok.inj h
  refine ⟨found, hfound, pairwise_dropRepeated (Path.pairwise_mergeSort_precedes _), ?_, ?_⟩
  · exact fun file hfile => List.mem_mergeSort.1 ((dropRepeated_sublist _).mem hfile)
  · exact fun file hfile => exists_mem_dropRepeated (List.mem_mergeSort.2 hfile)

theorem reaches_of_discover (h : w.discover fs paths settings = .ok files) :
    (∀ file ∈ files, ∃ path ∈ paths, Reaches w fs settings path file) ∧
      ∀ path ∈ paths, ∀ file, Reaches w fs settings path file →
        ∃ listed ∈ files, parts listed = parts file := by
  obtain ⟨found, hfound, -, hfrom, hkept⟩ := exists_found_of_discover h
  obtain ⟨hall, hnamed⟩ := mem_of_mapM_eq_ok hfound
  constructor
  · intro file hfile
    obtain ⟨found, hmem, hfile⟩ := List.mem_flatten.1 (hfrom file hfile)
    obtain ⟨path, hpath, heq⟩ := hnamed found hmem
    exact ⟨path, hpath, found, heq, hfile⟩
  · rintro path hpath file ⟨found, heq, hfile⟩
    obtain ⟨found', hmem, heq'⟩ := hall path hpath
    obtain rfl := Except.ok.inj (heq.symm.trans heq')
    exact hkept file (List.mem_flatten.2 ⟨found, hmem, hfile⟩)

end

/-- Whatever the paths and the settings are, and however a walker leaves entries out, the files
discovered in a tree of directories are in order with none left out, and each is listed once except
for the two ways to start its path. -/
theorem discovered_of_discover {w : Walker} {fs : FileSystem} {paths : List String}
    {settings : Settings} {files : List String} (hfs : fs.root.isSlashless) (hw : w.Joins fs)
    (h : w.discover fs paths settings = .ok files) : Discovered w fs paths settings files := by
  obtain ⟨-, -, hordered, -⟩ := exists_found_of_discover h
  obtain ⟨hreached, hcomplete⟩ := reaches_of_discover h
  have hdotted := pairwise_dotted_of_ordered hordered
  refine ⟨hordered, fun file hfile => ?_, hcomplete, fun p _ q _ hplain a b => ?_, hdotted,
    count_plain_le_two hdotted, ?_, ?_⟩
  · obtain ⟨path, hpath, hfile⟩ := hreached file hfile
    exact ⟨path, hpath, hfile, hfile.extends hfs hw⟩
  · exact FileSystem.place_eq_of_plain_eq hplain
  · intro hnodup p hp q hq hne f g hf hg hplain
    obtain ⟨f', hf', hparts⟩ := hcomplete p hp f hf
    obtain ⟨g', hg', hparts'⟩ := hcomplete q hq g hg
    obtain ⟨hplainf, hdotf⟩ := Path.parts_eq_iff.1 hparts
    obtain ⟨hplaing, hdotg⟩ := Path.parts_eq_iff.1 hparts'
    have heq : f' = g' := List.inj_on_of_nodup_map hnodup hf' hg' (by rw [hplainf, hplaing, hplain])
    apply hne
    rw [← (hf.extends hfs hw).isDotted, ← (hg.extends hfs hw).isDotted, ← hdotf, ← hdotg, heq]
  · -- The entries of one file start alike, as the paths do that reach them.
    intro hapart
    rw [List.nodup_iff_pairwise_ne, List.pairwise_map]
    refine hdotted.imp_of_mem fun {f g} hf hg hne hplain => ?_
    obtain ⟨p, hp, hf⟩ := hreached f hf
    obtain ⟨q, hq, hg⟩ := hreached g hg
    refine hapart p hp q hq ?_ f g hf hg hplain
    rw [← (hf.extends hfs hw).isDotted, ← (hg.extends hfs hw).isDotted]
    exact hne hplain

/-! ### A file that is listed twice -/

def onePatternFile : FileSystem := ⟨.directory [("a.pat", .file .empty)], []⟩

theorem place_onePatternFile (path : String) (segments : List String)
    (hsegments : (path.toList.splitOn '/').map String.ofList = segments)
    (hnull : path.contains '\x00' = false)
    (hpath : path ≠ "" ∧ path.utf8ByteSize ≤ maxPathSize ∧ Path.isAbsolute path = false) :
    onePatternFile.place path = segments.foldlM FileSystem.Place.step onePatternFile.top := by
  obtain ⟨hne, hsize, hrelative⟩ := hpath
  rw [FileSystem.place, if_neg (by simp [hnull]), if_neg hne, if_neg (by omega), hrelative,
    if_neg Bool.false_ne_true, Path.segments_eq, hsegments]
  rfl

theorem ofDirectory_onePatternFile :
    IgnoreLevel.ofDirectory onePatternFile "." (.directory [("a.pat", .file .empty)]) =
      ⟨".", [], [], [], false, []⟩ := by
  have hignore : onePatternFile.place (Path.join "." ".ignore") = .error .notFound :=
    place_onePatternFile "./.ignore" [".", ".ignore"] (by decide) (by simp) (by decide)
  have hgitIgnore : onePatternFile.place (Path.join "." ".gitignore") = .error .notFound :=
    place_onePatternFile "./.gitignore" [".", ".gitignore"] (by decide) (by simp) (by decide)
  have hgitExclude : onePatternFile.place "./.git/info/exclude" = .error .notFound :=
    place_onePatternFile _ [".", ".git", "info", "exclude"] (by decide) (by simp) (by decide)
  have hfile : Repository.excludeFile? onePatternFile "." (.directory [("a.pat", .file .empty)]) =
      .ok (some "./.git/info/exclude") := rfl
  simp only [IgnoreLevel.ofDirectory, IgnoreLevel.ruleFile, FileSystem.find?, hfile, hignore,
    hgitIgnore, hgitExclude]
  rfl

theorem place_onePatternFile_dot :
    onePatternFile.place "." = .ok ⟨.directory [("a.pat", .file .empty)], "", []⟩ :=
  place_onePatternFile _ ["."] (by decide) (by simp) (by decide)

theorem walk_onePatternFile :
    Search.walk onePatternFile [] "." = [.ok ⟨".", false⟩, .ok ⟨"./a.pat", true⟩] := by
  have hstandard : Path.same "." Search.standardInput = false := by
    rw [Path.same, Path.parts, Path.parts, Path.segments_eq, Path.segments_eq]
    decide
  have hname : "a.pat".startsWith "." = false := by simp
  simp only [Search.walk, hstandard, place_onePatternFile_dot, Search.below, Search.run,
    IgnoreLevel.above, Search.entriesOf, Search.entriesIn, ofDirectory_onePatternFile, Search.skips,
    IgnoreRule.decide, IgnoreLevel.verdict, IgnoreLevel.nearestVerdict, hname]
  rfl

theorem parts_dotted : parts "./a.pat" = [.current, .name "a.pat"] := by
  rw [parts, Path.segments_eq]
  decide

theorem patternFilesUnder_onePatternFile :
    Search.walker.patternFilesUnder onePatternFile [] "." = .ok ["./a.pat"] := by
  have hpattern : WalkEntry.isPatternFile ⟨"./a.pat", true⟩ := by
    rw [WalkEntry.isPatternFile, Path.fileName?, parts_dotted]
    decide
  have hkept : ([⟨".", false⟩, ⟨"./a.pat", true⟩] : List WalkEntry).filter (·.isPatternFile) =
      [⟨"./a.pat", true⟩] := by
    rw [List.filter_cons_of_neg (by simp [WalkEntry.isPatternFile]),
      List.filter_cons_of_pos hpattern, List.filter_nil]
  have hwalk : Search.walker.walk onePatternFile [] "." = _ := walk_onePatternFile
  rw [Walker.patternFilesUnder, Walker.excludeRules, if_pos List.isEmpty_nil]
  refine bind_eq_ok.2 ⟨[], rfl, bind_eq_ok.2 ⟨[⟨".", false⟩, ⟨"./a.pat", true⟩], ?_, ?_⟩⟩
  · rw [hwalk]
    rfl
  · rw [hkept]
    rfl

theorem filesOfPath_onePatternFile :
    Search.walker.filesOfPath onePatternFile [] "." = .ok ["./a.pat"] ∧
      Search.walker.filesOfPath onePatternFile [] "a.pat" = .ok ["a.pat"] := by
  have hfile : onePatternFile.place "a.pat" =
      .ok ⟨.file .empty, "a.pat", [(onePatternFile.root, "")]⟩ :=
    place_onePatternFile _ ["a.pat"] (by decide) (by simp) (by decide)
  constructor
  · rw [Walker.filesOfPath, patternFilesUnder_onePatternFile, FileSystem.isFile,
      FileSystem.isDirectory, FileSystem.find?, place_onePatternFile_dot]
    rfl
  · rw [Walker.filesOfPath, FileSystem.isFile, FileSystem.find?, hfile]
    rfl

theorem discover_onePatternFile :
    Search.walker.discover onePatternFile [".", "a.pat"] {} = .ok ["./a.pat", "a.pat"] := by
  obtain ⟨hdirectory, hfile⟩ := filesOfPath_onePatternFile
  have hplain : parts "a.pat" = [.name "a.pat"] := by
    rw [parts, Path.segments_eq]
    decide
  have hsorted : ["./a.pat", "a.pat"].mergeSort Path.precedes = ["./a.pat", "a.pat"] := by
    apply List.mergeSort_of_pairwise
    simp only [List.pairwise_pair, Path.precedes, parts_dotted, hplain]
    decide
  have hkept : dropRepeated ["./a.pat", "a.pat"] = ["./a.pat", "a.pat"] := by
    simp only [dropRepeated, Path.same, parts_dotted, hplain]
    decide
  rw [Walker.discover, List.mapM_cons, List.mapM_cons, List.mapM_nil, hdirectory, hfile]
  exact congrArg Except.ok ((congrArg dropRepeated hsorted).trans hkept)

/-- The file of a directory is listed twice if both are named, the directory by a dot. -/
theorem discovered_of_discover_dot :
    onePatternFile.root.isSlashless ∧ Search.walker.Joins onePatternFile ∧
      Search.walker.discover onePatternFile [".", "a.pat"] {} = .ok ["./a.pat", "a.pat"] ∧
      Discovered Search.walker onePatternFile [".", "a.pat"] {} ["./a.pat", "a.pat"] ∧
      plain "./a.pat" = plain "a.pat" :=
  have hfs : onePatternFile.root.isSlashless := by decide
  have hw : Search.walker.Joins onePatternFile := Search.joins_walker onePatternFile
  ⟨hfs, hw, discover_onePatternFile, discovered_of_discover hfs hw discover_onePatternFile, by
    rw [plain, plain, Path.segments_eq, Path.segments_eq]
    decide⟩

end LexicalPatterns
