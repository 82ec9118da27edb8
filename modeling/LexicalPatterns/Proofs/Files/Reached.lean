import LexicalPatterns.Files.Discover
import LexicalPatterns.Proofs.Except
import LexicalPatterns.Proofs.Files.Segments

/-!
# The files that a path reaches

A path names a file or reaches the pattern files below a directory. A walk through a directory
joins names to the path that it was given, so each file it finds is told by a path that goes on from
that one and starts with a dot exactly if that one does.
-/

namespace LexicalPatterns

open LexicalPatterns.Path (isAbsolute isDotted plain)

/-! ### Paths that go on from a path -/

namespace Path

/-- A path goes on from a start: names follow behind those of the start. -/
structure Extends (start path : String) : Prop where
  isDotted : isDotted path = isDotted start
  isAbsolute : isAbsolute path = isAbsolute start
  names : (plain start).names <+: (plain path).names

theorem Extends.refl (path : String) : Extends path path := ⟨rfl, rfl, List.prefix_refl _⟩

theorem Extends.trans {start middle path : String} (h : Extends start middle)
    (h' : Extends middle path) : Extends start path where
  isDotted := h'.isDotted.trans h.isDotted
  isAbsolute := h'.isAbsolute.trans h.isAbsolute
  names := h.names.trans h'.names

theorem extends_join {directory name : String} (hne : directory ≠ "")
    (hrelative : Path.isAbsolute name = false) : Extends directory (join directory name) where
  isDotted := isDotted_join hne hrelative
  isAbsolute := isAbsolute_join hne hrelative
  names := by
    rw [plain_join hne hrelative]
    exact List.prefix_append _ _

theorem join_ne_empty {directory name : String} (hne : directory ≠ "")
    (hrelative : Path.isAbsolute name = false) : join directory name ≠ "" := by
  rw [join, if_neg (by simp [hne, hrelative])]
  split_ifs <;> simp [hne]

theorem extends_foldl_join {root : String} {names : List String} (hne : root ≠ "")
    (hrelative : ∀ name ∈ names, Path.isAbsolute name = false) :
    Extends root (names.foldl join root) := by
  induction names generalizing root with
  | nil => exact .refl root
  | cons name names ih =>
    obtain ⟨hname, hnames⟩ := List.forall_mem_cons.1 hrelative
    exact (extends_join hne hname).trans (ih (join_ne_empty hne hname) hnames)

end Path

/-! ### Places of plain forms -/

namespace FileSystem

def start (fs : FileSystem) (absolute : Bool) : Except FileError Place :=
  if absolute then .ok fs.top else fs.workingDirectory.foldlM Place.step fs.top

theorem place_eq_ok {fs : FileSystem} {path : String} {p : Place} (h : fs.place path = .ok p) :
    ∃ here, fs.start (isAbsolute path) = .ok here ∧
      (Path.segments path).foldlM Place.step here = .ok p := by
  rw [place] at h
  rw [start]
  split_ifs at h ⊢ with _ _ _ hroot
  · exact ⟨fs.top, rfl, h⟩
  · exact bind_eq_ok.1 h

theorem Place.step_eq_self {p q : Place} {segment : String} (hidle : Path.isIdle segment)
    (h : p.step segment = .ok q) : q = p := by
  have hsegment : segment = "" ∨ segment = "." := by simpa [Path.isIdle] using hidle
  rw [Place.step, if_pos hsegment] at h
  split_ifs at h
  exact (Except.ok.inj h).symm

theorem Place.walk_filter {p q : Place} {segments : List String}
    (h : segments.foldlM Place.step p = .ok q) :
    (segments.filter (!Path.isIdle ·)).foldlM Place.step p = .ok q := by
  induction segments generalizing p with
  | nil => exact h
  | cons segment segments ih =>
    rw [List.foldlM_cons] at h
    obtain ⟨middle, hstep, hrest⟩ := bind_eq_ok.1 h
    cases hidle : Path.isIdle segment with
    | true =>
      rw [Place.step_eq_self hidle hstep] at hrest
      rw [List.filter_cons_of_neg (by simp [hidle])]
      exact ih hrest
    | false =>
      rw [List.filter_cons_of_pos (by simp [hidle]), List.foldlM_cons]
      exact bind_eq_ok.2 ⟨middle, hstep, ih hrest⟩

/-- Paths with one plain form are looked up at one place. -/
theorem place_eq_of_plain_eq {fs : FileSystem} {path path' : String} (h : plain path = plain path')
    {p p' : Place} (hp : fs.place path = .ok p) (hp' : fs.place path' = .ok p') : p = p' := by
  obtain ⟨here, hstart, hwalk⟩ := place_eq_ok hp
  obtain ⟨here', hstart', hwalk'⟩ := place_eq_ok hp'
  have hroot : isAbsolute path = isAbsolute path' := congrArg Path.Plain.isAbsolute h
  have hnames : (Path.segments path).filter (!Path.isIdle ·) =
      (Path.segments path').filter (!Path.isIdle ·) := congrArg Path.Plain.names h
  rw [hroot] at hstart
  obtain rfl := Except.ok.inj (hstart.symm.trans hstart')
  have hnamed := Place.walk_filter hwalk
  rw [hnames, Place.walk_filter hwalk'] at hnamed
  exact (Except.ok.inj hnamed).symm

end FileSystem

/-! ### Trees whose names have no slash -/

namespace FileTree

mutual

def isSlashless : FileTree → Bool
  | .file _ => true
  | .directory entries => areSlashless entries

def areSlashless : List (String × FileTree) → Bool
  | [] => true
  | (name, t) :: entries => '/' ∉ name.toList && t.isSlashless && areSlashless entries

end

theorem areSlashless_cons {name : String} {t : FileTree} {entries : List (String × FileTree)}
    (h : areSlashless ((name, t) :: entries)) :
    isAbsolute name = false ∧ t.isSlashless ∧ areSlashless entries := by
  rw [areSlashless, Bool.and_eq_true, Bool.and_eq_true, decide_eq_true_eq] at h
  obtain ⟨⟨hname, ht⟩, hentries⟩ := h
  refine ⟨?_, ht, hentries⟩
  rw [isAbsolute, beq_eq_false_iff_ne]
  exact fun hslash => hname (List.mem_of_head? hslash)

theorem isSlashless_of_mem {entries : List (String × FileTree)} (h : areSlashless entries)
    {entry : String × FileTree} (hmem : entry ∈ entries) :
    isAbsolute entry.1 = false ∧ entry.2.isSlashless := by
  induction entries with
  | nil => exact absurd hmem List.not_mem_nil
  | cons first entries ih =>
    obtain ⟨hname, ht, hentries⟩ := areSlashless_cons h
    rcases List.mem_cons.1 hmem with rfl | hmem
    · exact ⟨hname, ht⟩
    · exact ih hentries hmem

theorem isSlashless_of_child? {t child : FileTree} {name : String} (h : t.isSlashless)
    (hchild : t.child? name = some child) : child.isSlashless := by
  cases t with
  | file content => exact absurd hchild nofun
  | directory entries =>
    obtain ⟨front, back, hentries, -⟩ := List.lookup_eq_some_iff.1 hchild
    have hmem : (name, child) ∈ entries := by
      rw [show entries = _ from hentries]
      exact List.mem_append_right _ List.mem_cons_self
    rw [isSlashless] at h
    exact (isSlashless_of_mem h hmem).2

end FileTree

namespace FileSystem

structure Place.IsSlashless (p : Place) : Prop where
  tree : p.tree.isSlashless
  above : ∀ directory ∈ p.above, directory.1.isSlashless

theorem Place.IsSlashless.step {p q : Place} {segment : String} (hp : p.IsSlashless)
    (h : p.step segment = .ok q) : q.IsSlashless := by
  rw [Place.step] at h
  split_ifs at h with hfile hidle hparent hsize
  · exact Except.ok.inj h ▸ hp
  · cases habove : p.above with
    | nil =>
      rw [habove] at h
      exact Except.ok.inj h ▸ hp
    | cons directory above =>
      rw [habove] at h
      obtain rfl := Except.ok.inj h
      have hall := hp.above
      rw [habove] at hall
      exact ⟨hall directory List.mem_cons_self, fun d hd => hall d (List.mem_cons_of_mem _ hd)⟩
  · cases hchild : p.tree.child? segment with
    | none =>
      rw [hchild] at h
      exact absurd h nofun
    | some child =>
      rw [hchild] at h
      obtain rfl := Except.ok.inj h
      refine ⟨FileTree.isSlashless_of_child? hp.tree hchild, fun d hd => ?_⟩
      rcases List.mem_cons.1 hd with rfl | hd
      · exact hp.tree
      · exact hp.above d hd

theorem Place.IsSlashless.walk {p q : Place} {segments : List String} (hp : p.IsSlashless)
    (h : segments.foldlM Place.step p = .ok q) : q.IsSlashless := by
  induction segments generalizing p with
  | nil => exact Except.ok.inj h ▸ hp
  | cons segment segments ih =>
    rw [List.foldlM_cons, bind_eq_ok] at h
    obtain ⟨middle, hstep, hrest⟩ := h
    exact ih (hp.step hstep) hrest

theorem isSlashless_of_place {fs : FileSystem} {path : String} {p : Place}
    (hfs : fs.root.isSlashless) (h : fs.place path = .ok p) : p.IsSlashless := by
  have htop : fs.top.IsSlashless := ⟨hfs, nofun⟩
  obtain ⟨here, hhere, hrest⟩ := place_eq_ok h
  rw [start] at hhere
  split_ifs at hhere
  · exact (Except.ok.inj hhere ▸ htop).walk hrest
  · exact (htop.walk hhere).walk hrest

theorem ne_empty_of_place {fs : FileSystem} {path : String} {p : Place}
    (h : fs.place path = .ok p) : path ≠ "" := by
  rintro rfl
  rw [place] at h
  split_ifs at h with hnull hempty
  all_goals exact hempty rfl

theorem exists_place_of_isDirectory {fs : FileSystem} {path : String} (h : fs.isDirectory path) :
    ∃ p, fs.place path = .ok p := by
  rw [isDirectory, find?] at h
  cases hplace : fs.place path with
  | ok p => exact ⟨p, rfl⟩
  | error e =>
    rw [hplace] at h
    exact absurd h nofun

end FileSystem

/-! ### Walks -/

namespace FileTree

/-- Names lead from a tree through the entries of directories to one below it. -/
inductive Leads : FileTree → List String → FileTree → Prop
  | here (t : FileTree) : t.Leads [] t
  | into {entries : List (String × FileTree)} {name : String} {names : List String}
      {child t : FileTree} : (name, child) ∈ entries → child.Leads names t →
      (directory entries).Leads (name :: names) t

theorem Leads.isRelative {t u : FileTree} {names : List String} (h : t.Leads names u)
    (ht : t.isSlashless) : ∀ name ∈ names, isAbsolute name = false := by
  induction h with
  | here => exact nofun
  | into hmem _ ih =>
    rw [isSlashless] at ht
    obtain ⟨hname, hchild⟩ := isSlashless_of_mem ht hmem
    exact List.forall_mem_cons.2 ⟨hname, ih hchild⟩

end FileTree

/-- A walker tells each entry by the path of the directory that it walks through, joined with the
names that lead there. -/
def Walker.Joins (w : Walker) (fs : FileSystem) : Prop :=
  ∀ rules root place entry, fs.place root = .ok place → .ok entry ∈ w.walk fs rules root →
    ∃ names t, place.tree.Leads names t ∧ entry.isFile = t.isFile ∧
      entry.path = names.foldl Path.join root

section

variable {w : Walker} {fs : FileSystem} {exclude : List String} {path : String}
  {found : List String}

/-- The pattern files below a directory are entries that the walk comes to. -/
theorem Walker.exists_entry_of_mem (h : w.patternFilesUnder fs exclude path = .ok found)
    {file : String} (hfile : file ∈ found) :
    ∃ rules entry, .ok entry ∈ w.walk fs rules path ∧ entry.isPatternFile ∧ entry.path = file := by
  obtain ⟨rules, -, h⟩ := bind_eq_ok.1 h
  obtain ⟨entries, hentries, h⟩ := bind_eq_ok.1 h
  obtain rfl := Except.ok.inj h
  obtain ⟨entry, hentry, rfl⟩ := List.mem_map.1 hfile
  obtain ⟨hentry, hpattern⟩ := List.mem_filter.1 hentry
  obtain ⟨result, hresult, heq⟩ := (mem_of_mapM_eq_ok hentries).2 entry hentry
  obtain rfl := mapError_eq_ok.1 heq
  exact ⟨rules, entry, hresult, hpattern, rfl⟩

/-- Each file that a path names or reaches is told by a path that goes on from it. -/
theorem Walker.extends_of_mem_filesOfPath (hfs : fs.root.isSlashless) (hw : w.Joins fs)
    (h : w.filesOfPath fs exclude path = .ok found) {file : String} (hfile : file ∈ found) :
    Path.Extends path file := by
  rw [filesOfPath] at h
  split_ifs at h with _ hdirectory
  · obtain rfl := Except.ok.inj h
    obtain rfl := List.mem_singleton.1 hfile
    exact .refl file
  · obtain ⟨place, hplace⟩ := FileSystem.exists_place_of_isDirectory hdirectory
    obtain ⟨rules, entry, hentry, -, rfl⟩ := exists_entry_of_mem h hfile
    obtain ⟨names, t, hleads, -, hpath⟩ := hw rules path place entry hplace hentry
    have htree := (FileSystem.isSlashless_of_place hfs hplace).tree
    rw [hpath]
    exact Path.extends_foldl_join (FileSystem.ne_empty_of_place hplace) (hleads.isRelative htree)

end

end LexicalPatterns
