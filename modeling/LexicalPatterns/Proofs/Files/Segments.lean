import LexicalPatterns.Files.Path
import Mathlib.Data.String.Basic

/-!
# The segments of paths

Two paths that differ in dots and repeated slashes only have one plain form. The parts of a path
are its plain form with a mark in front if its first segment is a dot: that dot is a part, while
those behind it are not.
-/

namespace LexicalPatterns.Path

open String (ofList splitOnAux utf8Len)

/-! ### Splitting at slashes -/

/-- Splitting goes on from a place in a text: behind the segments it has left, those characters of
the segment at hand that it has read, and in front of the rest. -/
theorem splitOnAux_slash {text : String} (before segment rest : List Char)
    (h : text = ofList (before ++ segment ++ rest)) (found : List String) :
    splitOnAux text "/" ⟨utf8Len before⟩ ⟨utf8Len before + utf8Len segment⟩ 0 found =
      found.reverse ++ (List.splitOnPPrepend (· == '/') rest segment.reverse).map ofList := by
  induction rest generalizing before segment found with
  | nil =>
    have hsegment := String.extract_of_valid before segment []
    have hatEnd := String.atEnd_of_valid (before ++ segment) []
    rw [← h] at hsegment hatEnd
    rw [String.utf8Len_append] at hatEnd
    rw [splitOnAux, if_pos (hatEnd.2 rfl), hsegment]
    simp
  | cons c rest ih =>
    have hsegment := String.extract_of_valid before segment (c :: rest)
    have hatEnd := String.atEnd_of_valid (before ++ segment) (c :: rest)
    have hget := String.get_of_valid (before ++ segment) (c :: rest)
    have hnext := String.next_of_valid (before ++ segment) c rest
    rw [← h] at hsegment hatEnd hget hnext
    rw [String.utf8Len_append] at hatEnd hget hnext
    have hslash : String.Pos.Raw.get "/" 0 = '/' := by decide
    rw [splitOnAux, if_neg (mt hatEnd.1 (List.cons_ne_nil c rest)), hget, hslash,
      List.headD_cons, List.splitOnPPrepend_cons_eq_if]
    by_cases hc : c = '/'
    · subst hc
      have hgo := ih (before ++ segment ++ ['/']) [] (by simpa using h) (ofList segment :: found)
      have hend : String.Pos.Raw.atEnd "/" (String.Pos.Raw.next "/" 0) = true := by decide
      have hback : (⟨utf8Len before + utf8Len segment + '/'.utf8Size⟩ : String.Pos.Raw).unoffsetBy
          (String.Pos.Raw.next "/" 0) = ⟨utf8Len before + utf8Len segment⟩ := rfl
      rw [if_pos (beq_self_eq_true _), if_pos hend, hnext, hback, hsegment]
      simpa [Nat.add_assoc] using hgo
    · have hgo := ih before (segment ++ [c]) (by simpa using h) found
      have hstay : (⟨utf8Len before + utf8Len segment⟩ : String.Pos.Raw).unoffsetBy 0 =
          ⟨utf8Len before + utf8Len segment⟩ := rfl
      rw [if_neg (by simpa using hc), if_neg (by simpa using hc), hstay, hnext]
      simpa [Nat.add_assoc] using hgo

theorem segments_eq (path : String) :
    segments path = (path.toList.splitOn '/').map ofList := by
  have hgo := splitOnAux_slash [] [] path.toList String.ofList_toList.symm []
  rw [segments, String.splitOn, List.splitOn, List.splitOnP_eq_splitOnPPrepend]
  exact hgo

theorem segments_ne_nil (path : String) : segments path ≠ [] := by
  rw [segments_eq, ne_eq, List.map_eq_nil_iff]
  exact List.splitOn_ne_nil _ _

theorem segments_append_slash (front back : String) :
    segments (front ++ "/" ++ back) = segments front ++ segments back := by
  have hslash : "/".toList = ['/'] := by decide
  simp only [segments_eq, String.toList_append, hslash, List.append_assoc, List.singleton_append]
  rw [List.splitOn_append_cons_self, List.map_append]

theorem head?_segments_of_isAbsolute {path : String} (h : isAbsolute path) :
    (segments path).head? = some "" := by
  obtain ⟨cs, hcs⟩ : ∃ cs, path.toList = '/' :: cs := by
    simpa [isAbsolute, List.head?_eq_some_iff] using h
  rw [segments_eq, hcs, ← List.nil_append ('/' :: cs), List.splitOn_append_cons_self]
  rfl

/-! ### Plain forms -/

/-- What a path says without the dots and the empty texts between its slashes: where it starts and
the names it goes on with. -/
@[ext] structure Plain where
  isAbsolute : Bool
  names : List String
  deriving DecidableEq, Repr

/-- Whether a segment says nothing, at any place of a path. -/
def isIdle (segment : String) : Bool := segment == "" || segment == "."

def plain (path : String) : Plain where
  isAbsolute := isAbsolute path
  names := (segments path).filter (!isIdle ·)

def isDotted (path : String) : Bool := (segments path).head? == some "."

def partOf (name : String) : Part := if name = ".." then .parent else .name name

theorem partOf_injective : Function.Injective partOf := by
  intro s t h
  simp only [partOf] at h
  grind

theorem part?_eq (segment : String) :
    part? segment = if isIdle segment then none else some (partOf segment) := by
  simp only [part?, isIdle, partOf, Bool.or_eq_true, beq_iff_eq]
  grind

theorem filterMap_part? (ss : List String) :
    ss.filterMap part? = (ss.filter (!isIdle ·)).map partOf := by
  rw [← List.filterMap_eq_map, List.filterMap_filter]
  congr 1
  funext s
  rw [part?_eq]
  cases isIdle s <;> rfl

/-- The parts in front of the names of a path. -/
def lead (path : String) : List Part :=
  if isAbsolute path then [.root] else if isDotted path then [.current] else []

theorem parts_eq (path : String) : parts path = lead path ++ (plain path).names.map partOf := by
  have habsolute : isAbsolute path → (segments path).head? = some "" :=
    head?_segments_of_isAbsolute
  rw [plain, ← filterMap_part?, lead, isDotted, parts]
  cases hsegments : segments path with
  | nil => exact absurd hsegments (segments_ne_nil path)
  | cons first rest =>
    rw [hsegments] at habsolute
    by_cases hroot : isAbsolute path
    · obtain rfl : first = "" := by simpa using habsolute hroot
      simp [hroot, part?]
    · by_cases hdot : first = "."
      · subst hdot
        simp [hroot, part?]
      · cases hpart : part? first <;> simp [hroot, hdot, hpart]

theorem not_isAbsolute_of_isDotted {path : String} (h : isDotted path) :
    isAbsolute path = false := by
  by_contra hroot
  rw [isDotted, head?_segments_of_isAbsolute (by simpa using hroot)] at h
  exact absurd h (by decide)

theorem takeWhile_parts (path : String) : (parts path).takeWhile (·.rank < 2) = lead path := by
  have hlead : ∀ part ∈ lead path, part.rank < 2 := by
    rw [lead]
    split_ifs <;> simp [Part.rank]
  have hnames : ((plain path).names.map partOf).takeWhile (·.rank < 2) = [] := by
    cases (plain path).names with
    | nil => rfl
    | cons name names =>
      rw [List.map_cons, List.takeWhile_cons_of_neg]
      simp only [partOf]
      split_ifs <;> simp [Part.rank]
  rw [parts_eq, List.takeWhile_append_of_pos (by simpa using hlead), hnames, List.append_nil]

theorem lead_eq_iff {p q : String} :
    lead p = lead q ↔ isAbsolute p = isAbsolute q ∧ isDotted p = isDotted q := by
  have hp := @not_isAbsolute_of_isDotted p
  have hq := @not_isAbsolute_of_isDotted q
  rw [lead, lead]
  revert hp hq
  cases isAbsolute p <;> cases isDotted p <;> cases isAbsolute q <;> cases isDotted q <;> simp

/-- Paths have the same parts if they have one plain form and start with a dot alike. -/
theorem parts_eq_iff {p q : String} :
    parts p = parts q ↔ plain p = plain q ∧ isDotted p = isDotted q := by
  constructor
  · intro h
    have hlead : lead p = lead q := by rw [← takeWhile_parts, ← takeWhile_parts, h]
    rw [parts_eq, parts_eq, hlead, List.append_cancel_left_eq] at h
    obtain ⟨hroot, hdot⟩ := lead_eq_iff.1 hlead
    exact ⟨Plain.ext hroot (List.map_injective_iff.2 partOf_injective h), hdot⟩
  · rintro ⟨hplain, hdot⟩
    have hlead : lead p = lead q := lead_eq_iff.2 ⟨congrArg Plain.isAbsolute hplain, hdot⟩
    rw [parts_eq, parts_eq, hlead, hplain]

/-! ### Paths below directories -/

theorem isAbsolute_append {front : String} (h : front ≠ "") (back : String) :
    isAbsolute (front ++ back) = isAbsolute front := by
  have hfront : front.toList ≠ [] := by simpa using h
  rw [isAbsolute, isAbsolute, String.toList_append, List.head?_append_of_ne_nil _ hfront]

/-- A path below a directory has the segments of the directory, except for an empty one at its
end, and behind them its own. -/
theorem segments_join {directory path : String} (hne : directory ≠ "")
    (hrelative : isAbsolute path = false) :
    ∃ front, segments (join directory path) = segments front ++ segments path ∧
      (segments directory = segments front ∨ segments directory = segments front ++ [""]) := by
  rw [join, if_neg (by simp [hne, hrelative])]
  split_ifs with hslash
  · obtain ⟨cs, hcs⟩ : ∃ cs, directory.toList = cs ++ ['/'] := by
      simpa [List.getLast?_eq_some_iff] using hslash
    have hfront : directory = ofList cs ++ "/" := by
      rw [← String.ofList_toList (s := directory), hcs, String.ofList_append]
    have hempty : segments "" = [""] := by
      rw [segments_eq]
      decide
    refine ⟨ofList cs, by rw [hfront, segments_append_slash], .inr ?_⟩
    rw [hfront, ← String.append_empty (s := ofList cs ++ "/"), segments_append_slash, hempty]
  · exact ⟨directory, segments_append_slash _ _, .inl rfl⟩

theorem isAbsolute_join {directory path : String} (hne : directory ≠ "")
    (hrelative : isAbsolute path = false) :
    isAbsolute (join directory path) = isAbsolute directory := by
  rw [join, if_neg (by simp [hne, hrelative])]
  split_ifs
  · exact isAbsolute_append hne _
  · rw [isAbsolute_append (by simp [hne]), isAbsolute_append hne]

theorem plain_join {directory path : String} (hne : directory ≠ "")
    (hrelative : isAbsolute path = false) :
    plain (join directory path) =
      ⟨isAbsolute directory, (plain directory).names ++ (plain path).names⟩ := by
  obtain ⟨front, hsegments, hdirectory⟩ := segments_join hne hrelative
  have hfront : (segments front).filter (!isIdle ·) = (segments directory).filter (!isIdle ·) := by
    obtain hsame | hempty := hdirectory
    · rw [hsame]
    · rw [hempty, List.filter_append, List.filter_singleton]
      exact (List.append_nil _).symm
  rw [plain, hsegments, isAbsolute_join hne hrelative, List.filter_append, hfront]
  rfl

theorem isDotted_join {directory path : String} (hne : directory ≠ "")
    (hrelative : isAbsolute path = false) :
    isDotted (join directory path) = isDotted directory := by
  obtain ⟨front, hsegments, hdirectory⟩ := segments_join hne hrelative
  have hfirst : (segments front).head? = (segments directory).head? := by
    obtain hsame | hempty := hdirectory
    · rw [hsame]
    · rw [hempty, List.head?_append_of_ne_nil _ (segments_ne_nil front)]
  rw [isDotted, isDotted, hsegments, List.head?_append_of_ne_nil _ (segments_ne_nil front), hfirst]

end LexicalPatterns.Path
