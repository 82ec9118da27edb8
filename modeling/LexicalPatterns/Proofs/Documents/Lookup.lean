import LexicalPatterns.Diagnostic
import LexicalPatterns.Proofs.Documents.Places

/-!
# Looking places up

The line of an offset is looked up in the table of a document by a binary search, and its column and
text are slices from the entry that is found. Every read of the table is within it and every slice
is one of the document, so a lookup always comes to a result. It is what a plain scan of the
document gives: line feeds and characters counted one by one.
-/

namespace LexicalPatterns

open String (utf8Len)

section Search

/-- A binary search for `x` in the window of `size` entries from `base` on. It gives the index of an
entry that is `x`, or else the index where `x` belongs, and nothing where it reads past the end. -/
def binarySearch? (xs : List Nat) (x base size : Nat) : Option (Except Nat Nat) :=
  if 1 < size then
    match xs[base + size / 2]? with
    | none => none
    | some y =>
      if x < y then binarySearch? xs x base (size - size / 2)
      else binarySearch? xs x (base + size / 2) (size - size / 2)
  else
    match xs[base]? with
    | none => none
    | some y =>
      if y = x then some (.ok base)
      else some (.error (if y < x then base + 1 else base))
termination_by size

variable {xs : List Nat} {x : Nat}

/-- In an ascending table, the entries up to `x` are those before one index. -/
theorem le_iff_lt_length_takeWhile (hsorted : xs.Pairwise (· < ·)) {i y : Nat}
    (hy : xs[i]? = some y) : y ≤ x ↔ i < (xs.takeWhile (· ≤ x)).length := by
  induction xs generalizing i with
  | nil => cases hy
  | cons z zs ih =>
    obtain ⟨hz, hzs⟩ := List.pairwise_cons.1 hsorted
    cases i with
    | zero =>
      obtain rfl := Option.some.inj hy
      by_cases hle : z ≤ x <;> simp [hle]
    | succ i =>
      have hlt : z < y := hz y (List.mem_of_getElem? hy)
      have hiff := ih hzs hy
      by_cases hle : z ≤ x
      · simpa [hle] using hiff
      · have hnot : ¬ y ≤ x := by omega
        simp [hle, hnot]

/-- The search narrows its window down to the last entry up to `x`, or to the first entry where
there is none. -/
theorem exists_binarySearch?_eq (hsorted : xs.Pairwise (· < ·)) {base size : Nat}
    (hpos : 0 < size) (hbound : base + size ≤ xs.length)
    (hlow : base = 0 ∨ base < (xs.takeWhile (· ≤ x)).length)
    (hhigh : (xs.takeWhile (· ≤ x)).length ≤ base + size) :
    ∃ r, binarySearch? xs x base size = some r ∧
      (r = .ok ((xs.takeWhile (· ≤ x)).length - 1) ∨
        r = .error (xs.takeWhile (· ≤ x)).length) := by
  fun_induction binarySearch? xs x base size with
  | case1 base size hsize hnone =>
    have hle := List.getElem?_eq_none_iff.1 hnone
    omega
  | case2 base size hsize y hy hlt ih =>
    have hiff := le_iff_lt_length_takeWhile (x := x) hsorted hy
    apply ih <;> omega
  | case3 base size hsize y hy hlt ih =>
    have hiff := le_iff_lt_length_takeWhile (x := x) hsorted hy
    apply ih <;> omega
  | case4 base size hsize hnone =>
    have hle := List.getElem?_eq_none_iff.1 hnone
    omega
  | case5 base size hsize hx =>
    have hiff := le_iff_lt_length_takeWhile (x := x) hsorted hx
    refine ⟨_, rfl, .inl (congrArg Except.ok ?_)⟩
    omega
  | case6 base size hsize y hy hne =>
    have hiff := le_iff_lt_length_takeWhile (x := x) hsorted hy
    refine ⟨_, rfl, .inr (congrArg Except.error ?_)⟩
    split <;> omega

theorem exists_binarySearch?_table_eq (hsorted : xs.Pairwise (· < ·)) (hpos : 0 < xs.length)
    (x : Nat) : ∃ r, binarySearch? xs x 0 xs.length = some r ∧
      (r = .ok ((xs.takeWhile (· ≤ x)).length - 1) ∨
        r = .error (xs.takeWhile (· ≤ x)).length) := by
  have hle := (List.takeWhile_prefix (l := xs) (· ≤ x)).length_le
  apply exists_binarySearch?_eq hsorted hpos
  case hbound => exact Nat.le_of_eq (Nat.zero_add _)
  case hlow => exact .inl rfl
  case hhigh => rwa [Nat.zero_add]

end Search

namespace Document

variable (d : Document) (offset : Nat)

def lineIndex? : Option Nat :=
  match binarySearch? d.starts (min offset d.text.utf8ByteSize) 0 d.starts.length with
  | none => none
  | some (.ok i) => some i
  | some (.error i) => some (i - 1)

/-- The line and the column of an offset, with every read and every slice checked. -/
def position? : Option Position := do
  let i ← d.lineIndex? offset
  let start ← d.starts[i]?
  let window ← Span.new? start (min offset d.text.utf8ByteSize)
  let before := d.text.toUTF8.extract window.start window.stop
  return ⟨i + 1, before.toList.countP startsCharacter⟩

/-- The whole line of an offset without its line feed, with every read and every slice checked. -/
def lineText? : Option String := do
  let position ← d.position? offset
  let start ← d.starts[position.line - 1]?
  let rest ← Span.text? ⟨start, d.text.utf8ByteSize⟩ d.text
  Span.text? ⟨start, start + utf8Len (rest.toList.takeWhile (· ≠ '\n'))⟩ d.text

theorem pairwise_starts : d.starts.Pairwise (· < ·) := by
  rw [starts_eq_cons, List.pairwise_cons]
  constructor
  · intro i hi
    obtain ⟨j, -, rfl⟩ := List.mem_map.1 hi
    exact Nat.succ_pos j
  · apply List.pairwise_map.2
    apply List.pairwise_findIdxs.imp
    intro i j hlt
    exact Nat.succ_lt_succ hlt

theorem lineIndex?_eq : d.lineIndex? offset = some (d.breaksBefore offset).length := by
  have hlength : (d.startsUpTo offset).length = (d.breaksBefore offset).length + 1 := by
    rw [startsUpTo_eq, List.length_cons, List.length_map]
  have hpos : 0 < d.starts.length := by
    rw [starts_eq_cons]
    exact Nat.succ_pos _
  obtain ⟨r, hr, rfl | rfl⟩ := exists_binarySearch?_table_eq d.pairwise_starts hpos
    (min offset d.text.utf8ByteSize)
  all_goals
    rw [← startsUpTo, hlength] at hr
    rw [lineIndex?, hr]
    rfl

theorem getElem?_starts :
    d.starts[(d.breaksBefore offset).length]? = some (d.lineStart offset) := by
  have hlength : (d.startsUpTo offset).length = (d.breaksBefore offset).length + 1 := by
    rw [startsUpTo_eq, List.length_cons, List.length_map]
  have hlast : (d.startsUpTo offset).getLast? = some (d.lineStart offset) := by
    rw [lineStart, startsUpTo_eq, List.getLast?_cons]
    rfl
  have hprefix : d.startsUpTo offset <+: d.starts := List.takeWhile_prefix _
  rw [List.getLast?_eq_getElem?, hlength, Nat.add_sub_cancel] at hlast
  obtain ⟨hlt, hstart⟩ := List.getElem?_eq_some_iff.1 hlast
  rw [List.prefix_iff_getElem?.1 hprefix _ hlt, hstart]

/-- The line and the column of an offset are always found. -/
theorem position?_eq : d.position? offset = some (d.position offset) := by
  have hline := d.line_position offset
  have hle := d.lineStart_le offset
  simp only [position?, lineIndex?_eq, getElem?_starts, Span.new?_eq hle, Option.bind_eq_bind,
    Option.bind_some, Option.pure_def, Option.some.injEq]
  rw [Nat.add_comm, ← hline]
  rfl

theorem lineText?_eq : d.lineText? offset = some (d.lineText offset) := by
  obtain ⟨front, line, back, h, hfeed, hback, htext⟩ := d.exists_line offset
  have hline := d.line_position offset
  have hall : d.text.toList = front ++ (line ++ back) ++ [] := by rw [h.text, List.append_nil]
  have hslice : d.text.toList = front ++ line ++ back := by rw [h.text, List.append_assoc]
  have hsize : d.text.utf8ByteSize = utf8Len front + utf8Len (line ++ back) := by
    rw [← String.utf8Len_toList, h.text, String.utf8Len_append]
  have hrest : Span.text? ⟨utf8Len front, d.text.utf8ByteSize⟩ d.text =
      some (String.ofList (line ++ back)) := by
    rw [hsize, Span.text?_eq (Span.fits_of_append hall), Span.text_of_append hall]
  have hwhole : (line ++ back).takeWhile (· ≠ '\n') = line := by
    have hnone : back.takeWhile (· ≠ '\n') = [] := by
      rcases hback with rfl | ⟨more, rfl⟩ <;> simp
    rw [takeWhile_append_of_notMem hfeed, hnone, List.append_nil]
  have hfound : Span.text? ⟨utf8Len front, utf8Len front + utf8Len line⟩ d.text =
      some (String.ofList line) := by
    rw [Span.text?_eq (Span.fits_of_append hslice), Span.text_of_append hslice]
  simp only [lineText?, position?_eq, hline, Nat.add_sub_cancel_left, getElem?_starts, h.start,
    hrest, String.toList_ofList, hwhole, hfound, htext, Option.bind_eq_bind, Option.bind_some]

/-! ### Against a plain scan -/

/-- The text of a line is the slice up to the next line feed, or to the end of the document. -/
theorem exists_lineText_eq : ∃ stop,
    (Span.mk (d.lineStart offset) stop).Fits d.text ∧
    d.lineText offset = (Span.mk (d.lineStart offset) stop).text d.text ∧
    (∀ i, d.lineStart offset ≤ i → i < stop → d.bytes[i]? ≠ some 10) ∧
    (stop = d.text.utf8ByteSize ∨ d.bytes[stop]? = some 10) := by
  obtain ⟨front, line, back, h, hfeed, hback, htext⟩ := d.exists_line offset
  have hslice : d.text.toList = front ++ line ++ back := by rw [h.text, List.append_assoc]
  have hbytes : d.bytes = bytesOf front ++ (bytesOf line ++ bytesOf back) := by
    rw [bytes_eq, h.text, bytesOf_append, bytesOf_append]
  rw [h.start]
  refine ⟨utf8Len front + utf8Len line, Span.fits_of_append hslice, ?_, ?_, ?_⟩
  · rw [htext, Span.text_of_append hslice]
  · intro i hstart hstop hbyte
    rw [hbytes, List.getElem?_append_right (by rwa [length_bytesOf]), length_bytesOf,
      List.getElem?_append_left (by rw [length_bytesOf]; omega)] at hbyte
    have hmem : 10 ∈ bytesOf line := List.mem_of_getElem? hbyte
    apply hfeed
    rwa [← List.count_pos_iff, ← count_bytesOf, List.count_pos_iff]
  · rcases hback with rfl | ⟨more, rfl⟩
    · left
      rw [← String.utf8Len_toList, hslice, List.append_nil, String.utf8Len_append]
    · right
      rw [hbytes, bytesOf_cons, ← List.append_assoc, ← bytesOf_append, ← String.utf8Len_append,
        ← length_bytesOf, List.getElem?_append_right (Nat.le_refl _), Nat.sub_self]
      rfl

theorem breaksBefore_prefix {offset offset' : Nat} (h : offset ≤ offset') :
    d.breaksBefore offset <+: d.breaksBefore offset' := by
  apply List.IsPrefix.filter
  have htake : List.range (min offset d.text.utf8ByteSize) =
      (List.range (min offset' d.text.utf8ByteSize)).take (min offset d.text.utf8ByteSize) := by
    rw [List.take_range]
    congr 1
    omega
  rw [htake]
  exact List.take_prefix _ _

end Document

def Position.Before (p q : Position) : Prop :=
  p.line < q.line ∨ p.line = q.line ∧ p.column < q.column

namespace Document

variable {d : Document}

/-- Of two places between characters, the one with the smaller offset is shown as the earlier. -/
theorem position_before {offset offset' : Nat} (hvalid : String.Pos.Raw.IsValid d.text ⟨offset⟩)
    (hvalid' : String.Pos.Raw.IsValid d.text ⟨offset'⟩) (hlt : offset < offset') :
    (d.position offset).Before (d.position offset') := by
  obtain ⟨front, part, after, h⟩ := exists_stands hvalid
  obtain ⟨front', part', after', h'⟩ := exists_stands hvalid'
  have hprefix := d.breaksBefore_prefix (Nat.le_of_lt hlt)
  have hcount := hprefix.length_le
  rw [h.startsAt.breaks, h'.startsAt.breaks] at hcount
  rw [h.position_eq, h'.position_eq]
  rcases Nat.lt_or_eq_of_le hcount with hbefore | hsame
  · exact .inl (Nat.add_lt_add_left hbefore 1)
  · -- both stand on one line, which starts behind the same characters for both
    have hbreaks := hprefix.eq_of_length (by rw [h.startsAt.breaks, h'.startsAt.breaks, hsame])
    have hstart : utf8Len front = utf8Len front' := by
      rw [← h.startsAt.start, ← h'.startsAt.start, lineStart_eq, lineStart_eq, behindBreaks,
        hbreaks]
      rfl
    have hlength : utf8Len part < utf8Len part' := by
      have hoffset := h.offset_eq
      have hoffset' := h'.offset_eq
      rw [String.utf8Len_append] at hoffset hoffset'
      omega
    have htext := h.startsAt.text.symm.trans h'.startsAt.text
    obtain ⟨-, hline⟩ := append_inj_of_utf8Len htext hstart
    exact .inr ⟨congrArg (1 + ·) hsame, length_lt_of_utf8Len_lt hline hlength⟩

/-- What the lookup of places in a document comes to, against a plain scan of it. Line feeds that
are not the last byte are counted for the line, and characters that start behind the last of them
for the column. The text of the line goes up to the next line feed. Offsets between characters are
shown in their order. The lookup by binary search, with every read and every slice checked, finds
all this. -/
structure PlainLookup (d : Document) : Prop where
  line : ∀ offset, (d.position offset).line = 1 + (d.breaksBefore offset).length
  column : ∀ offset, (d.position offset).column =
    (characterStarts 0 d.text.toList).countP fun i =>
      d.behindBreaks offset ≤ i && i < min offset d.text.utf8ByteSize
  text : ∀ offset, ∃ stop, (Span.mk (d.behindBreaks offset) stop).Fits d.text ∧
    d.lineText offset = (Span.mk (d.behindBreaks offset) stop).text d.text ∧
    (∀ i, d.behindBreaks offset ≤ i → i < stop → d.bytes[i]? ≠ some 10) ∧
    (stop = d.text.utf8ByteSize ∨ d.bytes[stop]? = some 10)
  increasing : ∀ offset offset', String.Pos.Raw.IsValid d.text ⟨offset⟩ →
    String.Pos.Raw.IsValid d.text ⟨offset'⟩ → offset < offset' →
    (d.position offset).Before (d.position offset')
  searched : ∀ offset, d.position? offset = some (d.position offset) ∧
    d.lineText? offset = some (d.lineText offset)

theorem plainLookup (d : Document) : d.PlainLookup where
  line offset := d.line_position offset
  column offset := d.lineStart_eq offset ▸ d.column_eq_countP offset
  text offset := d.lineStart_eq offset ▸ d.exists_lineText_eq offset
  increasing _ _ := position_before
  searched offset := ⟨d.position?_eq offset, d.lineText?_eq offset⟩

end Document

/-! ### Diagnostics -/

namespace Diagnostic

variable (d : Document) (span : Span) (severity : Severity) (message : String)

/-- The problem at the start of a span of a document, with its place and its line looked up. -/
def atSpan? : Option Diagnostic := do
  let position ← d.position? span.start
  let snippet ← d.lineText? span.start
  return {
    path := d.path
    position := position
    severity := severity
    message := message
    snippet := some snippet
  }

theorem atSpan?_eq : atSpan? d span severity message = some (atSpan d span severity message) := by
  rw [atSpan?, d.position?_eq, d.lineText?_eq]
  rfl

/-- Whether a diagnostic shows the line of a document that it numbers. -/
def Shows (a : Diagnostic) (d : Document) : Prop :=
  ∃ line, 1 ≤ a.position.line ∧
    (d.text.toList.splitOn '\n')[a.position.line - 1]? = some line ∧
    a.snippet = some (String.ofList line)

theorem shows_atSpan : (atSpan d span severity message).Shows d := by
  refine ⟨(d.lineText span.start).toList, ?_, d.getElem?_splitOn_line span.start, ?_⟩
  · have hline := d.line_position span.start
    change 1 ≤ (d.position span.start).line
    omega
  · rw [String.ofList_toList]
    rfl

end Diagnostic
end LexicalPatterns
