import LexicalPatterns.Document
import LexicalPatterns.Proofs.Tokens.Literals

/-!
# Where lines start

The table of a document lists where its lines start: at zero, and behind each line feed but one that
is the last byte. A line starts at a character, and up to an offset the table has one entry more
than there are line feeds before it.
-/

namespace LexicalPatterns

open String (utf8Len utf8EncodeChar)

/-- The line feeds behind which a line starts are those that are not the last byte. -/
theorem lineStartsFrom_eq (offset : Nat) (bs : List UInt8) :
    lineStartsFrom offset bs = (bs.dropLast.idxsOf 10 offset).map (· + 1) := by
  induction bs generalizing offset with
  | nil => rfl
  | cons b bs ih =>
    cases bs with
    | nil => rfl
    | cons c bs =>
      rw [lineStartsFrom, List.dropLast_cons_cons, List.idxsOf, List.findIdxs_cons, ih, List.idxsOf]
      by_cases hb : b = 10 <;> simp [hb]

theorem takeWhile_idxsOf {α : Type} [BEq α] (a : α) (xs : List α) (n : Nat) :
    ((xs.idxsOf a).map (· + 1)).takeWhile (· ≤ n) = ((xs.take n).idxsOf a).map (· + 1) := by
  have hsplit : xs.idxsOf a =
      (xs.take n).idxsOf a ++ (xs.drop n).idxsOf a (xs.take n).length := by
    conv_lhs => rw [← List.take_append_drop n xs]
    rw [List.idxsOf, List.findIdxs_append, Nat.zero_add]
    rfl
  have hbefore : ∀ i ∈ ((xs.take n).idxsOf a).map (· + 1), decide (i ≤ n) = true := by
    intro i hi
    obtain ⟨j, hj, rfl⟩ := List.mem_map.1 hi
    have hlt := List.lt_add_of_mem_findIdxs j hj
    rw [List.length_take] at hlt
    simp only [decide_eq_true_eq]
    omega
  rw [hsplit, List.map_append, List.takeWhile_append_of_pos hbefore]
  apply List.append_right_eq_self.2
  by_cases hn : n ≤ xs.length
  · rw [List.length_take_of_le hn]
    rcases hdrop : (xs.drop n).idxsOf a n with _ | ⟨i, is⟩
    · rfl
    · have hi : i ∈ (xs.drop n).idxsOf a n := by simp [hdrop]
      have hle := List.ge_of_mem_findIdxs i hi
      rw [List.map_cons, List.takeWhile_cons_of_neg]
      simp only [decide_eq_true_eq]
      omega
  · rw [List.drop_eq_nil_of_le (by omega)]
    rfl

/-! ### The bytes of line feeds -/

theorem eq_newline_of_mem {c : Char} (h : 10 ∈ utf8EncodeChar c) : c = '\n' := by
  rcases ByteScan.encode_cases c with ⟨b, hencode, rfl⟩ | ⟨-, -, hall⟩
  · rw [hencode] at h
    obtain rfl := List.mem_singleton.1 h
    rfl
  · have hle := hall 10 h
    exact absurd hle (by decide)

theorem count_bytesOf (cs : List Char) : (bytesOf cs).count 10 = cs.count '\n' := by
  induction cs with
  | nil => rfl
  | cons c cs ih =>
    rw [bytesOf_cons, List.count_append, List.count_cons, ih, Nat.add_comm]
    by_cases hc : c = '\n'
    · subst hc
      rfl
    · have hnone : (utf8EncodeChar c).count 10 = 0 :=
        List.count_eq_zero.2 fun hmem => hc (eq_newline_of_mem hmem)
      simp [hnone, hc]

theorem exists_of_bytesOf_eq {cs : List Char} {xs ys : List UInt8}
    (h : bytesOf cs = xs ++ 10 :: ys) : ∃ before after, cs = before ++ '\n' :: after ∧
      bytesOf before = xs ∧ bytesOf after = ys := by
  induction cs generalizing xs with
  | nil => simp [bytesOf] at h
  | cons c cs ih =>
    rw [bytesOf_cons] at h
    rcases List.append_eq_append_iff.1 h with ⟨zs, rfl, hcs⟩ | ⟨zs, hencode, hzs⟩
    · obtain ⟨before, after, rfl, rfl, rfl⟩ := ih hcs
      exact ⟨c :: before, after, rfl, bytesOf_cons c before, rfl⟩
    · rcases zs with _ | ⟨z, zs⟩
      · have hrest : bytesOf cs = [] ++ 10 :: ys := hzs.symm
        obtain ⟨before, after, rfl, hbefore, rfl⟩ := ih hrest
        refine ⟨c :: before, after, rfl, ?_, rfl⟩
        rw [bytesOf_cons, hbefore, hencode]
        simp
      · obtain ⟨rfl, hys⟩ := List.cons.inj hzs
        obtain rfl := eq_newline_of_mem (hencode ▸ List.mem_append_right xs List.mem_cons_self)
        have hsingle : [10] = xs ++ 10 :: zs := hencode
        rcases List.singleton_eq_append_iff.1 hsingle with ⟨rfl, hcons⟩ | ⟨-, hcons⟩
        · obtain rfl := (List.cons.inj hcons).2
          exact ⟨[], cs, rfl, rfl, hys.symm⟩
        · cases hcons

theorem exists_last_of_mem {α : Type} {a : α} {xs : List α} (h : a ∈ xs) :
    ∃ ys zs, xs = ys ++ a :: zs ∧ a ∉ zs := by
  obtain ⟨zs, ys, hreverse, hzs⟩ := List.eq_append_cons_of_mem (List.mem_reverse.2 h)
  refine ⟨ys.reverse, zs.reverse, ?_, by simpa using hzs⟩
  have hxs := congrArg List.reverse hreverse
  simpa using hxs

namespace Document

def bytes (d : Document) : List UInt8 := d.text.toUTF8.toList

/-- The offsets of the line feeds before an offset that are not the last byte of a document. -/
def breaksBefore (d : Document) (offset : Nat) : List Nat :=
  (List.range (min offset d.text.utf8ByteSize)).filter fun i =>
    d.bytes[i]? == some 10 && i + 1 != d.text.utf8ByteSize

variable (d : Document) (offset : Nat)

theorem bytes_eq : d.bytes = bytesOf d.text.toList := toList_toUTF8 d.text

theorem length_bytes : d.bytes.length = d.text.utf8ByteSize := by
  rw [bytes_eq, length_bytesOf, String.utf8Len_toList]

theorem starts_eq_cons : d.starts = 0 :: (d.bytes.dropLast.idxsOf 10).map (· + 1) := by
  rw [d.starts_eq, lineStarts, lineStartsFrom_eq]
  rfl

theorem breaksBefore_min :
    d.breaksBefore (min offset d.text.utf8ByteSize) = d.breaksBefore offset := by
  rw [breaksBefore, Nat.min_assoc, Nat.min_self]
  rfl

theorem breaksBefore_eq : d.breaksBefore offset = (d.bytes.dropLast.take offset).idxsOf 10 := by
  have hrange : (d.breaksBefore offset).Pairwise (· < ·) := List.pairwise_lt_range.filter _
  apply hrange.eq_of_mem_iff List.pairwise_findIdxs
  intro i
  have hsize := d.length_bytes
  rw [breaksBefore, List.mem_filter, List.mem_range, List.mem_findIdxs_iff_exists_getElem_pos]
  simp only [Bool.and_eq_true, beq_iff_eq, bne_iff_ne, List.getElem?_eq_some_iff, List.length_take,
    List.length_dropLast, List.getElem_take, List.getElem_dropLast]
  constructor
  · rintro ⟨hlt, ⟨hi, hfeed⟩, hlast⟩
    exact ⟨by omega, hfeed⟩
  · rintro ⟨hlt, hfeed⟩
    exact ⟨by omega, ⟨by omega, hfeed⟩, by omega⟩

theorem startsUpTo_eq : d.startsUpTo offset = 0 :: (d.breaksBefore offset).map (· + 1) := by
  rw [startsUpTo, starts_eq_cons, List.takeWhile_cons_of_pos (by simp), takeWhile_idxsOf,
    ← breaksBefore_eq, breaksBefore_min]

/-- The number of a line is one more than the number of line feeds before it. -/
theorem line_position : (d.position offset).line = 1 + (d.breaksBefore offset).length := by
  rw [position, startsUpTo_eq, List.length_cons, List.length_map, Nat.add_comm]

/-- The offset behind the last line feed before an offset that is not the last byte of a document,
or zero where there is none. -/
def behindBreaks : Nat := ((d.breaksBefore offset).getLast?.map (· + 1)).getD 0

theorem lineStart_eq : d.lineStart offset = d.behindBreaks offset := by
  rw [lineStart, startsUpTo_eq, List.getLast?_cons, List.getLast?_map, behindBreaks]
  cases (d.breaksBefore offset).getLast? <;> rfl

/-- Whether the line of an offset starts behind the characters `front` of a document, where `rest`
is left. There are no characters before the first line, and some in every other line. -/
structure StartsAt (front rest : List Char) : Prop where
  text : d.text.toList = front ++ rest
  start : d.lineStart offset = utf8Len front
  breaks : (d.breaksBefore offset).length = front.count '\n'
  feed : front = [] ∨ rest ≠ [] ∧ ∃ init, front = init ++ ['\n']
  start_le : utf8Len front ≤ offset

variable {d offset} {front rest : List Char}

theorem exists_startsAt (d : Document) (offset : Nat) :
    ∃ front rest, d.StartsAt offset front rest := by
  by_cases hfeed : 10 ∈ d.bytes.dropLast.take offset
  · obtain ⟨xs, ys, hwindow, hys⟩ := exists_last_of_mem hfeed
    have hbreaks : d.breaksBefore offset = xs.idxsOf 10 ++ [xs.length] := by
      rw [breaksBefore_eq, hwindow]
      simp [List.idxsOf, List.findIdxs_append, List.findIdxs_eq_nil_iff]
      exact fun x hx => fun h => hys (h ▸ hx)
    have hbytes : ∃ zs, bytesOf d.text.toList = xs ++ 10 :: zs ∧ zs ≠ [] := by
      have hprefix : xs ++ 10 :: ys <+: d.bytes.dropLast := by
        rw [← hwindow]
        exact List.take_prefix _ _
      obtain ⟨zs, hzs⟩ := hprefix
      have hne : d.bytes ≠ [] := by
        intro hnil
        simp [hnil] at hzs
      have hall := List.dropLast_append_getLast hne
      rw [← hzs, List.append_assoc, List.append_assoc, List.cons_append] at hall
      exact ⟨_, by rw [← bytes_eq, ← hall], by simp⟩
    obtain ⟨zs, hzs, hne⟩ := hbytes
    obtain ⟨init, rest, htext, rfl, rfl⟩ := exists_of_bytesOf_eq hzs
    have hrest : rest ≠ [] := by
      rintro rfl
      exact hne rfl
    have hlength : utf8Len (init ++ ['\n']) = (bytesOf init).length + 1 := by
      rw [length_bytesOf, String.utf8Len_append]
      rfl
    refine ⟨init ++ ['\n'], rest, ?_, ?_, ?_, .inr ⟨hrest, init, rfl⟩, ?_⟩
    · simpa using htext
    · rw [lineStart_eq, behindBreaks, hbreaks, hlength]
      simp
    · rw [hbreaks]
      simp [List.idxsOf, count_bytesOf, ← List.count_eq_countP]
    · have hle := congrArg List.length hwindow
      rw [List.length_take, List.length_append, List.length_cons] at hle
      omega
  · have hbreaks : d.breaksBefore offset = [] := by
      rw [breaksBefore_eq]
      apply List.findIdxs_eq_nil_iff.2
      intro x hx
      simpa using fun h : x = 10 => hfeed (h ▸ hx)
    refine ⟨[], d.text.toList, rfl, ?_, by rw [hbreaks]; rfl, .inl rfl, Nat.zero_le _⟩
    rw [lineStart_eq, behindBreaks, hbreaks]
    rfl

theorem lineStart_le (d : Document) (offset : Nat) :
    d.lineStart offset ≤ min offset d.text.utf8ByteSize := by
  obtain ⟨front, rest, h⟩ := exists_startsAt d offset
  rw [h.start]
  apply Nat.le_min.2 ⟨h.start_le, ?_⟩
  rw [← String.utf8Len_toList, h.text, String.utf8Len_append]
  exact Nat.le_add_right _ _

/-- A line feed between the start of a line and an offset in it ends the document. -/
theorem StartsAt.last (h : d.StartsAt offset front rest) {init more : List Char}
    (hrest : rest = init ++ '\n' :: more) (hlt : utf8Len (front ++ init) < offset) :
    more = [] := by
  by_contra hmore
  have hbytes : d.bytes = bytesOf (front ++ init) ++ 10 :: bytesOf more := by
    rw [bytes_eq, h.text, hrest, ← List.append_assoc, bytesOf_append, bytesOf_cons]
    rfl
  have hne : bytesOf more ≠ [] := by
    intro hnil
    have hlength := congrArg List.length hnil
    rw [length_bytesOf] at hlength
    exact hmore (String.utf8Len_eq_zero.1 hlength)
  have hwindow : bytesOf (front ++ init) ++ [10] <+: d.bytes.dropLast.take offset := by
    have hinner : d.bytes.dropLast =
        (bytesOf (front ++ init) ++ [10]) ++ (bytesOf more).dropLast := by
      rw [hbytes, List.dropLast_append_cons, List.dropLast_cons_of_ne_nil hne]
      simp
    rw [hinner, List.prefix_take_iff]
    refine ⟨List.prefix_append _ _, ?_⟩
    rw [List.length_append, length_bytesOf]
    exact hlt
  -- the line feed is counted, though it does not stand before the line
  have hcount := hwindow.sublist.count_le 10
  have hbreaks := h.breaks
  rw [breaksBefore_eq, List.idxsOf, List.length_findIdxs, ← List.count_eq_countP] at hbreaks
  rw [hbreaks, List.count_append, count_bytesOf, List.count_append] at hcount
  simp at hcount

end Document
end LexicalPatterns
