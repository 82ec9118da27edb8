import LexicalPatterns.Proofs.Documents.Starts

/-!
# Places in a document

A place between two characters of a document stands on a line: behind the characters of the line
that its column counts, and in front of those that are left of the line. The end of a document that
ends with a line feed stands on the last line too, one column behind the line's end.
-/

namespace LexicalPatterns

open String (utf8Len utf8EncodeChar)

/-- Where a text is split is told by the bytes before. -/
theorem append_inj_of_utf8Len {cs cs' ds ds' : List Char} (h : cs ++ ds = cs' ++ ds')
    (hlength : utf8Len cs = utf8Len cs') : cs = cs' ∧ ds = ds' := by
  have hnil (zs : List Char) (hzs : utf8Len zs = 0) : zs = [] := String.utf8Len_eq_zero.1 hzs
  rcases List.append_eq_append_iff.1 h with ⟨zs, rfl, rfl⟩ | ⟨zs, rfl, rfl⟩
  all_goals
    rw [String.utf8Len_append] at hlength
    obtain rfl := hnil zs (by omega)
    simp

theorem length_lt_of_utf8Len_lt {cs cs' ds ds' : List Char} (h : cs ++ ds = cs' ++ ds')
    (hlt : utf8Len cs < utf8Len cs') : cs.length < cs'.length := by
  rcases List.append_eq_append_iff.1 h with ⟨zs, rfl, -⟩ | ⟨zs, rfl, -⟩
  · have hne : zs ≠ [] := by
      rintro rfl
      simp at hlt
    have hpos := List.length_pos_iff.2 hne
    rw [List.length_append]
    omega
  · rw [String.utf8Len_append] at hlt
    omega

namespace Document

/-! ### The bytes that start characters -/

theorem startsCharacter_of_lt {b : UInt8} (h : b.toNat < 128) : startsCharacter b = true := by
  have hall : ∀ n < 128, startsCharacter (UInt8.ofNat n) = true := by decide +kernel
  simpa using hall b.toNat h

theorem startsCharacter_or (b : UInt8) {mark : UInt8} (h : mark ∈ [(192 : UInt8), 224, 240]) :
    startsCharacter (b ||| mark) = true := by
  have hall : ∀ n < 256, startsCharacter (UInt8.ofNat n ||| 192) = true ∧
      startsCharacter (UInt8.ofNat n ||| 224) = true ∧
      startsCharacter (UInt8.ofNat n ||| 240) = true := by decide +kernel
  obtain ⟨htwo, hthree, hfour⟩ := hall b.toNat b.toNat_lt
  rw [UInt8.ofNat_toNat] at htwo hthree hfour
  simp only [List.mem_cons, List.not_mem_nil, or_false] at h
  rcases h with rfl | rfl | rfl <;> assumption

theorem startsCharacter_continued (b : UInt8) : startsCharacter (b &&& 63 ||| 128) = false := by
  have hall : ∀ n < 256, startsCharacter (UInt8.ofNat n &&& 63 ||| 128) = false := by
    decide +kernel
  simpa using hall b.toNat b.toNat_lt

/-- A character is counted at its first byte, and not at the others. -/
theorem exists_startsCharacter (c : Char) : ∃ b bs, utf8EncodeChar c = b :: bs ∧
    startsCharacter b = true ∧ bs.countP startsCharacter = 0 := by
  rcases Char.utf8Size_eq c with hsize | hsize | hsize | hsize
  · refine ⟨_, [], String.utf8EncodeChar_eq_singleton hsize, ?_, rfl⟩
    apply startsCharacter_of_lt
    have hlt := (utf8Size_eq_one_iff_lt c).1 hsize
    rw [UInt32.toNat_toUInt8]
    exact Nat.lt_of_le_of_lt (Nat.mod_le _ _) hlt
  · refine ⟨_, _, String.utf8EncodeChar_eq_cons_cons hsize, startsCharacter_or _ (by simp), ?_⟩
    simp [startsCharacter_continued]
  · refine ⟨_, _, String.utf8EncodeChar_eq_cons_cons_cons hsize, startsCharacter_or _ (by simp), ?_⟩
    simp [startsCharacter_continued]
  · refine ⟨_, _, String.utf8EncodeChar_eq_cons_cons_cons_cons hsize,
      startsCharacter_or _ (by simp), ?_⟩
    simp [startsCharacter_continued]

theorem countP_bytesOf (cs : List Char) : (bytesOf cs).countP startsCharacter = cs.length := by
  induction cs with
  | nil => rfl
  | cons c cs ih =>
    obtain ⟨b, bs, hencode, hb, hbs⟩ := exists_startsCharacter c
    rw [bytesOf_cons, hencode, List.cons_append, List.countP_cons_of_pos hb, List.countP_append,
      hbs, ih, List.length_cons, Nat.zero_add]

def characterStarts : (offset : Nat) → List Char → List Nat
  | _, [] => []
  | offset, c :: cs => offset :: characterStarts (offset + c.utf8Size) cs

theorem characterStarts_append (offset : Nat) (cs ds : List Char) :
    characterStarts offset (cs ++ ds) =
      characterStarts offset cs ++ characterStarts (offset + utf8Len cs) ds := by
  induction cs generalizing offset with
  | nil => rfl
  | cons c cs ih =>
    have hsize : offset + c.utf8Size + utf8Len cs = offset + utf8Len (c :: cs) := by
      rw [String.utf8Len_cons]
      omega
    rw [List.cons_append, characterStarts, characterStarts, ih, hsize, List.cons_append]

theorem bounds_of_mem_characterStarts {offset i : Nat} {cs : List Char}
    (h : i ∈ characterStarts offset cs) : offset ≤ i ∧ i < offset + utf8Len cs := by
  induction cs generalizing offset with
  | nil => cases h
  | cons c cs ih =>
    have hpos := c.utf8Size_pos
    rw [String.utf8Len_cons]
    rcases List.mem_cons.1 h with rfl | hmem
    · omega
    · have hbounds := ih hmem
      omega

theorem countP_take_bytesOf (offset n : Nat) (cs : List Char) :
    ((bytesOf cs).take n).countP startsCharacter =
      (characterStarts offset cs).countP (· < offset + n) := by
  induction cs generalizing offset n with
  | nil => simp [bytesOf, characterStarts]
  | cons c cs ih =>
    obtain ⟨b, bs, hencode, hb, hbs⟩ := exists_startsCharacter c
    have hsize : c.utf8Size = bs.length + 1 := by
      rw [← String.length_utf8EncodeChar, hencode, List.length_cons]
    cases n with
    | zero =>
      rw [List.take_zero, List.countP_nil, Nat.add_zero, eq_comm, List.countP_eq_zero]
      intro i hi
      simpa using (bounds_of_mem_characterStarts hi).1
    | succ n =>
      have hnone : (bs.take n).countP startsCharacter = 0 :=
        Nat.le_zero.1 (hbs ▸ (List.take_sublist n bs).countP_le)
      rw [bytesOf_cons, hencode, List.cons_append, List.take_succ_cons, characterStarts,
        List.countP_cons_of_pos hb, List.countP_cons_of_pos (by simp), List.take_append,
        List.countP_append, hnone, ih (offset + c.utf8Size), Nat.zero_add]
      by_cases hn : bs.length ≤ n
      · have hsame : offset + c.utf8Size + (n - bs.length) = offset + (n + 1) := by omega
        rw [hsame]
      · -- the bound is within the first character, and no other one starts before it
        have hnone' (m : Nat) (hm : m ≤ offset + c.utf8Size) :
            (characterStarts (offset + c.utf8Size) cs).countP (· < m) = 0 := by
          apply List.countP_eq_zero.2
          intro i hi
          have hle := (bounds_of_mem_characterStarts hi).1
          simp only [decide_eq_true_eq]
          omega
        rw [hnone' _ (by omega), hnone' _ (by omega)]

/-! ### Columns -/

variable {d : Document} {offset : Nat} {front rest : List Char}

theorem column_eq (d : Document) (offset : Nat) :
    (d.position offset).column = ((d.bytes.take (min offset d.text.utf8ByteSize)).drop
      (d.lineStart offset)).countP startsCharacter := by
  have hextract (start stop : Nat) :
      (d.text.toUTF8.extract start stop).toList = (d.bytes.take stop).drop start := by
    have htoList (bs : ByteArray) : bs.toList = bs.data.toList := toList_loop_eq bs 0 []
    rw [bytes, htoList, htoList, ByteArray.data_extract, Array.toList_extract,
      List.extract_eq_take_drop, List.drop_take]
  simp only [position, hextract]

/-- The column of an offset counts the characters that start in front of it, on its line. -/
theorem column_eq_countP (d : Document) (offset : Nat) :
    (d.position offset).column = (characterStarts 0 d.text.toList).countP fun i =>
      d.lineStart offset ≤ i && i < min offset d.text.utf8ByteSize := by
  obtain ⟨front, rest, h⟩ := exists_startsAt d offset
  have hle := d.lineStart_le offset
  rw [h.start] at hle
  have hdrop : d.bytes.drop (utf8Len front) = bytesOf rest := by
    rw [bytes_eq, h.text, bytesOf_append, ← length_bytesOf, List.drop_left]
  have hbefore : (characterStarts 0 front).countP (fun i =>
      utf8Len front ≤ i && i < min offset d.text.utf8ByteSize) = 0 := by
    apply List.countP_eq_zero.2
    intro i hi
    have hlt := (bounds_of_mem_characterStarts hi).2
    simp only [Bool.and_eq_true, decide_eq_true_eq, not_and]
    omega
  have hbehind : (characterStarts (utf8Len front) rest).countP (fun i =>
      utf8Len front ≤ i && i < min offset d.text.utf8ByteSize) =
        (characterStarts (utf8Len front) rest).countP (· < min offset d.text.utf8ByteSize) := by
    apply List.countP_congr
    intro i hi
    simp [(bounds_of_mem_characterStarts hi).1]
  rw [column_eq, h.start, List.drop_take, hdrop, countP_take_bytesOf (utf8Len front),
    Nat.add_sub_cancel' hle, h.text, characterStarts_append, List.countP_append, Nat.zero_add,
    hbefore, hbehind, Nat.zero_add]

/-! ### Lines -/

theorem StartsAt.lineText_eq (h : d.StartsAt offset front rest) :
    d.lineText offset = String.ofList (rest.takeWhile (· ≠ '\n')) := by
  have hsource : d.text.toList = front ++ rest ++ [] := by rw [h.text, List.append_nil]
  have hsize : d.text.utf8ByteSize = utf8Len front + utf8Len rest := by
    rw [← String.utf8Len_toList, h.text, String.utf8Len_append]
  rw [lineText, h.start, hsize, Span.text_of_append hsource, String.toList_ofList]

theorem takeWhile_append_of_notMem {line : List Char} (hline : '\n' ∉ line) (back : List Char) :
    (line ++ back).takeWhile (· ≠ '\n') = line ++ back.takeWhile (· ≠ '\n') := by
  apply List.takeWhile_append_of_pos
  intro c hc
  simpa using fun h : c = '\n' => hline (h ▸ hc)

/-- The line of an offset goes up to the next line feed, or to the end of the document. -/
theorem exists_line (d : Document) (offset : Nat) :
    ∃ front line back, d.StartsAt offset front (line ++ back) ∧ '\n' ∉ line ∧
      (back = [] ∨ ∃ more, back = '\n' :: more) ∧ d.lineText offset = String.ofList line := by
  obtain ⟨front, rest, h⟩ := exists_startsAt d offset
  by_cases hfeed : '\n' ∈ rest
  · obtain ⟨line, more, rfl, hline⟩ := List.eq_append_cons_of_mem hfeed
    refine ⟨front, line, _, h, hline, .inr ⟨more, rfl⟩, ?_⟩
    rw [h.lineText_eq, takeWhile_append_of_notMem hline]
    simp
  · refine ⟨front, rest, [], by rwa [List.append_nil], hfeed, .inl rfl, ?_⟩
    rw [h.lineText_eq, ← List.append_nil rest, takeWhile_append_of_notMem hfeed, List.takeWhile_nil]

theorem length_splitOn {α : Type} [BEq α] [LawfulBEq α] (a : α) (xs : List α) :
    (xs.splitOn a).length = xs.count a + 1 := by
  induction xs with
  | nil => rfl
  | cons x xs ih =>
    rw [List.splitOn_cons_eq_if_modifyHead, List.count_cons]
    split
    · rw [List.length_cons, ih]
    · rw [List.length_modifyHead, ih]

theorem head?_splitOn {α : Type} [DecidableEq α] (a : α) (xs : List α) :
    (xs.splitOn a).head? = some (xs.takeWhile (· ≠ a)) := by
  induction xs with
  | nil => rfl
  | cons x xs ih =>
    rw [List.splitOn_cons_eq_if_modifyHead, List.takeWhile_cons]
    by_cases hx : x = a
    · simp [hx]
    · simp [hx, List.head?_modifyHead, ih]

/-- The line of an offset is the one with its number, where line feeds split the document. -/
theorem getElem?_splitOn_line (d : Document) (offset : Nat) :
    (d.text.toList.splitOn '\n')[(d.position offset).line - 1]? =
      some (d.lineText offset).toList := by
  obtain ⟨front, rest, h⟩ := exists_startsAt d offset
  have hhead : (rest.splitOn '\n')[0]? = some (rest.takeWhile (· ≠ '\n')) := by
    rw [← List.head?_eq_getElem?]
    exact head?_splitOn '\n' rest
  rw [line_position, h.breaks, h.lineText_eq, h.text, String.toList_ofList, Nat.add_sub_cancel_left]
  rcases h.feed with rfl | ⟨-, init, rfl⟩
  · exact hhead
  · rw [List.append_assoc, List.cons_append, List.nil_append, List.splitOn_append_cons_self,
      List.getElem?_append_right, length_splitOn, List.count_append]
    · simpa using hhead
    · rw [length_splitOn, List.count_append]
      exact Nat.le_refl _

/-- Whether an offset stands on its line behind the characters `part`, in front of `after`, where
the characters `front` are those of the lines before. -/
structure Stands (d : Document) (offset : Nat) (front part after : List Char) : Prop where
  startsAt : d.StartsAt offset front (part ++ after)
  offset_eq : offset = utf8Len (front ++ part)

variable {part after : List Char}

theorem exists_stands (hvalid : String.Pos.Raw.IsValid d.text ⟨offset⟩) :
    ∃ front part after, d.Stands offset front part after := by
  obtain ⟨front, rest, h⟩ := exists_startsAt d offset
  obtain ⟨before, behind, htext, hoffset⟩ := String.Pos.Raw.isValid_iff_exists_append.1 hvalid
  have hsplit : front ++ rest = before.toList ++ behind.toList := by
    rw [← h.text, htext, String.toList_append]
  have hlength : offset = utf8Len before.toList := by
    rw [String.utf8Len_toList]
    exact congrArg String.Pos.Raw.byteIdx hoffset
  rcases List.append_eq_append_iff.1 hsplit with ⟨part, hpart, rfl⟩ | ⟨more, rfl, hrest⟩
  · exact ⟨front, part, behind.toList, h, by rw [← hpart, hlength]⟩
  · -- the line starts at the offset, since it does not start behind it
    have hmore : more = [] := by
      have hle := h.start_le
      rw [hlength, String.utf8Len_append] at hle
      apply String.utf8Len_eq_zero.1
      omega
    subst hmore
    exact ⟨_, [], rest, h, by rw [hlength, List.append_nil, List.append_nil]⟩

theorem Stands.le (h : d.Stands offset front part after) : offset ≤ d.text.utf8ByteSize := by
  rw [h.offset_eq, ← String.utf8Len_toList, h.startsAt.text, ← List.append_assoc,
    String.utf8Len_append _ after]
  exact Nat.le_add_right _ _

/-- An offset that stands on a line has the number of the line, and how many characters of it are
before the offset. -/
theorem Stands.position_eq (h : d.Stands offset front part after) :
    d.position offset = ⟨1 + front.count '\n', part.length⟩ := by
  have hline := d.line_position offset
  rw [h.startsAt.breaks] at hline
  have hcolumn := d.column_eq offset
  have hbytes : d.bytes = bytesOf (front ++ part) ++ bytesOf after := by
    rw [bytes_eq, h.startsAt.text, ← List.append_assoc, bytesOf_append _ after]
  have hbefore : (d.bytes.take offset).drop (utf8Len front) = bytesOf part := by
    rw [hbytes, h.offset_eq, ← length_bytesOf front, ← length_bytesOf (front ++ part),
      List.take_left, bytesOf_append, List.drop_left]
  rw [Nat.min_eq_left h.le, h.startsAt.start, hbefore, countP_bytesOf] at hcolumn
  rw [← hline, ← hcolumn]

/-- What stands before an offset is a part of the line's text. Only the end of a document that ends
with a line feed stands behind the whole line and its line feed. -/
theorem Stands.lineText_or (h : d.Stands offset front part after) :
    '\n' ∉ part ∧ d.lineText offset = String.ofList (part ++ after.takeWhile (· ≠ '\n')) ∨
      after = [] ∧ part = (d.lineText offset).toList ++ ['\n'] := by
  by_cases hfeed : '\n' ∈ part
  · obtain ⟨line, more, rfl, hline⟩ := List.eq_append_cons_of_mem hfeed
    have hlt : utf8Len (front ++ line) < offset := by
      rw [h.offset_eq, ← List.append_assoc, String.utf8Len_append _ ('\n' :: more),
        String.utf8Len_cons]
      have hpos := Char.utf8Size_pos '\n'
      omega
    have hnil := h.startsAt.last (List.append_assoc line _ _) hlt
    obtain ⟨rfl, rfl⟩ := List.append_eq_nil_iff.1 hnil
    refine .inr ⟨rfl, ?_⟩
    rw [h.startsAt.lineText_eq, String.toList_ofList, List.append_nil,
      takeWhile_append_of_notMem hline]
    simp
  · refine .inl ⟨hfeed, ?_⟩
    rw [h.startsAt.lineText_eq, takeWhile_append_of_notMem hfeed]

/-! ### Columns within lines -/

/-- The column of an offset is within its line, with the place behind the line's last character,
unless the offset is the end of the document. -/
theorem column_le_of_lt (hvalid : String.Pos.Raw.IsValid d.text ⟨offset⟩)
    (hlt : offset < d.text.utf8ByteSize) :
    (d.position offset).column ≤ (d.lineText offset).toList.length := by
  obtain ⟨front, part, after, h⟩ := exists_stands hvalid
  rw [h.position_eq]
  rcases h.lineText_or with ⟨-, hline⟩ | ⟨rfl, -⟩
  · rw [hline, String.toList_ofList, List.length_append]
    exact Nat.le_add_right _ _
  · have htext := h.startsAt.text
    rw [List.append_nil] at htext
    rw [h.offset_eq, ← String.utf8Len_toList, htext] at hlt
    exact absurd hlt (Nat.lt_irrefl _)

/-- The column of the end of a document is behind the last line, and behind the line feed too if the
document ends with one. -/
theorem column_end (d : Document) :
    (d.position d.text.utf8ByteSize).column = (d.lineText d.text.utf8ByteSize).toList.length +
      if d.text.toList.getLast? = some '\n' then 1 else 0 := by
  have hvalid : String.Pos.Raw.IsValid d.text ⟨d.text.utf8ByteSize⟩ :=
    String.Pos.Raw.isValid_rawEndPos
  obtain ⟨front, part, after, h⟩ := exists_stands hvalid
  have hlength : utf8Len (front ++ part) = utf8Len d.text.toList := by
    rw [String.utf8Len_toList, h.offset_eq]
  have hall : (front ++ part) ++ after = d.text.toList ++ [] := by
    rw [List.append_nil, h.startsAt.text, List.append_assoc]
  obtain ⟨htext, rfl⟩ := append_inj_of_utf8Len hall hlength
  rw [h.position_eq, ← htext]
  rcases h.lineText_or with ⟨hfeed, hline⟩ | ⟨-, hpart⟩
  · -- a line that is not the first has a character, which is the last of the document
    have hlast : (front ++ part).getLast? ≠ some '\n' := by
      intro hlast
      rcases part.eq_nil_or_concat with rfl | ⟨init, c, rfl⟩
      · rcases h.startsAt.feed with rfl | ⟨hne, -⟩
        · simp at hlast
        · exact hne rfl
      · simp only [List.concat_eq_append, ← List.append_assoc, List.getLast?_concat,
          Option.some.injEq] at hlast
        simp [hlast] at hfeed
    rw [hline, if_neg hlast, String.toList_ofList]
    simp
  · have hlast : (front ++ part).getLast? = some '\n' := by
      rw [hpart, ← List.append_assoc, List.getLast?_concat]
    rw [if_pos hlast]
    simpa using congrArg List.length hpart

theorem prefix_drop_lineText {span : Span} (hfits : span.Fits d.text)
    (hfeed : '\n' ∉ (span.text d.text).toList) :
    (span.text d.text).toList <+:
      (d.lineText span.start).toList.drop (d.position span.start).column := by
  obtain ⟨front, part, after, h⟩ := exists_stands hfits.start
  obtain ⟨before, text, behind, htext, hspan⟩ := hfits.exists_append
  have hstart : utf8Len (front ++ part) = utf8Len before := by
    rw [← h.offset_eq, hspan]
  have hall : (front ++ part) ++ after = before ++ (text ++ behind) := by
    rw [List.append_assoc, ← h.startsAt.text, htext, List.append_assoc]
  obtain ⟨-, rfl⟩ := append_inj_of_utf8Len hall hstart
  have hshown : span.text d.text = String.ofList text := by
    rw [hspan, Span.text_of_append htext]
  rw [hshown, String.toList_ofList] at hfeed ⊢
  rw [h.position_eq]
  rcases h.lineText_or with ⟨-, hline⟩ | ⟨hnil, -⟩
  · rw [hline, String.toList_ofList, List.drop_left, takeWhile_append_of_notMem hfeed]
    exact List.prefix_append _ _
  · obtain ⟨rfl, -⟩ := List.append_eq_nil_iff.1 hnil
    exact List.nil_prefix

end Document
end LexicalPatterns
