import LexicalPatterns.Proofs.Tokens.Scanning

/-!
# Scanning bytes

A source is scanned byte by byte. Characters are asked for in two places only: behind a backslash,
and where a byte starts no other token. There the bytes that are left must not start within a
character. They never do, and the tokens are those that are scanned character by character.
-/

namespace LexicalPatterns

open String (utf8Len utf8EncodeChar)

def bytesOf (cs : List Char) : List UInt8 := cs.flatMap utf8EncodeChar

theorem bytesOf_cons (c : Char) (cs : List Char) :
    bytesOf (c :: cs) = utf8EncodeChar c ++ bytesOf cs :=
  List.flatMap_cons

theorem bytesOf_append (cs ds : List Char) : bytesOf (cs ++ ds) = bytesOf cs ++ bytesOf ds :=
  List.flatMap_append

theorem length_bytesOf (cs : List Char) : (bytesOf cs).length = utf8Len cs := by
  induction cs with
  | nil => rfl
  | cons c cs ih =>
    rw [bytesOf_cons, List.length_append, ih, String.length_utf8EncodeChar, String.utf8Len_cons,
      Nat.add_comm]

theorem toUTF8_eq (source : String) : source.toUTF8.data.toList = bytesOf source.toList := by
  rw [String.toUTF8_eq_toByteArray, ← String.utf8Encode_toList]
  exact List.toList_data_toByteArray

namespace ByteScan

def char (b : UInt8) : Char := Char.ofNat b.toNat

/-- The first character of some bytes, unless they start within a character. -/
def firstChar? (bs : List UInt8) : Option Char := bs.toByteArray.utf8DecodeChar? 0

/-- The rest of a quoted literal opened at `start`, read from `offset` through its closing mark.
There is no result where a character is asked for within another. -/
def closeQuote (start : Nat) : Nat → List UInt8 → Option (Except ScanError (Nat × List UInt8))
  | offset, [] => some (.error (.unterminatedQuote ⟨start, offset⟩))
  | offset, b :: bs =>
    if b = 92 then
      match bs with
      | [] => some (.error (.unterminatedQuote ⟨start, offset + 1⟩))
      | e :: es =>
        match firstChar? (e :: es) with
        | none => none
        | some c =>
          if Quote.isEscape c then closeQuote start (offset + 2) es
          else some (.error (.invalidEscape c ⟨offset, offset + 1 + c.utf8Size⟩))
    else if b = 39 then some (.ok (offset + 1, bs))
    else closeQuote start (offset + 1) bs

structure Lexeme where
  kind : TokenKind
  stop : Nat
  rest : List UInt8

def run (kind : TokenKind) (isMember : Char → Bool) (start : Nat) (bs : List UInt8) : Lexeme :=
  ⟨kind, start + 1 + (bs.takeWhile fun b => isMember (char b)).length,
    bs.dropWhile fun b => isMember (char b)⟩

/-- The token that starts with the byte `b` at `start` and goes on in `bs`. There is no result where
a character is asked for within another. -/
def read (start : Nat) (b : UInt8) (bs : List UInt8) : Option (Except ScanError Lexeme) :=
  match Mark.ofByte? b with
  | some m => some (.ok ⟨.mark m, start + 1, bs⟩)
  | none =>
    if (char b).isDigit then some (.ok (run .number Char.isDigit start bs))
    else if b = 39 then
      match closeQuote start (start + 1) bs with
      | none => none
      | some (.error e) => some (.error e)
      | some (.ok (stop, rest)) =>
        if stop - start ≤ 2 then some (.error (.emptyQuote ⟨start, stop⟩))
        else some (.ok ⟨.quote, stop, rest⟩)
    else if isNameChar (char b) then some (.ok (run .identifier isNameChar start bs))
    else
      match firstChar? (b :: bs) with
      | none => none
      | some c => some (.ok ⟨.unknown, start + c.utf8Size, (b :: bs).drop c.utf8Size⟩)

/-- What scanning the bytes that start at an offset comes to. -/
inductive Walks : Nat → List UInt8 → Except ScanError (List Token) → Prop
  | done {offset : Nat} : Walks offset [] (.ok [])
  | blank {offset : Nat} {b : UInt8} {bs : List UInt8} {r : Except ScanError (List Token)} :
      isBlank (char b) = true → Walks (offset + 1) bs r → Walks offset (b :: bs) r
  | token {offset : Nat} {b : UInt8} {bs : List UInt8} {l : Lexeme}
      {r : Except ScanError (List Token)} : isBlank (char b) = false →
      read offset b bs = some (.ok l) → Walks l.stop l.rest r →
      Walks offset (b :: bs) (r.map (⟨l.kind, ⟨offset, l.stop⟩⟩ :: ·))
  | refused {offset : Nat} {b : UInt8} {bs : List UInt8} {e : ScanError} :
      isBlank (char b) = false → read offset b bs = some (.error e) →
      Walks offset (b :: bs) (.error e)

variable {offset start : Nat} {bs : List UInt8} {c : Char} {cs : List Char}
  {r r' : Except ScanError (List Token)}

/-- Scanning bytes comes to one thing at most. -/
theorem Walks.unique (h : Walks offset bs r) (h' : Walks offset bs r') : r' = r := by
  induction h generalizing r' with
  | done =>
    cases h'
    rfl
  | blank hblank _ ih =>
    cases h' with
    | blank _ hrest => exact ih hrest
    | token hblank' | refused hblank' => simp [hblank] at hblank'
  | token hblank hread _ ih =>
    cases h' with
    | blank hblank' => simp [hblank] at hblank'
    | token _ hread' hrest =>
      obtain rfl := Except.ok.inj (Option.some.inj (hread.symm.trans hread'))
      rw [ih hrest]
    | refused _ hread' => simp [hread] at hread'
  | refused hblank hread =>
    cases h' with
    | blank hblank' => simp [hblank] at hblank'
    | token _ hread' => simp [hread] at hread'
    | refused _ hread' => simpa [hread] using hread'.symm

/-! ### The bytes of characters -/

theorem le_toNat_or (x : UInt8) {y : UInt8} (h : 128 ≤ y.toNat) : 128 ≤ (x ||| y).toNat := by
  rw [UInt8.toNat_or]
  exact Nat.le_trans h Nat.right_le_or

theorem toNat_char (b : UInt8) : (char b).toNat = b.toNat := by
  have hlt := b.toNat_lt
  rw [char, Char.ofNat, dif_pos (.inl (by omega))]
  rfl

/-- A short character is one byte, and the bytes of a longer one are no characters by themselves. -/
theorem encode_cases (c : Char) :
    (∃ b, utf8EncodeChar c = [b] ∧ char b = c) ∨
      (128 ≤ c.toNat ∧ utf8EncodeChar c ≠ [] ∧ ∀ b ∈ utf8EncodeChar c, 128 ≤ b.toNat) := by
  by_cases hone : c.utf8Size = 1
  · have hlt := (utf8Size_eq_one_iff_lt c).1 hone
    refine .inl ⟨_, String.utf8EncodeChar_eq_singleton hone, ?_⟩
    have hbyte : c.val.toUInt8.toNat = c.toNat := by
      rw [UInt32.toNat_toUInt8]
      exact Nat.mod_eq_of_lt (Nat.lt_of_lt_of_le hlt (by decide))
    rw [char, hbyte, Char.ofNat_toNat]
  · refine .inr ⟨Nat.le_of_not_lt (mt (utf8Size_eq_one_iff_lt c).2 hone), ?_⟩
    rcases (Char.utf8Size_eq c).resolve_left hone with hsize | hsize | hsize
    · rw [String.utf8EncodeChar_eq_cons_cons hsize]
      refine ⟨List.cons_ne_nil _ _, ?_⟩
      simp only [List.forall_mem_cons]
      exact ⟨le_toNat_or _ (by decide), le_toNat_or _ (by decide), nofun⟩
    · rw [String.utf8EncodeChar_eq_cons_cons_cons hsize]
      refine ⟨List.cons_ne_nil _ _, ?_⟩
      simp only [List.forall_mem_cons]
      exact ⟨le_toNat_or _ (by decide), le_toNat_or _ (by decide), le_toNat_or _ (by decide), nofun⟩
    · rw [String.utf8EncodeChar_eq_cons_cons_cons_cons hsize]
      refine ⟨List.cons_ne_nil _ _, ?_⟩
      simp only [List.forall_mem_cons]
      exact ⟨le_toNat_or _ (by decide), le_toNat_or _ (by decide), le_toNat_or _ (by decide),
        le_toNat_or _ (by decide), nofun⟩

theorem ofChar?_of_le {c : Char} (hc : 128 ≤ c.toNat) : Mark.ofChar? c = none := by
  refine Mark.ofChar?_eq_none (128 ≤ ·.toNat) (fun m => ?_) hc
  exact Nat.not_le.2 ((utf8Size_eq_one_iff_lt m.char).1 m.utf8Size_char)

/-- Whether a byte tells of a character what scanning looks for, where `bs` are the further bytes of
the character. -/
structure Tells (b : UInt8) (bs : List UInt8) (c : Char) : Prop where
  class_eq : ∀ p, IsNarrow p → p (char b) = p c
  class_nil : ∀ p, IsNarrow p → p c = true → bs = []
  mark_eq : Mark.ofByte? b = Mark.ofChar? c
  mark_nil : (Mark.ofChar? c).isSome → bs = []
  quote_iff : b = 39 ↔ c = '\''
  quote_nil : c = '\'' → bs = []

theorem exists_tells (c : Char) : ∃ b bs, utf8EncodeChar c = b :: bs ∧ Tells b bs c := by
  rcases encode_cases c with ⟨b, hencode, rfl⟩ | ⟨hc, hne, hall⟩
  · refine ⟨b, [], hencode, fun _ _ => rfl, fun _ _ _ => rfl, rfl, fun _ => rfl, ?_, fun _ => rfl⟩
    rw [← Char.toNat_inj, toNat_char, ← UInt8.toNat_inj]
    rfl
  · obtain ⟨b, bs, hencode⟩ := List.exists_cons_of_ne_nil hne
    rw [hencode] at hall
    have hb : 128 ≤ b.toNat := hall b (by simp)
    have hchar : 128 ≤ (char b).toNat := by rwa [toNat_char]
    have hmark : Mark.ofByte? b = none := ofChar?_of_le hchar
    have hquote : c ≠ '\'' := by
      rintro rfl
      exact absurd hc (by decide)
    refine ⟨b, bs, hencode, fun p hp => ?_, fun p hp h => ?_, ?_, ?_, ?_, fun h => absurd h hquote⟩
    · rw [IsNarrow.eq_false hp hchar, IsNarrow.eq_false hp hc]
    · simp [IsNarrow.eq_false hp hc] at h
    · rw [hmark, ofChar?_of_le hc]
    · simp [ofChar?_of_le hc]
    · refine iff_of_false ?_ hquote
      rintro rfl
      exact absurd hb (by decide)

theorem firstChar?_bytesOf (c : Char) (cs : List Char) : firstChar? (bytesOf (c :: cs)) = some c :=
  List.utf8DecodeChar?_utf8Encode_cons

theorem run_bytesOf (kind : TokenKind) {p : Char → Bool} (hp : IsNarrow p) (start : Nat)
    (cs : List Char) : run kind p start (bytesOf cs) =
      ⟨kind, (LexicalPatterns.Lexeme.run kind p start cs).stop,
        bytesOf (LexicalPatterns.Lexeme.run kind p start cs).rest⟩ := by
  have hwhile : ((bytesOf cs).takeWhile fun b => p (char b)).length = (cs.takeWhile p).length ∧
      ((bytesOf cs).dropWhile fun b => p (char b)) = bytesOf (cs.dropWhile p) := by
    induction cs with
    | nil => exact ⟨rfl, rfl⟩
    | cons c cs ih =>
      obtain ⟨b, bs, hencode, htells⟩ := exists_tells c
      have hclass := htells.class_eq p hp
      rw [bytesOf_cons, hencode, List.cons_append, List.takeWhile_cons, List.takeWhile_cons,
        List.dropWhile_cons, List.dropWhile_cons, hclass]
      cases hc : p c with
      | true =>
        obtain rfl := htells.class_nil p hp hc
        simpa using ih
      | false => simp [bytesOf_cons, hencode]
  rw [run, hwhile.1, hwhile.2]
  rfl

theorem closeQuote_append {bs : List UInt8} (h : ∀ b ∈ bs, b ≠ 92 ∧ b ≠ 39) (start offset : Nat)
    (more : List UInt8) :
    closeQuote start offset (bs ++ more) = closeQuote start (offset + bs.length) more := by
  induction bs generalizing offset with
  | nil => rfl
  | cons b bs ih =>
    obtain ⟨⟨hbackslash, hquote⟩, hbs⟩ := List.forall_mem_cons.1 h
    rw [List.cons_append, closeQuote.eq_def]
    simp only [hbackslash, hquote, if_false]
    rw [ih hbs, List.length_cons, Nat.add_right_comm, Nat.add_assoc]

theorem ne_of_mem_utf8EncodeChar {c : Char} (hquote : c ≠ '\'') (hbackslash : c ≠ '\\') :
    ∀ b ∈ utf8EncodeChar c, b ≠ 92 ∧ b ≠ 39 := by
  rcases encode_cases c with ⟨b, hencode, rfl⟩ | ⟨-, -, hall⟩
  · rw [hencode]
    refine List.forall_mem_singleton.2 ⟨?_, ?_⟩
    · rintro rfl
      exact hbackslash rfl
    · rintro rfl
      exact hquote rfl
  · intro b hb
    have hle := hall b hb
    constructor
    · rintro rfl
      exact absurd hle (by decide)
    · rintro rfl
      exact absurd hle (by decide)

theorem closeQuote_backslash (start offset : Nat) (e : Char) (cs : List Char) :
    closeQuote start offset (92 :: bytesOf (e :: cs)) =
      if Quote.isEscape e then closeQuote start (offset + 2) (bytesOf (e :: cs)).tail
      else some (.error (.invalidEscape e ⟨offset, offset + 1 + e.utf8Size⟩)) := by
  have hfirst := firstChar?_bytesOf e cs
  obtain ⟨b, bs, hencode, -⟩ := exists_tells e
  rw [bytesOf_cons, hencode, List.cons_append] at hfirst ⊢
  rw [closeQuote.eq_def]
  simp only [hfirst, if_true, List.tail_cons]

/-- Reading through a literal byte by byte comes to what it comes to character by character. -/
theorem closeQuote_bytesOf (start offset : Nat) (cs : List Char) :
    closeQuote start offset (bytesOf cs) =
      some ((LexicalPatterns.closeQuote start offset cs).map fun r => (r.1, bytesOf r.2)) := by
  have hbackslash : utf8EncodeChar '\\' = [92] := rfl
  fun_induction LexicalPatterns.closeQuote start offset cs with
  | case1 => rfl
  | case2 offset cs =>
    have hquote : utf8EncodeChar '\'' = [39] := rfl
    rw [bytesOf_cons, hquote, List.singleton_append, closeQuote.eq_def]
    rfl
  | case3 offset => rfl
  | case4 offset e cs he hquote ih =>
    obtain ⟨b, bs, hencode, htells⟩ := exists_tells e
    obtain rfl := htells.class_nil _ isNarrow_isEscape he
    rw [bytesOf_cons, hbackslash, List.singleton_append, closeQuote_backslash, if_pos he,
      bytesOf_cons, hencode, List.singleton_append, List.tail_cons, ih]
  | case5 offset e cs he =>
    rw [bytesOf_cons, hbackslash, List.singleton_append, closeQuote_backslash, if_neg he]
    rfl
  | case6 offset c cs hquote hbackslash ih =>
    rw [bytesOf_cons, closeQuote_append (ne_of_mem_utf8EncodeChar hquote hbackslash),
      String.length_utf8EncodeChar, ih]

theorem read_bytesOf (start : Nat) {c : Char} {b : UInt8} {bs : List UInt8}
    (hencode : utf8EncodeChar c = b :: bs) (htells : Tells b bs c) (cs : List Char) :
    read start b (bs ++ bytesOf cs) = some ((LexicalPatterns.Lexeme.read start c cs).map fun l =>
      ⟨l.kind, l.stop, bytesOf l.rest⟩) := by
  have hbytes : b :: (bs ++ bytesOf cs) = bytesOf (c :: cs) := by
    rw [bytesOf_cons, hencode, List.cons_append]
  unfold read LexicalPatterns.Lexeme.read
  rw [htells.mark_eq, htells.class_eq _ isNarrow_isDigit, htells.class_eq _ isNarrow_isNameChar]
  rcases hmark : Mark.ofChar? c with _ | m
  · dsimp only
    by_cases hdigit : c.isDigit = true
    · obtain rfl := htells.class_nil _ isNarrow_isDigit hdigit
      rw [if_pos hdigit, if_pos hdigit, List.nil_append, run_bytesOf _ isNarrow_isDigit]
      rfl
    · rw [if_neg hdigit, if_neg hdigit]
      by_cases hquote : c = '\''
      · obtain rfl := htells.quote_nil hquote
        rw [if_pos hquote, if_pos (htells.quote_iff.2 hquote), List.nil_append, closeQuote_bytesOf]
        rcases LexicalPatterns.closeQuote start (start + 1) cs with e | ⟨stop, rest⟩
        · rfl
        · dsimp only [Except.map]
          split <;> rfl
      · rw [if_neg hquote, if_neg (mt htells.quote_iff.1 hquote)]
        by_cases hname : isNameChar c = true
        · obtain rfl := htells.class_nil _ isNarrow_isNameChar hname
          rw [if_pos hname, if_pos hname, List.nil_append, run_bytesOf _ isNarrow_isNameChar]
          rfl
        · have hdrop : (bytesOf (c :: cs)).drop c.utf8Size = bytesOf cs := by
            rw [bytesOf_cons, ← String.length_utf8EncodeChar, List.drop_left]
          rw [if_neg hname, if_neg hname, hbytes, firstChar?_bytesOf]
          dsimp only
          rw [hdrop]
          rfl
  · obtain rfl := htells.mark_nil (by simp [hmark])
    rfl

theorem walks_bytesOf (offset : Nat) (cs : List Char) :
    Walks offset (bytesOf cs) (tokensFrom offset cs) := by
  fun_induction tokensFrom offset cs with
  | case1 => exact .done
  | case2 offset c cs hblank ih =>
    obtain ⟨b, bs, hencode, htells⟩ := exists_tells c
    obtain rfl := htells.class_nil _ isNarrow_isBlank hblank
    rw [bytesOf_cons, hencode]
    exact .blank ((htells.class_eq _ isNarrow_isBlank).trans hblank) ih
  | case3 offset c cs hblank e hread =>
    obtain ⟨b, bs, hencode, htells⟩ := exists_tells c
    have hbytes := read_bytesOf offset hencode htells cs
    rw [hread] at hbytes
    rw [bytesOf_cons, hencode]
    refine .refused ?_ hbytes
    rw [htells.class_eq _ isNarrow_isBlank]
    simpa using hblank
  | case4 offset c cs hblank l hread _ ih =>
    obtain ⟨b, bs, hencode, htells⟩ := exists_tells c
    have hbytes := read_bytesOf offset hencode htells cs
    rw [hread] at hbytes
    rw [bytesOf_cons, hencode]
    have hchar : isBlank (char b) = false := by
      rw [htells.class_eq _ isNarrow_isBlank]
      simpa using hblank
    have hwalks := Walks.token hchar hbytes ih
    exact hwalks

/-- Scanning the bytes of a source comes to its tokens, or to its error, and to nothing else. -/
theorem walks_iff (source : String) (r : Except ScanError (List Token)) :
    Walks 0 source.toUTF8.data.toList r ↔ r = tokenize source := by
  rw [toUTF8_eq]
  constructor
  · exact (walks_bytesOf 0 source.toList).unique
  · rintro rfl
    exact walks_bytesOf 0 source.toList

end ByteScan
end LexicalPatterns
