import LexicalPatterns.Proofs.Tokens.Literals
import LexicalPatterns.Text.Escaped

/-!
# Bytes shown as literals

Listings, summaries and messages show bytes between quote marks. What they show is a literal that
stands for the bytes only if each byte is printable, a tab, a line feed or a carriage return. Every
other byte is shown by two hexadecimal digits, and no literal has an escape sequence for these.
-/

namespace LexicalPatterns

/-- Bytes between single quote marks, as `quoteByte` shows one of them. -/
def shown (bs : List UInt8) : String := "'" ++ escapeBytes bs ++ "'"

theorem shown_eq_enclose (bs : List UInt8) :
    shown bs = Quote.enclose (bs.flatMap escapeByte) := rfl

/-- Whether a byte is shown without hexadecimal digits. -/
def IsPlain (b : UInt8) : Prop := b = 9 ∨ b = 10 ∨ b = 13 ∨ 0x20 ≤ b ∧ b ≤ 0x7e

instance : DecidablePred IsPlain := fun b =>
  inferInstanceAs (Decidable (b = 9 ∨ b = 10 ∨ b = 13 ∨ 0x20 ≤ b ∧ b ≤ 0x7e))

theorem utf8EncodeChar_of_le {b : UInt8} (h : b ≤ 0x7e) :
    String.utf8EncodeChar (ByteScan.char b) = [b] := by
  have hnat : (ByteScan.char b).toNat = b.toNat := ByteScan.toNat_char b
  have hle : b.toNat ≤ 126 := UInt8.le_iff_toNat_le.1 h
  have hsize : (ByteScan.char b).utf8Size = 1 := by
    rw [utf8Size_eq_one_iff_lt, hnat]
    omega
  have hval : (ByteScan.char b).val.toUInt8 = b := by
    apply UInt8.toNat_inj.1
    rw [UInt32.toNat_toUInt8, ← hnat]
    apply Nat.mod_eq_of_lt
    rw [← Char.toNat, hnat]
    exact b.toNat_lt
  rw [String.utf8EncodeChar_eq_singleton hsize, hval]

theorem spells_escapeByte {b : UInt8} (h : IsPlain b) : Quote.Spells (escapeByte b) [b] := by
  unfold escapeByte
  split_ifs with htab hfeed hreturn hdouble hquote hbackslash hprintable
  · subst htab
    exact .escape (by decide) rfl .nil
  · subst hfeed
    exact .escape (by decide) rfl .nil
  · subst hreturn
    exact .escape (by decide) rfl .nil
  · subst hdouble
    exact .escape (by decide) rfl .nil
  · subst hquote
    exact .escape (by decide) rfl .nil
  · subst hbackslash
    exact .escape (by decide) rfl .nil
  · rw [Bool.and_eq_true, decide_eq_true_eq, decide_eq_true_eq] at hprintable
    have hcode := utf8EncodeChar_of_le hprintable.2
    have hplain : Quote.Spells [ByteScan.char b]
        (String.utf8EncodeChar (ByteScan.char b) ++ []) := by
      apply Quote.Spells.plain _ _ .nil
      · intro hchar
        rw [hchar] at hcode
        exact hquote (List.singleton_inj.1 hcode).symm
      · intro hchar
        rw [hchar] at hcode
        exact hbackslash (List.singleton_inj.1 hcode).symm
    rwa [hcode] at hplain
  · rcases h with h | h | h | h
    · exact absurd h htab
    · exact absurd h hfeed
    · exact absurd h hreturn
    · simp [h] at hprintable

/-- A byte that is not plain is shown by a sequence that is no escape sequence of literals. -/
theorem escapeByte_of_not_isPlain {b : UInt8} (h : ¬ IsPlain b) :
    ∃ digits, escapeByte b = '\\' :: 'x' :: digits := by
  have hne {c : UInt8} (hc : IsPlain c) : b ≠ c := by
    rintro rfl
    exact h hc
  have hprintable : ¬ (decide (0x20 ≤ b) && decide (b ≤ 0x7e)) = true := by
    rw [Bool.and_eq_true, decide_eq_true_eq, decide_eq_true_eq]
    exact fun hle => h (.inr (.inr (.inr hle)))
  refine ⟨[hexDigit (b.toNat / 16), hexDigit (b.toNat % 16)], ?_⟩
  unfold escapeByte
  rw [if_neg (hne (by decide)), if_neg (hne (by decide)), if_neg (hne (by decide)),
    if_neg (hne (by decide)), if_neg (hne (by decide)), if_neg (hne (by decide)),
    if_neg hprintable]

theorem spells_shown {bs : List UInt8} (h : ∀ b ∈ bs, IsPlain b) :
    Quote.Spells (bs.flatMap escapeByte) bs := by
  have hspells := Quote.spells_flatMap fun b hb => spells_escapeByte (h b hb)
  rwa [List.flatMap_singleton'] at hspells

theorem utf8ByteSize_escapeBytes (bs : List UInt8) :
    (escapeBytes bs).utf8ByteSize = String.utf8Len (bs.flatMap escapeByte) := by
  rw [← String.utf8Len_toList, escapeBytes, String.toList_ofList]

theorem tokenize_shown_of_not_isPlain {front back : List UInt8} {b : UInt8}
    (hfront : ∀ x ∈ front, IsPlain x) (hb : ¬ IsPlain b) :
    tokenize (shown (front ++ b :: back)) = .error (.invalidEscape 'x'
      ⟨1 + (escapeBytes front).utf8ByteSize, 1 + (escapeBytes front).utf8ByteSize + 2⟩) := by
  obtain ⟨digits, hdigits⟩ := escapeByte_of_not_isPlain hb
  have hinside := (spells_shown hfront).isInside
  have htext : (shown (front ++ b :: back)).toList = '\'' :: (front.flatMap escapeByte ++
      '\\' :: 'x' :: (digits ++ back.flatMap escapeByte ++ ['\''])) := by
    rw [shown_eq_enclose, Quote.toList_enclose, List.flatMap_append, List.flatMap_cons, hdigits]
    simp
  rw [tokenize, htext, utf8ByteSize_escapeBytes, ← Nat.zero_add 1]
  apply Tiles.tokensFrom_eq_error .nil
  exact .invalid hinside (by decide)

/-- Whether bytes are read back from what is shown for them. -/
def Restored (bs : List UInt8) : Prop :=
  ∃ t, tokenize (shown bs) = .ok [t] ∧ t.kind = .quote ∧
    Quote.bytes (t.text (shown bs)) = bs

theorem restored_of_isPlain {bs : List UInt8} (hne : bs ≠ []) (h : ∀ b ∈ bs, IsPlain b) :
    Restored bs := by
  have hspells := spells_shown h
  have hshown : bs.flatMap escapeByte ≠ [] := by
    intro hnil
    rw [hnil] at hspells
    cases hspells
    exact hne rfl
  refine ⟨Quote.whole (shown bs), hspells.tokenize_eq hshown, rfl, ?_⟩
  rw [Quote.text_whole]
  exact hspells.bytes_eq

/-- Bytes are read back from what is shown for them exactly if all of them are plain. Otherwise what
is shown is no literal, and it is refused where the first of the others is shown. -/
theorem restored_iff (bs : List UInt8) (hne : bs ≠ []) :
    (Restored bs ↔ ∀ b ∈ bs, IsPlain b) ∧
      ∀ front b back, bs = front ++ b :: back → (∀ x ∈ front, IsPlain x) → ¬ IsPlain b →
        tokenize (shown bs) = .error (.invalidEscape 'x'
          ⟨1 + (escapeBytes front).utf8ByteSize, 1 + (escapeBytes front).utf8ByteSize + 2⟩) := by
  constructor
  · constructor
    · rintro ⟨t, htokens, -⟩
      by_contra hplain
      push Not at hplain
      -- the first byte that is not plain stands behind plain ones
      obtain ⟨b, hb, hnot⟩ := hplain
      have hsome : (bs.find? fun b => ¬ IsPlain b).isSome := by
        rw [List.find?_isSome]
        exact ⟨b, hb, by simpa using hnot⟩
      obtain ⟨c, hfound⟩ := Option.isSome_iff_exists.1 hsome
      obtain ⟨hc, front, back, rfl, hfront⟩ := List.find?_eq_some_iff_append.1 hfound
      rw [tokenize_shown_of_not_isPlain (by simpa using hfront) (by simpa using hc)] at htokens
      cases htokens
    · exact restored_of_isPlain hne
  · rintro front b back rfl hfront hb
    exact tokenize_shown_of_not_isPlain hfront hb

/-- The bell has an escape sequence in literals, and is shown by another one. -/
theorem restored_iff_bell :
    Quote.bytes "'\\a'" = [7] ∧ quoteByte 7 = "'\\x07'" ∧ ¬ Restored [7] ∧
      tokenize "'\\x07'" = .error (.invalidEscape 'x' ⟨1, 3⟩) ∧ Restored [97, 10, 39, 92] := by
  have hbell : ¬ IsPlain 7 := by decide
  have hplain : ∀ b ∈ [97, 10, 39, 92], IsPlain b := by
    simp only [List.forall_mem_cons]
    exact ⟨by decide, by decide, by decide, by decide, nofun⟩
  obtain ⟨hiff, hrefused⟩ := restored_iff [7] (by decide)
  refine ⟨by cbv, by cbv, fun h => hbell (hiff.1 h 7 (List.mem_singleton_self 7)), ?_, ?_⟩
  · exact hrefused [] 7 [] rfl nofun hbell
  · exact (restored_iff _ (List.cons_ne_nil _ _)).1.2 hplain

end LexicalPatterns
