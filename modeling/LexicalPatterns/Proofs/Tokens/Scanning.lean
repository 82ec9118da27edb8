import LexicalPatterns.Token.Scan
import Mathlib

/-!
# Scanning token by token

What scanning a text does with its first character: it skips a blank, and reads a token from any
other. The classes of characters that scanning looks at have characters of one byte only.
-/

namespace LexicalPatterns

open String (utf8Len)

theorem tokensFrom_blank {c : Char} (h : isBlank c = true) (offset : Nat) (cs : List Char) :
    tokensFrom offset (c :: cs) = tokensFrom (offset + 1) cs := by
  rw [tokensFrom, if_pos h]

theorem tokensFrom_token {offset : Nat} {c : Char} {cs : List Char} {l : Lexeme}
    (h : isBlank c = false) (hread : Lexeme.read offset c cs = .ok l) :
    tokensFrom offset (c :: cs) =
      (tokensFrom l.stop l.rest).map (⟨l.kind, ⟨offset, l.stop⟩⟩ :: ·) := by
  rw [tokensFrom, if_neg (by simp [h])]
  split
  · next e he =>
    rw [hread] at he
    cases he
  · next l' hl' =>
    rw [hread] at hl'
    obtain rfl := Except.ok.inj hl'
    rfl

theorem tokensFrom_error {offset : Nat} {c : Char} {cs : List Char} {e : ScanError}
    (h : isBlank c = false) (hread : Lexeme.read offset c cs = .error e) :
    tokensFrom offset (c :: cs) = .error e := by
  rw [tokensFrom, if_neg (by simp [h])]
  split
  · next e' he' => exact congrArg Except.error (Except.error.inj (he'.symm.trans hread))
  · next l hl =>
    rw [hread] at hl
    cases hl

def IsNarrow (p : Char → Bool) : Prop := ∀ c, p c = true → c.utf8Size = 1

theorem isNarrow_isDigit : IsNarrow Char.isDigit := by
  intro c h
  simp only [Char.isDigit, Bool.and_eq_true, decide_eq_true_eq, ge_iff_le] at h
  exact Char.utf8Size_eq_one_iff.2 (UInt32.le_trans h.2 (by decide))

theorem isNarrow_isNameChar : IsNarrow isNameChar := by
  intro c h
  simp only [isNameChar, Char.isAlpha, Char.isUpper, Char.isLower, Bool.or_eq_true,
    Bool.and_eq_true, decide_eq_true_eq, beq_iff_eq] at h
  rcases h with (⟨-, h⟩ | ⟨-, h⟩) | rfl
  · exact Char.utf8Size_eq_one_iff.2 (UInt32.le_trans h (by decide))
  · exact Char.utf8Size_eq_one_iff.2 (UInt32.le_trans h (by decide))
  · rfl

theorem isNarrow_isBlank : IsNarrow isBlank := by
  intro c h
  simp only [isBlank, Bool.or_eq_true, beq_iff_eq] at h
  rcases h with (rfl | rfl) | rfl <;> rfl

theorem isNarrow_isEscape : IsNarrow Quote.isEscape := by
  intro c h
  simp only [Quote.isEscape, Bool.and_eq_true, decide_eq_true_eq] at h
  have hlt := UInt32.lt_iff_toNat_lt.1 h.1
  exact Char.utf8Size_eq_one_iff.2 (UInt32.le_iff_toNat_le.2 (Nat.le_of_lt_succ hlt))

theorem utf8Size_eq_one_iff_lt (c : Char) : c.utf8Size = 1 ↔ c.toNat < 128 := by
  rw [Char.utf8Size_eq_one_iff, UInt32.le_iff_toNat_le]
  exact Nat.lt_succ_iff.symm

theorem IsNarrow.eq_false {p : Char → Bool} (hp : IsNarrow p) {c : Char} (hc : 128 ≤ c.toNat) :
    p c = false := by
  rw [← Bool.not_eq_true]
  exact fun h => Nat.not_lt.2 hc ((utf8Size_eq_one_iff_lt c).1 (hp c h))

theorem Mark.ofChar?_eq_none (p : Char → Prop) (hp : ∀ m : Mark, ¬ p m.char) {c : Char}
    (hc : p c) : ofChar? c = none := by
  rcases hmark : ofChar? c with _ | m
  · rfl
  · exact absurd (char_of_ofChar? hmark ▸ hc) (hp m)

theorem isBlank_eq_false (p : Char → Prop) (hp : ¬ p '\t' ∧ ¬ p '\n' ∧ ¬ p ' ') {c : Char}
    (hc : p c) : isBlank c = false := by
  rw [← Bool.not_eq_true]
  intro hblank
  simp only [isBlank, Bool.or_eq_true, beq_iff_eq] at hblank
  rcases hblank with (rfl | rfl) | rfl
  · exact hp.1 hc
  · exact hp.2.1 hc
  · exact hp.2.2 hc

theorem Mark.utf8Size_char (m : Mark) : m.char.utf8Size = 1 := by
  cases m <;> rfl

theorem IsNarrow.utf8Len_takeWhile {p : Char → Bool} (h : IsNarrow p) (cs : List Char) :
    utf8Len (cs.takeWhile p) = (cs.takeWhile p).length := by
  induction cs with
  | nil => rfl
  | cons c cs ih =>
    rw [List.takeWhile_cons]
    split
    · next hc => rw [String.utf8Len_cons, ih, h c hc, List.length_cons]
    · rfl

namespace Lexeme

/-- All ways to read a token. -/
inductive Reads (start : Nat) (c : Char) (cs : List Char) : Lexeme → Prop
  | mark {m : Mark} : Mark.ofChar? c = some m → Reads start c cs ⟨.mark m, start + 1, cs⟩
  | number : Mark.ofChar? c = none → c.isDigit = true →
      Reads start c cs (run .number Char.isDigit start cs)
  | quote {stop : Nat} {rest : List Char} : c = '\'' →
      closeQuote start (start + 1) cs = .ok (stop, rest) → 2 < stop - start →
      Reads start c cs ⟨.quote, stop, rest⟩
  | identifier : Mark.ofChar? c = none → c.isDigit = false → c ≠ '\'' → isNameChar c = true →
      Reads start c cs (run .identifier isNameChar start cs)
  | unknown : Mark.ofChar? c = none → c.isDigit = false → c ≠ '\'' → isNameChar c = false →
      Reads start c cs ⟨.unknown, start + c.utf8Size, cs⟩

variable {start : Nat} {c : Char} {cs : List Char} {l : Lexeme}

theorem Reads.read_eq (h : Reads start c cs l) : read start c cs = .ok l := by
  cases h with
  | mark hmark => simp [read, hmark]
  | number hmark hdigit => simp [read, hmark, hdigit]
  | @quote stop rest hquote hclose hlong =>
    have hmark : Mark.ofChar? '\'' = none := by decide
    have hdigit : Char.isDigit '\'' = false := by decide
    subst hquote
    simp [read, hmark, hdigit, hclose, Nat.not_le.2 hlong]
  | identifier hmark hdigit hquote hname => simp [read, hmark, hdigit, hquote, hname]
  | unknown hmark hdigit hquote hname => simp [read, hmark, hdigit, hquote, hname]

theorem reads_of_read (h : read start c cs = .ok l) : Reads start c cs l := by
  unfold read at h
  split at h
  · next hmark => exact Except.ok.inj h ▸ .mark hmark
  · next hmark =>
    split at h
    · next hdigit => exact Except.ok.inj h ▸ .number hmark hdigit
    · next hdigit =>
      split at h
      · next hquote =>
        split at h
        · cases h
        · next hclose =>
          split at h
          · cases h
          · next hlong => exact Except.ok.inj h ▸ .quote hquote hclose (Nat.not_le.1 hlong)
      · next hquote =>
        rw [Bool.not_eq_true] at hdigit
        split at h
        · next hname => exact Except.ok.inj h ▸ .identifier hmark hdigit hquote hname
        · next hname =>
          rw [Bool.not_eq_true] at hname
          exact Except.ok.inj h ▸ .unknown hmark hdigit hquote hname

theorem refused_of_read {e : ScanError} (h : read start c cs = .error e) : c = '\'' ∧
    (closeQuote start (start + 1) cs = .error e ∨ ∃ stop rest,
      closeQuote start (start + 1) cs = .ok (stop, rest) ∧ stop - start ≤ 2 ∧
        e = .emptyQuote ⟨start, stop⟩) := by
  unfold read at h
  split at h
  · cases h
  · split at h
    · cases h
    · split at h
      · next hquote =>
        refine ⟨hquote, ?_⟩
        split at h
        · next hclose => exact .inl (Except.error.inj h ▸ hclose)
        · next hclose =>
          split at h
          · next hshort => exact .inr ⟨_, _, hclose, hshort, (Except.error.inj h).symm⟩
          · cases h
      · split at h <;> cases h

end Lexeme
end LexicalPatterns
