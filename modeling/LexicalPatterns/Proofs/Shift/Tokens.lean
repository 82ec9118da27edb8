import Mathlib
import LexicalPatterns.Proofs.Except
import LexicalPatterns.Proofs.Shift.Basic
import LexicalPatterns.Proofs.Tokens.Shapes

/-!
# Tokens of a larger source

A line feed ends what is scanned before it, so the tokens of two texts with a line feed between are
those of the first and those of the second, shifted. Each token has the text in the larger source
that it has in its own.
-/

namespace LexicalPatterns

open String (utf8Len)

inductive Scans : Nat → List Char → List Token → Prop
  | nil {offset : Nat} : Scans offset [] []
  | blank {offset : Nat} {c : Char} {cs : List Char} {ts : List Token} : isBlank c = true →
      Scans (offset + 1) cs ts → Scans offset (c :: cs) ts
  | token {offset : Nat} {c : Char} {cs : List Char} {l : Lexeme} {ts : List Token} :
      isBlank c = false → Lexeme.read offset c cs = .ok l → Scans l.stop l.rest ts →
      Scans offset (c :: cs) (⟨l.kind, ⟨offset, l.stop⟩⟩ :: ts)

theorem Scans.tokensFrom_eq {offset : Nat} {cs : List Char} {ts : List Token}
    (h : Scans offset cs ts) : tokensFrom offset cs = .ok ts := by
  induction h with
  | nil => rw [tokensFrom]
  | blank hblank _ ih => rw [tokensFrom_blank hblank, ih]
  | token hblank hread _ ih =>
    rw [tokensFrom_token hblank hread, ih]
    rfl

theorem scans_of_tokensFrom {offset : Nat} {cs : List Char} {ts : List Token}
    (h : tokensFrom offset cs = .ok ts) : Scans offset cs ts := by
  fun_induction tokensFrom offset cs generalizing ts with
  | case1 =>
    obtain rfl := Except.ok.inj h
    exact .nil
  | case2 offset c cs hblank ih => exact .blank hblank (ih h)
  | case3 => cases h
  | case4 offset c cs hblank l hread _ ih =>
    obtain ⟨ts, hts, rfl⟩ := map_eq_ok.1 h
    exact .token (by simpa using hblank) hread (ih hts)

theorem takeWhile_append_stop {α : Type} {p : α → Bool} {a : α} (h : p a = false)
    (xs ys : List α) : (xs ++ a :: ys).takeWhile p = xs.takeWhile p := by
  induction xs with
  | nil => simp [h]
  | cons x xs ih => rw [List.cons_append, List.takeWhile_cons, ih, ← List.takeWhile_cons]

theorem dropWhile_append_stop {α : Type} {p : α → Bool} {a : α} (h : p a = false)
    (xs ys : List α) : (xs ++ a :: ys).dropWhile p = xs.dropWhile p ++ a :: ys := by
  induction xs with
  | nil => simp [h]
  | cons x xs ih =>
    rw [List.cons_append, List.dropWhile_cons, List.dropWhile_cons, ih]
    split <;> rfl

section Quotes

variable {start offset stop : Nat} {cs rest : List Char}

theorem exists_of_closeQuote (h : closeQuote start offset cs = .ok (stop, rest)) :
    ∃ m, cs = m ++ rest ∧ stop = offset + utf8Len m := by
  obtain ⟨inside, more, rfl, -, hends⟩ := Quote.closeQuote_eq_iff.1 h
  cases hends
  refine ⟨inside ++ ['\''], by simp, ?_⟩
  rw [String.utf8Len_append, Nat.add_assoc]
  rfl

theorem closeQuote_append (h : closeQuote start offset cs = .ok (stop, rest)) (ds : List Char) :
    closeQuote start offset (cs ++ ds) = .ok (stop, rest ++ ds) := by
  obtain ⟨inside, more, rfl, hinside, hends⟩ := Quote.closeQuote_eq_iff.1 h
  cases hends
  exact Quote.closeQuote_eq_iff.2
    ⟨inside, '\'' :: rest ++ ds, List.append_assoc .., hinside, .closed⟩

theorem closeQuote_shift (h : closeQuote start offset cs = .ok (stop, rest)) (k : Nat) :
    closeQuote (start + k) (offset + k) cs = .ok (stop + k, rest) := by
  obtain ⟨inside, more, rfl, hinside, hends⟩ := Quote.closeQuote_eq_iff.1 h
  cases hends
  refine Quote.closeQuote_eq_iff.2 ⟨inside, _, rfl, hinside, ?_⟩
  rw [Nat.add_right_comm offset, Nat.add_right_comm _ 1 k]
  exact .closed

end Quotes

namespace Lexeme

variable {start : Nat} {c : Char} {cs : List Char} {l : Lexeme}

theorem Reads.exists_text (h : Reads start c cs l) :
    ∃ m, c :: cs = m ++ l.rest ∧ l.stop = start + utf8Len m := by
  cases h with
  | @mark m hmark =>
    refine ⟨[c], rfl, ?_⟩
    rw [← Mark.char_of_ofChar? hmark, String.utf8Len_cons, m.utf8Size_char]
    rfl
  | number _ hdigit =>
    obtain ⟨m, htext, hstop, -⟩ := exists_run .number isNarrow_isDigit start hdigit cs
    exact ⟨m, htext, hstop⟩
  | quote hquote hclose _ =>
    obtain ⟨m, rfl, rfl⟩ := exists_of_closeQuote hclose
    refine ⟨c :: m, rfl, ?_⟩
    have hmark : '\''.utf8Size = 1 := rfl
    rw [String.utf8Len_cons, hquote, hmark]
    dsimp only
    omega
  | identifier _ _ _ hname =>
    obtain ⟨m, htext, hstop, -⟩ := exists_run .identifier isNarrow_isNameChar start hname cs
    exact ⟨m, htext, hstop⟩
  | unknown => exact ⟨[c], rfl, by simp⟩

/-- What follows a line feed is not read with what stands before it. -/
theorem Reads.append (h : Reads start c cs l) (ds : List Char) :
    Reads start c (cs ++ '\n' :: ds) { l with rest := l.rest ++ '\n' :: ds } := by
  have hrun (kind : TokenKind) {p : Char → Bool} (hp : p '\n' = false) :
      run kind p start (cs ++ '\n' :: ds) =
        ⟨kind, (run kind p start cs).stop, (run kind p start cs).rest ++ '\n' :: ds⟩ := by
    rw [run, takeWhile_append_stop hp, dropWhile_append_stop hp, run]
  cases h with
  | mark hmark => exact .mark hmark
  | number hmark hdigit =>
    have hnumber := hrun .number (show Char.isDigit '\n' = false by decide)
    exact hnumber ▸ .number hmark hdigit
  | quote hquote hclose hlong => exact .quote hquote (closeQuote_append hclose _) hlong
  | identifier hmark hdigit hquote hname =>
    have hidentifier := hrun .identifier (show isNameChar '\n' = false by decide)
    exact hidentifier ▸ .identifier hmark hdigit hquote hname
  | unknown hmark hdigit hquote hname => exact .unknown hmark hdigit hquote hname

theorem Reads.shift (h : Reads start c cs l) (k : Nat) :
    Reads (start + k) c cs { l with stop := l.stop + k } := by
  have hrun (kind : TokenKind) (p : Char → Bool) : run kind p (start + k) cs =
      ⟨kind, (run kind p start cs).stop + k, (run kind p start cs).rest⟩ := by
    simp only [run, Nat.add_right_comm _ k]
  cases h with
  | mark hmark => exact Nat.add_right_comm start k 1 ▸ .mark hmark
  | number hmark hdigit => exact hrun .number _ ▸ .number hmark hdigit
  | @quote stop rest hquote hclose hlong =>
    have hshifted := closeQuote_shift hclose k
    rw [Nat.add_right_comm] at hshifted
    have hlong' : 2 < stop + k - (start + k) := by omega
    exact .quote hquote hshifted hlong'
  | identifier hmark hdigit hquote hname =>
    exact hrun .identifier _ ▸ .identifier hmark hdigit hquote hname
  | unknown hmark hdigit hquote hname =>
    exact Nat.add_right_comm start k _ ▸ .unknown hmark hdigit hquote hname

end Lexeme

namespace Scans

variable {offset : Nat} {cs : List Char} {ts us : List Token}

theorem append (h : Scans offset cs ts) {ds : List Char}
    (hmore : Scans (offset + utf8Len cs + 1) ds us) :
    Scans offset (cs ++ '\n' :: ds) (ts ++ us) := by
  induction h with
  | nil => exact .blank rfl hmore
  | @blank offset c cs ts hblank _ ih =>
    rw [String.utf8Len_cons, isNarrow_isBlank c hblank, ← Nat.add_assoc,
      Nat.add_right_comm offset] at hmore
    exact .blank hblank (ih hmore)
  | @token offset c cs l ts hblank hread _ ih =>
    have hreads := Lexeme.reads_of_read hread
    obtain ⟨m, htext, hstop⟩ := hreads.exists_text
    rw [htext, String.utf8Len_append, ← Nat.add_assoc, ← hstop] at hmore
    have hscans := Scans.token hblank (hreads.append ds).read_eq (ih hmore)
    exact hscans

theorem shift (h : Scans offset cs ts) (k : Nat) :
    Scans (offset + k) cs (ts.map (Token.shift k)) := by
  induction h with
  | nil => exact .nil
  | @blank offset c cs ts hblank _ ih =>
    rw [Nat.add_right_comm] at ih
    exact .blank hblank ih
  | token hblank hread _ ih =>
    exact .token hblank ((Lexeme.reads_of_read hread).shift k).read_eq ih

theorem exists_span (h : Scans offset cs ts) {t : Token} (ht : t ∈ ts) :
    ∃ l m r, cs = l ++ m ++ r ∧
      t.span = ⟨offset + utf8Len l, offset + utf8Len l + utf8Len m⟩ := by
  induction h with
  | nil => cases ht
  | @blank offset c cs ts hblank _ ih =>
    obtain ⟨l, m, r, rfl, hspan⟩ := ih ht
    refine ⟨c :: l, m, r, rfl, ?_⟩
    rw [hspan, String.utf8Len_cons, isNarrow_isBlank c hblank, Nat.add_right_comm, Nat.add_assoc]
  | @token offset c cs lexeme ts hblank hread _ ih =>
    obtain ⟨m, htext, hstop⟩ := (Lexeme.reads_of_read hread).exists_text
    rcases List.mem_cons.1 ht with rfl | ht
    · exact ⟨[], m, lexeme.rest, htext, by simp [hstop]⟩
    · obtain ⟨l, m', r, hrest, hspan⟩ := ih ht
      refine ⟨m ++ l, m', r, by simp [htext, hrest], ?_⟩
      rw [hspan, hstop, String.utf8Len_append, Nat.add_assoc offset]

end Scans

/-- A token has in a larger source the text that it has in its own. -/
theorem Token.text_shift {source : String} {ts : List Token} (h : tokenize source = .ok ts)
    {t : Token} (ht : t ∈ ts) (before after : String) :
    (t.shift before.utf8ByteSize).text (before ++ source ++ after) = t.text source := by
  obtain ⟨l, m, r, hsource, hspan⟩ := (scans_of_tokensFrom h).exists_span ht
  have hown : source = String.ofList (l ++ m ++ r) := by rw [← hsource, String.ofList_toList]
  have hlarger : before ++ source ++ after =
      String.ofList (before.toList ++ l ++ m ++ (r ++ after.toList)) := by
    apply String.toList_inj.1
    simp [hsource]
  have hstart : utf8Len l + before.utf8ByteSize = utf8Len (before.toList ++ l) := by
    rw [String.utf8Len_append, String.utf8Len_toList, Nat.add_comm]
  have hown' := String.extract_of_valid l m r
  have hlarger' := String.extract_of_valid (before.toList ++ l) m (r ++ after.toList)
  rw [← hlarger, ← hstart, Nat.add_right_comm] at hlarger'
  rw [← hown] at hown'
  unfold Token.text Token.shift Span.shift Span.text
  rw [hspan]
  simp only [Nat.zero_add]
  exact hlarger'.trans hown'.symm

/-- The tokens of a source are those of its parts, if a line feed stands between them. -/
theorem tokenize_append {first second : String} {ts us : List Token}
    (hfirst : tokenize first = .ok ts) (hsecond : tokenize second = .ok us) :
    tokenize (first ++ "\n" ++ second) =
      .ok (ts ++ us.map (Token.shift (first.utf8ByteSize + 1))) := by
  have hmore := (scans_of_tokensFrom hsecond).shift (first.utf8ByteSize + 1)
  rw [← Nat.add_assoc, ← String.utf8Len_toList] at hmore
  have hall := (scans_of_tokensFrom hfirst).append hmore
  have htext : (first ++ "\n" ++ second).toList = first.toList ++ '\n' :: second.toList := by
    simp
  rw [tokenize, htext, hall.tokensFrom_eq, String.utf8Len_toList]

end LexicalPatterns
