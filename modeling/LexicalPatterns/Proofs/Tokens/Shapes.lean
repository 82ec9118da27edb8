import LexicalPatterns.Proofs.Tokens.Scanning

/-!
# The shapes of tokens

Which texts the tokens of a kind have, and in which ways a quoted literal is malformed. A token is
read where a text of its shape stands, and refused where a quote mark does and the literal behind it
is malformed; there is no third possibility.
-/

namespace LexicalPatterns

open String (utf8Len)

namespace Quote

/-- The characters that make an escape sequence with a backslash before them. -/
def escapes : List Char := ['a', 'b', 'f', 'n', 'r', 't', 'v', '\\', '\'', '"']

theorem isEscape_iff {c : Char} : isEscape c = true ↔ c ∈ escapes := by
  have hnarrow : ∀ n < 128, isEscape (Char.ofNat n) = true → Char.ofNat n ∈ escapes := by
    decide +kernel
  have hescapes : escapes.all isEscape = true := rfl
  refine ⟨fun h => ?_, List.all_eq_true.1 hescapes c⟩
  have hlt : c.toNat < 128 := by
    simp only [isEscape, Bool.and_eq_true, decide_eq_true_eq] at h
    exact UInt32.lt_iff_toNat_lt.1 h.1
  rw [← Char.ofNat_toNat c] at h ⊢
  exact hnarrow _ hlt h

theorem utf8Len_escape {e : Char} (h : isEscape e = true) (cs : List Char) :
    utf8Len ('\\' :: e :: cs) = utf8Len cs + 2 := by
  have hbackslash : '\\'.utf8Size = 1 := rfl
  rw [String.utf8Len_cons, String.utf8Len_cons, isNarrow_isEscape e h, hbackslash]

/-- Whether characters are escape sequences, and others that are no quote mark and no backslash. -/
inductive Inside : List Char → Prop
  | nil : Inside []
  | plain {c : Char} {cs : List Char} : c ≠ '\'' → c ≠ '\\' → Inside cs → Inside (c :: cs)
  | escape {e : Char} {cs : List Char} : e ∈ escapes → Inside cs → Inside ('\\' :: e :: cs)

/-- What ends the inside of a literal that starts at `start`, at an offset, and what comes of it. -/
inductive Ends (start offset : Nat) : List Char → Except ScanError (Nat × List Char) → Prop
  | closed {cs : List Char} : Ends start offset ('\'' :: cs) (.ok (offset + 1, cs))
  | unterminated : Ends start offset [] (.error (.unterminatedQuote ⟨start, offset⟩))
  | cut : Ends start offset ['\\'] (.error (.unterminatedQuote ⟨start, offset + 1⟩))
  | invalid {e : Char} {cs : List Char} : e ∉ escapes → Ends start offset ('\\' :: e :: cs)
      (.error (.invalidEscape e ⟨offset, offset + 1 + e.utf8Size⟩))

variable {start offset : Nat} {inside cs more : List Char}
  {r : Except ScanError (Nat × List Char)}

theorem Ends.closeQuote_eq (h : Ends start offset more r) : closeQuote start offset more = r := by
  cases h with
  | closed | unterminated | cut =>
    unfold closeQuote
    rfl
  | invalid he => simp [closeQuote, mt isEscape_iff.1 he]

theorem Inside.closeQuote_append (h : Inside inside) (start offset : Nat) (more : List Char) :
    closeQuote start offset (inside ++ more) =
      closeQuote start (offset + utf8Len inside) more := by
  induction h generalizing offset with
  | nil => rfl
  | @plain c cs hquote hbackslash _ ih =>
    rw [List.cons_append, closeQuote.eq_def]
    simp only [hquote, hbackslash, if_false]
    rw [ih, String.utf8Len_cons, Nat.add_assoc, Nat.add_comm c.utf8Size]
  | @escape e cs he _ ih =>
    have hescape := isEscape_iff.2 he
    have hne : '\\' ≠ '\'' := by decide
    rw [List.cons_append, List.cons_append, closeQuote.eq_def]
    simp only [hne, hescape, if_false, if_true]
    rw [ih, utf8Len_escape hescape, Nat.add_assoc, Nat.add_comm 2]

theorem exists_ends (start offset : Nat) (cs : List Char) : ∃ inside more r,
    cs = inside ++ more ∧ Inside inside ∧ Ends start (offset + utf8Len inside) more r := by
  fun_induction closeQuote start offset cs with
  | case1 => exact ⟨[], [], _, rfl, .nil, .unterminated⟩
  | case2 => exact ⟨[], _, _, rfl, .nil, .closed⟩
  | case3 => exact ⟨[], _, _, rfl, .nil, .cut⟩
  | case4 offset e cs he hescape ih =>
    obtain ⟨inside, more, r, rfl, hinside, hends⟩ := ih
    refine ⟨'\\' :: e :: inside, more, r, rfl, .escape (isEscape_iff.1 he) hinside, ?_⟩
    rwa [utf8Len_escape he, Nat.add_comm _ 2, ← Nat.add_assoc]
  | case5 offset e cs he => exact ⟨[], _, _, rfl, .nil, .invalid (mt isEscape_iff.2 he)⟩
  | case6 offset c cs hquote hbackslash ih =>
    obtain ⟨inside, more, r, rfl, hinside, hends⟩ := ih
    refine ⟨c :: inside, more, r, rfl, .plain hquote hbackslash hinside, ?_⟩
    rwa [String.utf8Len_cons, Nat.add_comm _ c.utf8Size, ← Nat.add_assoc]

theorem closeQuote_eq_iff : closeQuote start offset cs = r ↔ ∃ inside more,
    cs = inside ++ more ∧ Inside inside ∧ Ends start (offset + utf8Len inside) more r := by
  constructor
  · rintro rfl
    obtain ⟨inside, more, r, rfl, hinside, hends⟩ := exists_ends start offset cs
    rw [hinside.closeQuote_append, hends.closeQuote_eq]
    exact ⟨inside, more, rfl, hinside, hends⟩
  · rintro ⟨inside, more, rfl, hinside, hends⟩
    rw [hinside.closeQuote_append, hends.closeQuote_eq]

/-- In which ways a literal is malformed that starts at an offset, where `cs` follows its opening
mark: it has no closing mark, it is empty, or its first backslash that makes no escape sequence
stands before another character. -/
inductive Malformed (start : Nat) : (cs : List Char) → ScanError → Prop
  | unterminated {inside : List Char} : Inside inside →
      Malformed start inside (.unterminatedQuote ⟨start, start + 1 + utf8Len inside⟩)
  | cut {inside : List Char} : Inside inside → Malformed start (inside ++ ['\\'])
      (.unterminatedQuote ⟨start, start + 1 + utf8Len inside + 1⟩)
  | empty {rest : List Char} : Malformed start ('\'' :: rest) (.emptyQuote ⟨start, start + 2⟩)
  | invalid {inside rest : List Char} {e : Char} : Inside inside → e ∉ escapes →
      Malformed start (inside ++ '\\' :: e :: rest) (.invalidEscape e
        ⟨start + 1 + utf8Len inside, start + 1 + utf8Len inside + 1 + e.utf8Size⟩)

end Quote

/-- The texts that tokens of a kind have; `rest` is what follows. The text of a number and of an
identifier goes on as long as it can. -/
inductive Shape : TokenKind → (text rest : List Char) → Prop
  | mark (m : Mark) {rest : List Char} : Shape (.mark m) [m.char] rest
  | number {text rest : List Char} : text ≠ [] → (∀ c ∈ text, c.isDigit = true) →
      (∀ c ∈ rest.head?, c.isDigit = false) → Shape .number text rest
  | quote {inside rest : List Char} : inside ≠ [] → Quote.Inside inside →
      Shape .quote ('\'' :: inside ++ ['\'']) rest
  | identifier {text rest : List Char} : text ≠ [] → (∀ c ∈ text, isNameChar c = true) →
      (∀ c ∈ rest.head?, isNameChar c = false) → Shape .identifier text rest
  | unknown {c : Char} {rest : List Char} : isBlank c = false → Mark.ofChar? c = none →
      c.isDigit = false → c ≠ '\'' → isNameChar c = false → Shape .unknown [c] rest

theorem isDigit_of_isNameChar {c : Char} (h : isNameChar c = true) : c.isDigit = false := by
  simp only [isNameChar, Char.isAlpha, Char.isUpper, Char.isLower, Bool.or_eq_true,
    Bool.and_eq_true, decide_eq_true_eq, beq_iff_eq, UInt32.le_iff_toNat_le, ge_iff_le] at h
  rw [← Bool.not_eq_true]
  intro hdigit
  simp only [Char.isDigit, Bool.and_eq_true, decide_eq_true_eq, UInt32.le_iff_toNat_le,
    ge_iff_le] at hdigit
  rcases h with (h | h) | rfl
  · exact absurd (Nat.le_trans h.1 hdigit.2) (by decide)
  · exact absurd (Nat.le_trans h.1 hdigit.2) (by decide)
  · exact absurd hdigit.2 (by decide)

namespace Lexeme

variable {start : Nat} {c : Char} {cs text rest : List Char} {l : Lexeme} {kind : TokenKind}

theorem head?_dropWhile (p : Char → Bool) (cs : List Char) :
    ∀ c ∈ (cs.dropWhile p).head?, p c = false := by
  intro c hc
  have hnot := List.head?_dropWhile_not p cs
  rwa [Option.mem_def.1 hc] at hnot

theorem run_eq (kind : TokenKind) {p : Char → Bool} (start : Nat) {cs rest : List Char}
    (hcs : ∀ c ∈ cs, p c = true) (hrest : ∀ c ∈ rest.head?, p c = false) :
    run kind p start (cs ++ rest) = ⟨kind, start + 1 + cs.length, rest⟩ := by
  have hstop : rest.takeWhile p = [] ∧ rest.dropWhile p = rest := by
    cases rest with
    | nil => exact ⟨rfl, rfl⟩
    | cons c rest => simp [hrest c rfl]
  rw [run, List.takeWhile_append_of_pos hcs, List.dropWhile_append_of_pos hcs, hstop.1, hstop.2,
    List.append_nil]

theorem exists_run (kind : TokenKind) {p : Char → Bool} (hp : IsNarrow p) (start : Nat)
    (hc : p c = true) (cs : List Char) : ∃ text, c :: cs = text ++ (run kind p start cs).rest ∧
      (run kind p start cs).stop = start + utf8Len text ∧ text ≠ [] ∧
        ∀ c ∈ text, p c = true := by
  refine ⟨c :: cs.takeWhile p, ?_, ?_, by simp, ?_⟩
  · rw [List.cons_append, run, List.takeWhile_append_dropWhile]
  · rw [run, String.utf8Len_cons, hp c hc, hp.utf8Len_takeWhile]
    dsimp only
    omega
  · exact List.forall_mem_cons.2 ⟨hc, fun _ => List.mem_takeWhile_imp⟩

/-- What is read has the shape of its kind. -/
theorem Reads.shape (h : Reads start c cs l) (hblank : isBlank c = false) :
    ∃ text, c :: cs = text ++ l.rest ∧ l.stop = start + utf8Len text ∧
      Shape l.kind text l.rest := by
  cases h with
  | @mark m hmark =>
    obtain rfl := Mark.char_of_ofChar? hmark
    exact ⟨[m.char], rfl, by simp [m.utf8Size_char], .mark m⟩
  | number _ hdigit =>
    obtain ⟨text, htext, hstop, hne, hall⟩ :=
      exists_run .number isNarrow_isDigit start hdigit cs
    exact ⟨text, htext, hstop, .number hne hall (head?_dropWhile _ _)⟩
  | @quote stop rest hquote hclose hlong =>
    subst hquote
    obtain ⟨inside, more, rfl, hinside, hends⟩ := Quote.closeQuote_eq_iff.1 hclose
    cases hends
    have hmark : '\''.utf8Size = 1 := rfl
    refine ⟨'\'' :: inside ++ ['\''], by simp, ?_, .quote ?_ hinside⟩
    · rw [String.utf8Len_append, String.utf8Len_cons, String.utf8Len_cons, hmark]
      dsimp only [String.utf8Len_nil]
      omega
    · rintro rfl
      rw [String.utf8Len_nil] at hlong
      omega
  | identifier _ _ _ hname =>
    obtain ⟨text, htext, hstop, hne, hall⟩ :=
      exists_run .identifier isNarrow_isNameChar start hname cs
    exact ⟨text, htext, hstop, .identifier hne hall (head?_dropWhile _ _)⟩
  | unknown hmark hdigit hquote hname =>
    exact ⟨[c], rfl, by simp, .unknown hblank hmark hdigit hquote hname⟩

end Lexeme

/-- Where a text has the shape of a kind, a token of that kind is read. -/
theorem Shape.exists_reads {kind : TokenKind} {text rest : List Char} (h : Shape kind text rest)
    (start : Nat) : ∃ c cs, text ++ rest = c :: cs ∧ isBlank c = false ∧
      Lexeme.Reads start c cs ⟨kind, start + utf8Len text, rest⟩ := by
  have hrun (p : Char → Bool) (hp : IsNarrow p) {c : Char} {cs : List Char}
      (hall : ∀ d ∈ c :: cs, p d = true) (hrest : ∀ c ∈ rest.head?, p c = false) :
      Lexeme.run kind p start (cs ++ rest) = ⟨kind, start + utf8Len (c :: cs), rest⟩ := by
    have hlength := hp.utf8Len_takeWhile (c :: cs)
    rw [List.takeWhile_eq_self_iff.2 hall, List.length_cons] at hlength
    obtain ⟨-, hcs⟩ := List.forall_mem_cons.1 hall
    rw [Lexeme.run_eq kind start hcs hrest, hlength, Nat.add_assoc, Nat.add_comm 1]
  cases h with
  | mark m =>
    refine ⟨m.char, rest, rfl, by cases m <;> rfl, ?_⟩
    have hmark : Lexeme.Reads start m.char rest _ := .mark (Mark.ofChar?_char m)
    simpa [m.utf8Size_char] using hmark
  | number hne hall hrest =>
    obtain ⟨c, cs, rfl⟩ := List.exists_cons_of_ne_nil hne
    have hdigit := (List.forall_mem_cons.1 hall).1
    refine ⟨c, cs ++ rest, rfl, isBlank_eq_false (Char.isDigit · = true) (by decide) hdigit, ?_⟩
    rw [← hrun _ isNarrow_isDigit hall hrest]
    have hmark : Mark.ofChar? c = none :=
      Mark.ofChar?_eq_none (Char.isDigit · = true) (fun m => by cases m <;> decide) hdigit
    exact .number hmark hdigit
  | @quote inside rest hne hinside =>
    refine ⟨'\'', inside ++ '\'' :: rest, by simp, rfl, ?_⟩
    have hclose := hinside.closeQuote_append start (start + 1) ('\'' :: rest)
    rw [Quote.Ends.closed.closeQuote_eq] at hclose
    have hmark : '\''.utf8Size = 1 := rfl
    have hstop : start + utf8Len ('\'' :: inside ++ ['\'']) = start + 1 + utf8Len inside + 1 := by
      rw [String.utf8Len_append, String.utf8Len_cons, String.utf8Len_cons, hmark,
        String.utf8Len_nil]
      omega
    have hpos : utf8Len inside ≠ 0 := mt String.utf8Len_eq_zero.1 hne
    rw [hstop]
    exact .quote rfl hclose (by omega)
  | identifier hne hall hrest =>
    obtain ⟨c, cs, rfl⟩ := List.exists_cons_of_ne_nil hne
    have hname := (List.forall_mem_cons.1 hall).1
    refine ⟨c, cs ++ rest, rfl, isBlank_eq_false (isNameChar · = true) (by decide) hname, ?_⟩
    have hquote : c ≠ '\'' := by
      rintro rfl
      exact absurd hname (by decide)
    rw [← hrun _ isNarrow_isNameChar hall hrest]
    have hmark : Mark.ofChar? c = none :=
      Mark.ofChar?_eq_none (isNameChar · = true) (fun m => by cases m <;> decide) hname
    exact .identifier hmark (isDigit_of_isNameChar hname) hquote hname
  | @unknown c rest hblank hmark hdigit hquote hname =>
    refine ⟨c, rest, rfl, hblank, ?_⟩
    have hunknown : Lexeme.Reads start c rest _ := .unknown hmark hdigit hquote hname
    simpa using hunknown

namespace Quote

variable {start : Nat} {cs : List Char} {e : ScanError}

/-- A malformed literal is refused. -/
theorem Malformed.read_eq (h : Malformed start cs e) : Lexeme.read start '\'' cs = .error e := by
  have hmark : Mark.ofChar? '\'' = none := by decide
  have hdigit : Char.isDigit '\'' = false := by decide
  have hread (hclose : closeQuote start (start + 1) cs = .error e) :
      Lexeme.read start '\'' cs = .error e := by
    simp [Lexeme.read, hmark, hdigit, hclose]
  cases h with
  | @unterminated inside hinside =>
    have hclose := hinside.closeQuote_append start (start + 1) []
    rw [List.append_nil, Ends.unterminated.closeQuote_eq] at hclose
    exact hread hclose
  | cut hinside => exact hread (by rw [hinside.closeQuote_append, Ends.cut.closeQuote_eq])
  | @empty rest =>
    have hclose : closeQuote start (start + 1) ('\'' :: rest) = .ok (start + 2, rest) :=
      Ends.closed.closeQuote_eq
    have hshort : start + 2 - start ≤ 2 := by omega
    simp only [Lexeme.read, hmark, hdigit, hclose, hshort, if_true, Bool.false_eq_true, if_false]
  | invalid hinside he =>
    exact hread (by rw [hinside.closeQuote_append, (Ends.invalid he).closeQuote_eq])

/-- Nothing but a malformed literal is refused. -/
theorem malformed_of_read {c : Char} (h : Lexeme.read start c cs = .error e) :
    c = '\'' ∧ Malformed start cs e := by
  obtain ⟨hquote, hclose | ⟨stop, rest, hclose, hshort, rfl⟩⟩ := Lexeme.refused_of_read h
  · obtain ⟨inside, more, rfl, hinside, hends⟩ := closeQuote_eq_iff.1 hclose
    refine ⟨hquote, ?_⟩
    cases hends with
    | unterminated =>
      rw [List.append_nil]
      exact .unterminated hinside
    | cut => exact .cut hinside
    | invalid he => exact .invalid hinside he
  · obtain ⟨inside, more, rfl, -, hends⟩ := closeQuote_eq_iff.1 hclose
    cases hends
    obtain rfl : inside = [] := String.utf8Len_eq_zero.1 (by omega)
    exact ⟨hquote, .empty⟩

/-- The error of a malformed literal points at characters of the literal. -/
theorem Malformed.exists_span (h : Malformed start cs e) :
    ∃ before text after, '\'' :: cs = before ++ text ++ after ∧
      e.span = ⟨start + utf8Len before, start + utf8Len before + utf8Len text⟩ := by
  have hmark : '\''.utf8Size = 1 := rfl
  have hbackslash : '\\'.utf8Size = 1 := rfl
  cases h with
  | unterminated =>
    refine ⟨[], '\'' :: cs, [], by simp, ?_⟩
    simp only [ScanError.span, String.utf8Len_nil, String.utf8Len_cons, hmark, Span.mk.injEq]
    omega
  | @cut inside =>
    refine ⟨[], '\'' :: inside ++ ['\\'], [], by simp, ?_⟩
    simp only [ScanError.span, String.utf8Len_nil, String.utf8Len_cons, String.utf8Len_append,
      hmark, hbackslash, Span.mk.injEq]
    omega
  | @empty rest =>
    refine ⟨[], ['\'', '\''], rest, rfl, ?_⟩
    simp [ScanError.span, hmark]
  | @invalid inside rest e =>
    refine ⟨'\'' :: inside, ['\\', e], rest, by simp, ?_⟩
    simp only [ScanError.span, String.utf8Len_nil, String.utf8Len_cons, hmark, hbackslash,
      Span.mk.injEq]
    omega

theorem Malformed.start_lt (h : Malformed start cs e) : e.span.start < e.span.stop := by
  cases h <;> simp only [ScanError.span] <;> omega

end Quote
end LexicalPatterns
