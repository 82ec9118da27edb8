import LexicalPatterns.Proofs.Tokens.Tiling

/-!
# What quoted literals stand for

Scanning checks the inside of a literal character by character, and decoding reads its bytes. Both
find the same escape sequences, so decoding a scanned literal never falls back. Every text is what
some literal stands for: the one in which its quote marks and backslashes are escaped.
-/

namespace LexicalPatterns

open String (utf8EncodeChar)

theorem toList_loop_eq (bs : ByteArray) (i : Nat) (out : List UInt8) :
    ByteArray.toList.loop bs i out = out.reverse ++ bs.data.toList.drop i := by
  fun_induction ByteArray.toList.loop bs i out with
  | case1 i out hlt ih =>
    have hi : i < bs.data.toList.length := by simpa using hlt
    rw [ih, List.drop_eq_getElem_cons hi]
    simp [ByteArray.get!, getElem!_pos, hlt]
  | case2 i out hle => simpa using hle

theorem toList_toUTF8 (source : String) : source.toUTF8.toList = bytesOf source.toList := by
  rw [← toUTF8_eq]
  exact toList_loop_eq source.toUTF8 0 []

namespace Quote

/-- Decoding that gives up where `decode` falls back: at a backslash before a byte that makes no
escape sequence with it, and at a backslash that nothing follows. -/
def decode? : List UInt8 → Option (List UInt8)
  | [] => some []
  | b :: bs =>
    if b = 92 then
      match bs with
      | [] => none
      | e :: bs => (escapeValue? e).bind fun v => (decode? bs).map (v :: ·)
    else (decode? bs).map (b :: ·)

theorem decode_eq_of_decode? {bs out : List UInt8} (h : decode? bs = some out) :
    decode bs = out := by
  fun_induction decode? bs generalizing out with
  | case1 => exact Option.some.inj h
  | case2 => cases h
  | case3 e bs ih =>
    obtain ⟨v, hv, h⟩ := Option.bind_eq_some_iff.1 h
    obtain ⟨rest, hrest, rfl⟩ := Option.map_eq_some_iff.1 h
    rw [decode, if_pos rfl, hv, ih hrest]
    rfl
  | case4 b bs hb ih =>
    obtain ⟨rest, hrest, rfl⟩ := Option.map_eq_some_iff.1 h
    rw [decode.eq_def]
    simp only [hb, if_false]
    rw [ih hrest]

theorem decode?_append {bs : List UInt8} (h : ∀ b ∈ bs, b ≠ 92) (more : List UInt8) :
    decode? (bs ++ more) = (decode? more).map (bs ++ ·) := by
  induction bs with
  | nil => simp
  | cons b bs ih =>
    obtain ⟨hb, hbs⟩ := List.forall_mem_cons.1 h
    rw [List.cons_append, decode?.eq_def]
    simp only [hb, if_false]
    rw [ih hbs, Option.map_map]
    rfl

/-- Whether characters can stand inside a literal, and the bytes that they stand for. -/
inductive Spells : List Char → List UInt8 → Prop
  | nil : Spells [] []
  | plain {c : Char} {cs : List Char} {out : List UInt8} : c ≠ '\'' → c ≠ '\\' →
      Spells cs out → Spells (c :: cs) (utf8EncodeChar c ++ out)
  | escape {e : Char} {v : UInt8} {cs : List Char} {out : List UInt8} : e ∈ escapes →
      escapeValue? e.val.toUInt8 = some v → Spells cs out → Spells ('\\' :: e :: cs) (v :: out)

theorem exists_escapeValue? {e : Char} (h : e ∈ escapes) :
    ∃ v, escapeValue? e.val.toUInt8 = some v := by
  have hescape := isEscape_iff.2 h
  rw [isEscape, Bool.and_eq_true] at hescape
  exact Option.isSome_iff_exists.1 hescape.2

variable {inside cs ds : List Char} {out more : List UInt8}

theorem Inside.exists_spells (h : Inside inside) : ∃ out, Spells inside out := by
  induction h with
  | nil => exact ⟨[], .nil⟩
  | plain hquote hbackslash _ ih =>
    obtain ⟨out, hout⟩ := ih
    exact ⟨_, .plain hquote hbackslash hout⟩
  | escape he _ ih =>
    obtain ⟨out, hout⟩ := ih
    obtain ⟨v, hv⟩ := exists_escapeValue? he
    exact ⟨_, .escape he hv hout⟩

theorem Spells.isInside (h : Spells inside out) : Inside inside := by
  induction h with
  | nil => exact .nil
  | plain hquote hbackslash _ ih => exact .plain hquote hbackslash ih
  | escape he _ _ ih => exact .escape he ih

/-- Decoding the bytes of characters gives what they stand for, without a fallback. -/
theorem Spells.decode?_eq (h : Spells inside out) : decode? (bytesOf inside) = some out := by
  induction h with
  | nil => rfl
  | @plain c cs out hquote hbackslash _ ih =>
    have hbytes := ByteScan.ne_of_mem_utf8EncodeChar hquote hbackslash
    rw [bytesOf_cons, decode?_append fun b hb => (hbytes b hb).1, ih]
    rfl
  | @escape e v cs out he hv _ ih =>
    have hbackslash : utf8EncodeChar '\\' = [92] := rfl
    have hsize := isNarrow_isEscape e (isEscape_iff.2 he)
    rw [bytesOf_cons, bytesOf_cons, hbackslash, String.utf8EncodeChar_eq_singleton hsize,
      List.singleton_append, List.singleton_append, decode?, if_pos rfl, hv, ih]
    rfl

theorem Spells.append (h : Spells cs out) (h' : Spells ds more) :
    Spells (cs ++ ds) (out ++ more) := by
  induction h with
  | nil => exact h'
  | plain hquote hbackslash _ ih =>
    rw [List.append_assoc]
    exact .plain hquote hbackslash ih
  | escape he hv _ ih => exact .escape he hv ih

theorem spells_flatMap {α : Type} {xs : List α} {f : α → List Char} {g : α → List UInt8}
    (h : ∀ x ∈ xs, Spells (f x) (g x)) : Spells (xs.flatMap f) (xs.flatMap g) := by
  induction xs with
  | nil => exact .nil
  | cons x xs ih =>
    obtain ⟨hx, hxs⟩ := List.forall_mem_cons.1 h
    rw [List.flatMap_cons, List.flatMap_cons]
    exact hx.append (ih hxs)

theorem Spells.ne_nil (h : Spells inside out) (hne : inside ≠ []) : out ≠ [] := by
  cases h with
  | nil => exact absurd rfl hne
  | @plain c _ _ _ _ _ =>
    intro hnil
    obtain ⟨b, bs, hencode, -⟩ := ByteScan.exists_tells c
    simp [hencode] at hnil
  | escape _ _ _ => exact List.cons_ne_nil _ _

/-! ### Literals as texts -/

def enclose (inside : List Char) : String := "'" ++ String.ofList inside ++ "'"

def inner (literal : String) : List UInt8 := (literal.toUTF8.toList.drop 1).dropLast

@[simp] theorem toList_enclose (inside : List Char) :
    (enclose inside).toList = '\'' :: inside ++ ['\''] := by
  simp [enclose]

theorem inner_enclose (inside : List Char) : inner (enclose inside) = bytesOf inside := by
  have hmark : utf8EncodeChar '\'' = [39] := rfl
  have hlast : bytesOf ['\''] = [39] := rfl
  rw [inner, toList_toUTF8, toList_enclose, bytesOf_append, bytesOf_cons, hmark, hlast]
  exact List.dropLast_concat

/-- Whether a text stands between quote marks, and decoding it takes no fallback and comes to at
least one byte. -/
structure Decodes (literal : String) : Prop where
  enclosed : ∃ inside, literal = enclose inside
  decode?_eq : decode? (inner literal) = some (bytes literal)
  bytes_ne_nil : bytes literal ≠ []

theorem Spells.bytes_eq (h : Spells inside out) : bytes (enclose inside) = out := by
  have hdecode := decode_eq_of_decode? h.decode?_eq
  rwa [← inner_enclose] at hdecode

theorem Spells.decodes (h : Spells inside out) (hne : inside ≠ []) : Decodes (enclose inside) := by
  constructor
  · exact ⟨inside, rfl⟩
  · rw [h.bytes_eq, inner_enclose, h.decode?_eq]
  · rw [h.bytes_eq]
    exact h.ne_nil hne

def whole (literal : String) : Token := ⟨.quote, ⟨0, literal.utf8ByteSize⟩⟩

theorem text_whole (literal : String) : (whole literal).text literal = literal := by
  have hwhole : literal.toList = [] ++ literal.toList ++ [] := by simp
  have hspan := Span.text_of_append hwhole
  rw [String.utf8Len_nil, Nat.zero_add, String.utf8Len_toList, String.ofList_toList] at hspan
  exact hspan

/-- A literal is scanned as one token. -/
theorem Spells.tokenize_eq (h : Spells inside out) (hne : inside ≠ []) :
    tokenize (enclose inside) = .ok [whole (enclose inside)] := by
  apply Shape.tokenize_eq
  rw [toList_enclose]
  exact .quote hne h.isInside

def escapeMark (c : Char) : List Char := if c = '\'' ∨ c = '\\' then ['\\', c] else [c]

def ofText (text : String) : String := enclose (text.toList.flatMap escapeMark)

theorem spells_escapeMark (c : Char) : Spells (escapeMark c) (utf8EncodeChar c) := by
  unfold escapeMark
  by_cases hmark : c = '\'' ∨ c = '\\'
  · rw [if_pos hmark]
    rcases hmark with rfl | rfl
    · exact .escape (by decide) rfl .nil
    · exact .escape (by decide) rfl .nil
  · rw [if_neg hmark, ← List.append_nil (utf8EncodeChar c)]
    rw [not_or] at hmark
    exact .plain hmark.1 hmark.2 .nil

theorem spells_text (text : String) :
    Spells (text.toList.flatMap escapeMark) text.toUTF8.toList := by
  rw [toList_toUTF8]
  exact spells_flatMap fun c _ => spells_escapeMark c

theorem flatMap_escapeMark_ne_nil {text : String} (h : text ≠ "") :
    text.toList.flatMap escapeMark ≠ [] := by
  intro hnil
  rw [List.flatMap_eq_nil_iff] at hnil
  apply h
  apply String.toList_inj.1
  refine List.eq_nil_iff_forall_not_mem.2 fun c hc => ?_
  have hempty := hnil c hc
  unfold escapeMark at hempty
  split at hempty <;> cases hempty

/-- The quoted literals of a source are decoded without a fallback, to at least one byte. Every text
but the empty one is a literal by itself once its quote marks and backslashes are escaped, and its
bytes are what the literal stands for. -/
theorem decodes_and_expresses :
    (∀ source ts, tokenize source = .ok ts →
        ∀ t ∈ ts, t.kind = .quote → Decodes (t.text source)) ∧
      ∀ text : String, text ≠ "" →
        tokenize (ofText text) = .ok [whole (ofText text)] ∧
          bytes ((whole (ofText text)).text (ofText text)) = text.toUTF8.toList := by
  constructor
  · intro source ts htokens t ht hkind
    have hshape := (tokensTile_of_tokenize htokens).shape t ht
    rw [hkind] at hshape
    generalize htext : (t.text source).toList = text at hshape
    cases hshape with
    | @quote inside _ hne hinside =>
      obtain ⟨out, hout⟩ := hinside.exists_spells
      have hliteral : t.text source = enclose inside :=
        String.toList_inj.1 (htext.trans (toList_enclose inside).symm)
      rw [hliteral]
      exact hout.decodes hne
  · intro text hne
    have hspells := spells_text text
    constructor
    · exact hspells.tokenize_eq (flatMap_escapeMark_ne_nil hne)
    · rw [text_whole]
      exact hspells.bytes_eq

/-- A literal with a quote mark, a backslash and a character of two bytes. -/
theorem decodes_and_expresses_mixed :
    ofText "'\\é" = "'\\'\\\\é'" ∧ "'\\é" ≠ "" ∧ Decodes (ofText "'\\é") ∧
      bytes ((whole (ofText "'\\é")).text (ofText "'\\é")) = "'\\é".toUTF8.toList := by
  obtain ⟨hdecodes, htexts⟩ := decodes_and_expresses
  obtain ⟨htokens, hbytes⟩ := htexts "'\\é" (by decide)
  have hliteral := hdecodes _ _ htokens _ (List.mem_singleton_self _) rfl
  rw [text_whole] at hliteral
  exact ⟨by decide, by decide, hliteral, hbytes⟩

end Quote
end LexicalPatterns
