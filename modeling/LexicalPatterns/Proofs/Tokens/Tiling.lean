import LexicalPatterns.Proofs.Tokens.Bytes
import LexicalPatterns.Proofs.Tokens.Shapes

/-!
# Tokens tile their source

The tokens of a source stand one behind the other with blanks between, before and behind them, and
each has the shape of its kind. Scanning gets to the end of a source unless it meets a quote mark
with a malformed literal behind it, which it then refuses.
-/

namespace LexicalPatterns

open String (utf8Len)

/-- Whether tokens and blanks tile the text `cs` that starts at `offset`, up to `stop`, where `rest`
is left of the text. -/
inductive Tiles (stop : Nat) (rest : List Char) : (offset : Nat) → (cs : List Char) →
    List Token → Prop
  | nil : Tiles stop rest stop rest []
  | blank {offset : Nat} {c : Char} {cs : List Char} {ts : List Token} : isBlank c = true →
      Tiles stop rest (offset + 1) cs ts → Tiles stop rest offset (c :: cs) ts
  | token {offset : Nat} {kind : TokenKind} {text more : List Char} {ts : List Token} :
      Shape kind text more → Tiles stop rest (offset + utf8Len text) more ts →
      Tiles stop rest offset (text ++ more) (⟨kind, ⟨offset, offset + utf8Len text⟩⟩ :: ts)

namespace Tiles

variable {offset stop : Nat} {cs rest : List Char} {ts : List Token} {t : Token}

/-- Scanning a text that is tiled gives the tokens, and goes on behind them. -/
theorem tokensFrom_eq (h : Tiles stop rest offset cs ts) :
    tokensFrom offset cs = (tokensFrom stop rest).map (ts ++ ·) := by
  induction h with
  | nil => cases tokensFrom stop rest <;> rfl
  | blank hblank _ ih => rw [tokensFrom_blank hblank, ih]
  | @token offset kind text more ts hshape _ ih =>
    obtain ⟨c, cs, htext, hblank, hreads⟩ := hshape.exists_reads offset
    rw [htext, tokensFrom_token hblank hreads.read_eq, ih]
    cases tokensFrom stop rest <;> rfl

theorem exists_append (h : Tiles stop rest offset cs ts) :
    ∃ front, cs = front ++ rest ∧ stop = offset + utf8Len front := by
  induction h with
  | nil => exact ⟨[], rfl, rfl⟩
  | @blank offset c cs ts hblank _ ih =>
    obtain ⟨front, rfl, rfl⟩ := ih
    refine ⟨c :: front, rfl, ?_⟩
    rw [String.utf8Len_cons, isNarrow_isBlank c hblank]
    omega
  | @token offset kind text more ts _ _ ih =>
    obtain ⟨front, rfl, rfl⟩ := ih
    refine ⟨text ++ front, (List.append_assoc ..).symm, ?_⟩
    rw [String.utf8Len_append]
    omega

theorem exists_shape (h : Tiles stop rest offset cs ts) (ht : t ∈ ts) :
    ∃ before text after, cs = before ++ text ++ after ∧ Shape t.kind text after ∧
      t.span = ⟨offset + utf8Len before, offset + utf8Len before + utf8Len text⟩ := by
  induction h with
  | nil => cases ht
  | @blank offset c cs ts hblank _ ih =>
    obtain ⟨before, text, after, rfl, hshape, hspan⟩ := ih ht
    refine ⟨c :: before, text, after, rfl, hshape, ?_⟩
    rw [hspan, String.utf8Len_cons, isNarrow_isBlank c hblank, Nat.add_right_comm, Nat.add_assoc]
  | @token offset kind text more ts hshape _ ih =>
    rcases List.mem_cons.1 ht with rfl | ht
    · exact ⟨[], text, more, rfl, hshape, by simp⟩
    · obtain ⟨before, text', after, rfl, hshape', hspan⟩ := ih ht
      refine ⟨text ++ before, text', after, by simp, hshape', ?_⟩
      rw [hspan, String.utf8Len_append, Nat.add_assoc offset]

theorem pairwise (h : Tiles stop rest offset cs ts) :
    ts.Pairwise fun t u => t.span.stop ≤ u.span.start := by
  induction h with
  | nil => exact .nil
  | blank _ _ ih => exact ih
  | token _ hmore ih =>
    refine .cons (fun u hu => ?_) ih
    obtain ⟨before, text, after, -, -, hspan⟩ := hmore.exists_shape hu
    rw [hspan]
    exact Nat.le_add_right _ _

end Tiles

/-- The bytes of the blanks. -/
def blankBytes : List UInt8 := [9, 10, 32]

theorem utf8EncodeChar_of_isBlank {c : Char} (h : isBlank c = true) :
    ∃ b ∈ blankBytes, String.utf8EncodeChar c = [b] := by
  simp only [isBlank, Bool.or_eq_true, beq_iff_eq] at h
  rcases h with (rfl | rfl) | rfl
  · exact ⟨9, by decide, rfl⟩
  · exact ⟨10, by decide, rfl⟩
  · exact ⟨32, by decide, rfl⟩

theorem Tiles.blank_of_getElem? {offset stop : Nat} {cs rest : List Char} {ts : List Token}
    (h : Tiles stop rest offset cs ts) {i : Nat} {b : UInt8} (hi : offset + i < stop)
    (hb : (bytesOf cs)[i]? = some b)
    (hout : ∀ t ∈ ts, ¬ (t.span.start ≤ offset + i ∧ offset + i < t.span.stop)) :
    b ∈ blankBytes := by
  induction h generalizing i with
  | nil => omega
  | @blank offset c cs ts hblank _ ih =>
    obtain ⟨b', hb', hencode⟩ := utf8EncodeChar_of_isBlank hblank
    rw [bytesOf_cons, hencode] at hb
    cases i with
    | zero => exact Option.some.inj hb ▸ hb'
    | succ i =>
      have hindex : offset + (i + 1) = offset + 1 + i := by omega
      rw [hindex] at hi hout
      exact ih hi hb hout
  | @token offset kind text more ts _ _ ih =>
    obtain ⟨hself, hmore⟩ := List.forall_mem_cons.1 hout
    rw [bytesOf_append, List.getElem?_append_right, length_bytesOf] at hb
    · have hindex : offset + i = offset + utf8Len text + (i - utf8Len text) := by
        dsimp only at hself
        omega
      rw [hindex] at hi hmore
      exact ih hi hb hmore
    · rw [length_bytesOf]
      dsimp only at hself
      omega

/-- Whether a span is one of a source: it is in bounds and does not cut characters. -/
structure Span.Fits (s : Span) (source : String) : Prop where
  start_le_stop : s.start ≤ s.stop
  stop_le : s.stop ≤ source.utf8ByteSize
  start : String.Pos.Raw.IsValid source ⟨s.start⟩
  stop : String.Pos.Raw.IsValid source ⟨s.stop⟩

theorem Span.fits_of_append {source : String} {before text after : List Char}
    (h : source.toList = before ++ text ++ after) :
    Fits ⟨utf8Len before, utf8Len before + utf8Len text⟩ source := by
  have hvalid (front back : List Char) (hsplit : source.toList = front ++ back) :
      String.Pos.Raw.IsValid source ⟨utf8Len front⟩ := by
    refine String.Pos.Raw.isValid_iff_exists_append.2
      ⟨String.ofList front, String.ofList back, ?_, (String.rawEndPos_ofList front).symm⟩
    apply String.toList_inj.1
    simpa using hsplit
  refine ⟨Nat.le_add_right _ _, ?_, hvalid before (text ++ after) (by simp [h]), ?_⟩
  · rw [← String.utf8Len_toList, h, String.utf8Len_append, String.utf8Len_append]
    exact Nat.le_add_right _ _
  · rw [← String.utf8Len_append]
    exact hvalid _ after h

theorem Span.text_of_append {source : String} {before text after : List Char}
    (h : source.toList = before ++ text ++ after) :
    Span.text ⟨utf8Len before, utf8Len before + utf8Len text⟩ source = String.ofList text := by
  have hsource : source = String.ofList (before ++ text ++ after) := by
    rw [← h, String.ofList_toList]
  rw [hsource]
  exact String.extract_of_valid before text after

theorem Span.Fits.exists_append {s : Span} {source : String} (h : s.Fits source) :
    ∃ before text after, source.toList = before ++ text ++ after ∧
      s = ⟨utf8Len before, utf8Len before + utf8Len text⟩ := by
  obtain ⟨a, b, hab, hstart⟩ := String.Pos.Raw.isValid_iff_exists_append.1 h.start
  obtain ⟨c, d, hcd, hstop⟩ := String.Pos.Raw.isValid_iff_exists_append.1 h.stop
  have ha : s.start = utf8Len a.toList := by
    rw [String.utf8Len_toList]
    exact congrArg String.Pos.Raw.byteIdx hstart
  have hc : s.stop = utf8Len c.toList := by
    rw [String.utf8Len_toList]
    exact congrArg String.Pos.Raw.byteIdx hstop
  have hle := h.start_le_stop
  have hsplit : a.toList ++ b.toList = c.toList ++ d.toList := by
    rw [← String.toList_append, ← String.toList_append, ← hab, ← hcd]
  have hsource : source.toList = c.toList ++ d.toList := by rw [hcd, String.toList_append]
  have hspan : s = ⟨s.start, s.stop⟩ := rfl
  rcases List.append_eq_append_iff.1 hsplit with ⟨text, hct, -⟩ | ⟨text, hat, -⟩
  · refine ⟨a.toList, text, d.toList, by rw [hsource, hct], ?_⟩
    rw [hspan, ha, hc, hct, String.utf8Len_append]
  · -- the span is empty
    rw [ha, hc, hat, String.utf8Len_append] at hle
    obtain rfl : text = [] := String.utf8Len_eq_zero.1 (by omega)
    refine ⟨c.toList, [], d.toList, by rw [hsource, List.append_nil], ?_⟩
    rw [hspan, ha, hc, hat, List.append_nil]
    rfl

instance (s : Span) (source : String) : Decidable (s.Fits source) :=
  decidable_of_iff (s.start ≤ s.stop ∧ s.stop ≤ source.utf8ByteSize ∧
      String.Pos.Raw.IsValid source ⟨s.start⟩ ∧ String.Pos.Raw.IsValid source ⟨s.stop⟩)
    ⟨fun ⟨hle, hbound, hstart, hstop⟩ => ⟨hle, hbound, hstart, hstop⟩,
      fun ⟨hle, hbound, hstart, hstop⟩ => ⟨hle, hbound, hstart, hstop⟩⟩

/-- The span between two offsets. There is none where they are in the wrong order. -/
def Span.new? (start stop : Nat) : Option Span :=
  if start ≤ stop then some ⟨start, stop⟩ else none

theorem Span.new?_eq {start stop : Nat} (h : start ≤ stop) :
    Span.new? start stop = some ⟨start, stop⟩ := if_pos h

/-- The part of a source that a span covers. There is none where the span is out of bounds or cuts
a character. -/
def Span.text? (s : Span) (source : String) : Option String :=
  if s.Fits source then some (s.text source) else none

theorem Span.text?_eq {s : Span} {source : String} (h : s.Fits source) :
    s.text? source = some (s.text source) := if_pos h

theorem exists_tiles (offset : Nat) (cs : List Char) :
    ∃ stop rest ts, Tiles stop rest offset cs ts ∧
      (rest = [] ∨ ∃ more e, rest = '\'' :: more ∧ Quote.Malformed stop more e) := by
  fun_induction tokensFrom offset cs with
  | case1 offset => exact ⟨offset, [], [], .nil, .inl rfl⟩
  | case2 offset c cs hblank ih =>
    obtain ⟨stop, rest, ts, htiles, hend⟩ := ih
    exact ⟨stop, rest, ts, .blank hblank htiles, hend⟩
  | case3 offset c cs _ e hread =>
    obtain ⟨rfl, hmalformed⟩ := Quote.malformed_of_read hread
    exact ⟨offset, _, [], .nil, .inr ⟨cs, e, rfl, hmalformed⟩⟩
  | case4 offset c cs hblank l hread _ ih =>
    -- what is read ends where its text does, and the tiles behind it start there
    obtain ⟨stop, rest, ts, htiles, hend⟩ := ih
    obtain ⟨text, htext, hstop, hshape⟩ :=
      (Lexeme.reads_of_read hread).shape (by simpa using hblank)
    rw [hstop] at htiles
    rw [htext]
    exact ⟨stop, rest, _, .token hshape htiles, hend⟩

section Results

variable {offset : Nat} {cs : List Char} {ts : List Token} {e : ScanError}

theorem Tiles.tokensFrom_eq_ok {stop : Nat} (h : Tiles stop [] offset cs ts) :
    tokensFrom offset cs = .ok ts := by
  rw [h.tokensFrom_eq, tokensFrom]
  simp [Except.map]

theorem Tiles.tokensFrom_eq_error {start : Nat} {more : List Char}
    (h : Tiles start ('\'' :: more) offset cs ts) (hmalformed : Quote.Malformed start more e) :
    tokensFrom offset cs = .error e := by
  rw [h.tokensFrom_eq, tokensFrom_error (by decide) hmalformed.read_eq]
  rfl

theorem tokensFrom_eq_ok_iff :
    tokensFrom offset cs = .ok ts ↔ ∃ stop, Tiles stop [] offset cs ts := by
  constructor
  · intro h
    obtain ⟨stop, rest, ts', htiles, rfl | ⟨more, e, rfl, hmalformed⟩⟩ := exists_tiles offset cs
    · rw [htiles.tokensFrom_eq_ok] at h
      exact ⟨stop, Except.ok.inj h ▸ htiles⟩
    · rw [htiles.tokensFrom_eq_error hmalformed] at h
      cases h
  · rintro ⟨stop, htiles⟩
    exact htiles.tokensFrom_eq_ok

theorem tokensFrom_eq_error_iff :
    tokensFrom offset cs = .error e ↔ ∃ start more ts,
      Tiles start ('\'' :: more) offset cs ts ∧ Quote.Malformed start more e := by
  constructor
  · intro h
    obtain ⟨stop, rest, ts', htiles, rfl | ⟨more, e', rfl, hmalformed⟩⟩ := exists_tiles offset cs
    · rw [htiles.tokensFrom_eq_ok] at h
      cases h
    · rw [htiles.tokensFrom_eq_error hmalformed] at h
      exact ⟨stop, more, ts', htiles, Except.error.inj h ▸ hmalformed⟩
  · rintro ⟨start, more, ts, htiles, hmalformed⟩
    exact htiles.tokensFrom_eq_error hmalformed

end Results

def textFrom (source : String) (offset : Nat) : String :=
  (Span.mk offset source.utf8ByteSize).text source

/-- Whether tokens tile a source: their spans are not empty, are spans of the source, stand one
behind the other and leave out bytes of blanks only, and their texts have the shapes of their
kinds. -/
structure TokensTile (source : String) (ts : List Token) : Prop where
  fits : ∀ t ∈ ts, t.span.Fits source
  nonempty : ∀ t ∈ ts, t.span.start < t.span.stop
  ordered : ts.Pairwise fun t u => t.span.stop ≤ u.span.start
  blank : ∀ (i : Nat) (h : i < source.toUTF8.size),
    (∀ t ∈ ts, ¬ (t.span.start ≤ i ∧ i < t.span.stop)) → source.toUTF8[i] ∈ blankBytes
  shape : ∀ t ∈ ts, Shape t.kind (t.text source).toList (textFrom source t.span.stop).toList

theorem Shape.ne_nil {kind : TokenKind} {text rest : List Char} (h : Shape kind text rest) :
    text ≠ [] := by
  cases h with
  | number hne | identifier hne => exact hne
  | _ => simp

theorem Tiles.tokensTile {source : String} {ts : List Token} {stop : Nat}
    (h : Tiles stop [] 0 source.toList ts) : TokensTile source ts := by
  have hspan {t : Token} (ht : t ∈ ts) := h.exists_shape ht
  refine ⟨?fits, ?nonempty, h.pairwise, ?blank, ?shape⟩
  case fits =>
    intro t ht
    obtain ⟨before, text, after, hsource, -, hspan⟩ := hspan ht
    rw [hspan, Nat.zero_add]
    exact Span.fits_of_append hsource
  case nonempty =>
    intro t ht
    obtain ⟨before, text, after, -, hshape, hspan⟩ := hspan ht
    have hpos : utf8Len text ≠ 0 := mt String.utf8Len_eq_zero.1 hshape.ne_nil
    rw [hspan]
    dsimp only
    omega
  case blank =>
    intro i hi hout
    obtain ⟨front, hfront, hstop⟩ := h.exists_append
    rw [List.append_nil] at hfront
    have hsize : source.toUTF8.size = stop := by
      rw [hstop, ← hfront, Nat.zero_add, String.utf8Len_toList]
      rfl
    have hlt : 0 + i < stop := by omega
    refine h.blank_of_getElem? hlt ?_ (by simpa using hout)
    rw [← toUTF8_eq, Array.getElem?_toList]
    exact Array.getElem?_eq_getElem hi
  case shape =>
    intro t ht
    obtain ⟨before, text, after, hsource, hshape, hspan⟩ := hspan ht
    have hall : source.toList = before ++ text ++ after ++ [] := by rw [hsource, List.append_nil]
    have hsize : source.utf8ByteSize = utf8Len (before ++ text) + utf8Len after := by
      rw [← String.utf8Len_toList, hsource, String.utf8Len_append]
    rw [textFrom, Token.text, hspan, Nat.zero_add, Span.text_of_append hsource, hsize,
      ← String.utf8Len_append, Span.text_of_append hall, String.toList_ofList, String.toList_ofList]
    exact hshape

theorem tokensTile_of_tokenize {source : String} {ts : List Token} (h : tokenize source = .ok ts) :
    TokensTile source ts := by
  obtain ⟨stop, htiles⟩ := tokensFrom_eq_ok_iff.1 h
  exact htiles.tokensTile

/-- A text that has the shape of a kind is one token of that kind by itself. -/
theorem Shape.tokenize_eq {kind : TokenKind} {text : String} (h : Shape kind text.toList []) :
    tokenize text = .ok [⟨kind, ⟨0, text.utf8ByteSize⟩⟩] := by
  have htiles : Tiles (0 + utf8Len text.toList) [] 0 (text.toList ++ [])
      [⟨kind, ⟨0, 0 + utf8Len text.toList⟩⟩] := .token h .nil
  rw [List.append_nil, Nat.zero_add, String.utf8Len_toList] at htiles
  exact htiles.tokensFrom_eq_ok

/-- What comes of scanning a source. It gives tokens exactly where the source is tiled, which are
those that tile it. It is refused exactly where the source is tiled up to a quote mark behind which
the literal is malformed, in the way it is malformed. Scanning the bytes of the source never starts
to look for a character within one, and comes to the same. -/
structure Scanned (source : String) : Prop where
  ok_iff : ∀ ts, tokenize source = .ok ts ↔ ∃ stop, Tiles stop [] 0 source.toList ts
  tokens : ∀ ts, tokenize source = .ok ts → TokensTile source ts
  error_iff : ∀ e, tokenize source = .error e ↔ ∃ start more ts,
    Tiles start ('\'' :: more) 0 source.toList ts ∧ Quote.Malformed start more e
  refused : ∀ e, tokenize source = .error e → e.span.Fits source
  bytes : ∀ r, ByteScan.Walks 0 source.toUTF8.data.toList r ↔ r = tokenize source

theorem scanned (source : String) : Scanned source := by
  refine ⟨fun ts => tokensFrom_eq_ok_iff, fun ts h => ?_, fun e => tokensFrom_eq_error_iff,
    fun e h => ?_, ByteScan.walks_iff source⟩
  · obtain ⟨stop, htiles⟩ := tokensFrom_eq_ok_iff.1 h
    exact htiles.tokensTile
  · obtain ⟨start, more, ts, htiles, hmalformed⟩ := tokensFrom_eq_error_iff.1 h
    obtain ⟨front, hfront, rfl⟩ := htiles.exists_append
    obtain ⟨before, text, after, hmore, hspan⟩ := hmalformed.exists_span
    have hsource : source.toList = (front ++ before) ++ text ++ after := by
      rw [hfront, hmore]
      simp
    rw [hspan, Nat.zero_add, ← String.utf8Len_append]
    exact Span.fits_of_append hsource

end LexicalPatterns
