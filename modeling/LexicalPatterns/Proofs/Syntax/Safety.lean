import LexicalPatterns.Proofs.Syntax.Checked
import LexicalPatterns.Proofs.Syntax.Placement
import LexicalPatterns.Proofs.Syntax.Soundness

/-!
# Reading is safe

No check of the checked readers ever fails, so they come to what the readers come to that check
nothing. The offsets that a reader makes a span of are ends of tokens of the source, which stand one
behind the other, and it makes no other spans for a refusal.
-/

namespace LexicalPatterns

/-- Whether a checked computation fails no check and comes to `r`, which only refuses with errors of
a kind. -/
structure Safe {ε α : Type} (P : ε → Prop) (x : Checked ε α) (r : Except ε α) : Prop where
  run_eq : x.run = some r
  refused : ∀ e, r = .error e → P e

namespace Safe

variable {ε α β : Type} {P : ε → Prop} {x : Checked ε α} {r : Except ε α}
  {k : α → Checked ε β} {k' : α → Except ε β}

theorem pure (a : α) : Safe P (Pure.pure a) (.ok a) := ⟨rfl, nofun⟩

theorem throw {e : ε} (h : P e) : Safe (α := α) P (MonadExcept.throw e) (.error e) := by
  refine ⟨rfl, ?_⟩
  rintro _ ⟨⟩
  exact h

theorem plain (h : ∀ e, r = .error e → P e) : Safe P (Checked.plain r) r := ⟨rfl, h⟩

theorem bind (hx : Safe P x r) (hk : ∀ a, r = .ok a → Safe P (k a) (k' a)) :
    Safe P (x >>= k) (r >>= k') := by
  cases r with
  | error e =>
    refine ⟨?_, ?_⟩
    · rw [ExceptT.run_bind, hx.run_eq]
      rfl
    · rintro _ ⟨⟩
      exact hx.refused e rfl
  | ok a =>
    refine ⟨?_, (hk a rfl).refused⟩
    rw [ExceptT.run_bind, hx.run_eq]
    exact (hk a rfl).run_eq

theorem map (hx : Safe P x r) (f : α → β) :
    Safe P (do let a ← x; return f a) (r.map f) := by
  have hr : r.map f = r >>= fun a => .ok (f a) := by cases r <;> rfl
  rw [hr]
  exact hx.bind fun a _ => .pure (f a)

theorem adapt {ε' : Type} {Q : ε' → Prop} {f : ε → ε'} (hx : Safe P x r)
    (hf : ∀ e, P e → Q (f e)) : Safe Q (ExceptT.adapt f x) (r.mapError f) := by
  constructor
  · have hrun : (ExceptT.adapt f x).run = x.run.map fun r => r.mapError f := rfl
    rw [hrun, hx.run_eq]
    rfl
  · intro e he
    cases r with
    | error e' => exact Except.error.inj he ▸ hf e' (hx.refused e' rfl)
    | ok a => cases he

theorem lift_bind {o : Option α} {a : α} {r : Except ε β} (ho : o = some a) (hk : Safe P (k a) r) :
    Safe P (ExceptT.lift o >>= k) r := by
  subst ho
  exact ⟨hk.run_eq, hk.refused⟩

theorem span {start stop : Nat} {k : Span → Checked ε β} {r : Except ε β} (hle : start ≤ stop)
    (hk : Safe P (k ⟨start, stop⟩) r) : Safe P (Checked.span start stop >>= k) r :=
  lift_bind (Span.new?_eq hle) hk

theorem text {source : String} {s : Span} {k : String → Checked ε β} {r : Except ε β}
    (hs : s.Fits source) (hk : Safe P (k (s.text source)) r) :
    Safe P (Checked.text source s >>= k) r :=
  lift_bind (Span.text?_eq hs) hk

end Safe

/-- Whether tokens are tokens of a source, one behind the other. -/
structure Within (source : String) (ts : List Token) : Prop where
  fits : ∀ t ∈ ts, t.span.Fits source
  inLine : InLine ts

theorem TokensTile.within {source : String} {ts : List Token} (h : TokensTile source ts) :
    Within source ts :=
  ⟨h.fits, ⟨h.nonempty, h.ordered⟩⟩

/-- Whether a refusal points at characters of the source, or at its end where more is expected. -/
structure ParseError.Points (source : String) (e : ParseError) : Prop where
  fits : e.span.Fits source
  nonempty : e.span.start < e.span.stop ∨
    ∃ expected, e = .unexpectedEnd expected (.empty source.utf8ByteSize)

/-- Whether there are tokens between two places, the second of which is behind the last of them. -/
def Cursor.Passes (c next : Cursor) : Prop :=
  ∃ xs, xs ≠ [] ∧ c.rest = xs ++ next.rest ∧ next.stop = (Token.cover xs).stop

section Places

variable {source : String} {c c' next : Cursor} {xs ys ts : List Token} {t : Token}

theorem Within.right (h : Within source (xs ++ ys)) : Within source ys :=
  ⟨fun t ht => h.fits t (List.mem_append_right xs ht), h.inLine.right⟩

theorem Within.tail (h : Within source (t :: ts)) : Within source ts := by
  have hsplit : Within source ([t] ++ ts) := h
  exact hsplit.right

theorem Within.head (h : Within source (t :: ts)) :
    t.span.Fits source ∧ t.span.start < t.span.stop :=
  ⟨h.fits t List.mem_cons_self, h.inLine.nonempty t List.mem_cons_self⟩

namespace Cursor.Passes

theorem within (h : c.Passes next) (hc : Within source c.rest) : Within source next.rest := by
  obtain ⟨xs, -, hrest, -⟩ := h
  rw [hrest] at hc
  exact hc.right

theorem shorter (h : c.Passes next) : next.rest.length < c.rest.length := by
  obtain ⟨xs, hne, hrest, -⟩ := h
  have hpos := List.length_pos_iff.2 hne
  rw [hrest, List.length_append]
  omega

theorem start_le (h : c.Passes next) (hc : Within source c.rest) :
    c.start source ≤ next.stop := by
  obtain ⟨xs, hne, hrest, hstop⟩ := h
  rw [hrest] at hc
  rw [Parse.start_of_rest hne hrest, hstop]
  exact Nat.le_of_lt (hc.inLine.left.cover_nonempty hne)

theorem trans (h : c.Passes c') (h' : c'.Passes next) : c.Passes next := by
  obtain ⟨xs, hxs, hrest, -⟩ := h
  obtain ⟨ys, hys, hrest', hstop⟩ := h'
  refine ⟨xs ++ ys, List.append_ne_nil_of_left_ne_nil hxs ys, ?_, ?_⟩
  · rw [hrest, hrest', List.append_assoc]
  · rw [hstop, Token.cover_append hxs hys]

theorem after (hc : c.rest = t :: ts) : c.Passes (.after t ts) :=
  ⟨[t], List.cons_ne_nil t [], hc, rfl⟩

end Cursor.Passes

theorem Reads.passes {p : Phrase} (h : Reads source p c next) : c.Passes next := by
  obtain ⟨xs, hrest, hderives, hstop⟩ := h
  exact ⟨xs, hderives.ne_nil, hrest, hstop⟩

theorem Adds.passes {grouped : Bool} {b b' : Builder} (h : Adds source grouped b b' c next) :
    c.Passes next := by
  obtain ⟨xs, bs, hrest, hderives, hstop, -⟩ := h
  exact ⟨xs, hderives.ne_nil, hrest, hstop⟩

theorem fits_end (source : String) : (Span.empty source.utf8ByteSize).Fits source := by
  have hvalid : String.Pos.Raw.IsValid source ⟨source.utf8ByteSize⟩ :=
    String.Pos.Raw.isValid_rawEndPos
  exact ⟨Nat.le_refl _, Nat.le_refl _, hvalid, hvalid⟩

theorem Span.Fits.through {s s' : Span} (h : s.Fits source) (h' : s'.Fits source)
    (hle : s.start ≤ s'.stop) : Span.Fits ⟨s.start, s'.stop⟩ source :=
  ⟨hle, h'.stop_le, h.start, h'.stop⟩

theorem points_unexpected (hc : Within source c.rest) (expected : Expected) :
    (c.unexpected source expected).error.Points source := by
  obtain ⟨rest, stop⟩ := c
  cases rest with
  | nil => exact ⟨fits_end source, .inr ⟨expected, rfl⟩⟩
  | cons t ts => exact ⟨hc.head.1, .inl hc.head.2⟩

end Places

namespace Checked

variable {source : String} {c c₀ next : Cursor} {b b' : Builder}

/-- Whether a checked parser is safe and only refuses with errors that point at the source. -/
abbrev SafeAt {α : Type} (source : String) (x : Checked ParseFailure α)
    (r : Except ParseFailure α) : Prop :=
  Safe (fun f => f.error.Points source) x r

theorem safe_token (hc : Within source c.rest) (kind : TokenKind) (expected : Expected) :
    SafeAt source (plain (Parse.readToken source kind expected c))
      (Parse.readToken source kind expected c) := by
  apply Safe.plain
  intro e he
  rw [Parse.readToken_eq] at he
  have hpoints := points_unexpected hc expected
  split at he
  · exact Except.error.inj he ▸ hpoints
  · split at he
    · cases he
    · exact Except.error.inj he ▸ hpoints

theorem passes_of_readToken {kind : TokenKind} {expected : Expected} {t : Token}
    (h : Parse.readToken source kind expected c = .ok (t, next)) : c.Passes next := by
  obtain ⟨-, hrest, hstop⟩ := Parse.readToken_eq_ok.1 h
  exact ⟨[t], List.cons_ne_nil t [], hrest, hstop⟩

theorem passes_of_readNumber {n : Nat} (h : Parse.readNumber source c = .ok (n, next)) :
    c.Passes next := by
  obtain ⟨t, -, hrest, hstop⟩ := Parse.readNumber_eq_ok.1 h
  exact ⟨[t], List.cons_ne_nil t [], hrest, hstop⟩

theorem safe_number (hc : Within source c.rest) :
    SafeAt source (number source c) (Parse.readNumber source c) := by
  rw [Parse.readNumber_eq]
  apply (safe_token hc _ _).bind
  rintro ⟨t, next⟩ htoken
  obtain ⟨-, hrest, -⟩ := Parse.readToken_eq_ok.1 htoken
  rw [hrest] at hc
  apply Safe.text hc.head.1
  by_cases hlt : Parse.decimal (t.text source).toList < UInt32.size
  · have hlt' : Parse.decimal (t.span.text source).toList < UInt32.size := hlt
    simp only [hlt, hlt', if_true]
    exact .pure _
  · have hlt' : ¬ Parse.decimal (t.span.text source).toList < UInt32.size := hlt
    simp only [hlt, hlt', if_false]
    exact .throw ⟨hc.head.1, .inl hc.head.2⟩

theorem safe_bounds (hc : Within source c.rest) :
    SafeAt source (bounds source c) (Parse.readBounds source c) := by
  rw [Parse.readBounds_eq]
  apply (safe_number hc).bind
  rintro ⟨min, next⟩ hmin
  have hnext := (passes_of_readNumber hmin).within hc
  obtain ⟨rest, stop⟩ := next
  cases rest with
  | nil => exact .throw (points_unexpected hnext _)
  | cons t ts =>
    have hafter : Within source (Cursor.after t ts).rest := hnext.tail
    dsimp only
    split
    · split
      · apply (safe_number hafter).bind
        rintro ⟨max, next⟩ hmax
        have hnext := (passes_of_readNumber hmax).within hafter
        exact (safe_token hnext _ _).bind fun _ _ => .pure _
      · exact (safe_token hafter _ _).bind fun _ _ => .pure _
    · exact (safe_token hnext _ _).bind fun _ _ => .pure _

/-- The repetition that comes next, if one does, as it is read without checks. -/
def readRepetition? (source : String) (c : Cursor) :
    Except ParseFailure (Option (NodeKind × Cursor)) :=
  match c.rest with
  | [] => .ok none
  | t :: ts =>
    match t.kind with
    | .mark .question => .ok (some (.between 0 1, .after t ts))
    | .mark .star => .ok (some (.atLeast 0, .after t ts))
    | .mark .plus => .ok (some (.atLeast 1, .after t ts))
    | .mark .openBrace => do
      let r ← Parse.readBounds source (.after t ts)
      return some r
    | _ => .ok none

theorem readRepetitions_eq (first start : Nat) (b : Builder) (c : Cursor) :
    Parse.readRepetitions source first start b c = (do
      match ← readRepetition? source c with
      | none => return (b, c)
      | some (kind, next) =>
        let s : Span := ⟨start, next.stop⟩
        Parse.readRepetitions source first start (b.wrap first 1 kind s) next) := by
  rw [Parse.readRepetitions_eq]
  obtain ⟨rest, stop⟩ := c
  cases rest with
  | nil => rfl
  | cons t ts =>
    obtain ⟨kind, span⟩ := t
    cases kind with
    | mark m =>
      cases m with
      | openBrace =>
        unfold readRepetition?
        dsimp only
        cases Parse.readBounds source (.after ⟨.mark .openBrace, span⟩ ts) <;> rfl
      | _ => rfl
    | _ => rfl

theorem passes_of_readRepetition? {kind : NodeKind}
    (h : readRepetition? source c = .ok (some (kind, next))) : c.Passes next := by
  obtain ⟨rest, stop⟩ := c
  cases rest with
  | nil => cases h
  | cons t ts =>
    obtain ⟨first, span⟩ := t
    cases first with
    | mark m =>
      cases m with
      | question | star | plus =>
        cases h
        exact .after rfl
      | openBrace =>
        obtain ⟨r, hbounds, hr⟩ := bind_eq_ok.1 h
        obtain rfl := Option.some.inj (Except.ok.inj hr)
        have hopen : (Token.mk (.mark .openBrace) span).kind = .mark .openBrace := rfl
        obtain ⟨xs, hxs, -, hstop⟩ := Parse.repetition_of_readBounds hopen hbounds
        have hrest : ts = xs ++ next.rest := hxs
        exact ⟨⟨.mark .openBrace, span⟩ :: xs, List.cons_ne_nil _ xs, congrArg _ hrest, hstop⟩
      | _ => cases h
    | _ => cases h

theorem safe_repetition? (hc : Within source c.rest) :
    SafeAt source (repetition? source c) (readRepetition? source c) := by
  obtain ⟨rest, stop⟩ := c
  cases rest with
  | nil => exact .pure _
  | cons t ts =>
    obtain ⟨kind, span⟩ := t
    cases kind with
    | mark m =>
      cases m with
      | openBrace =>
        have hafter : Within source (Cursor.after ⟨.mark .openBrace, span⟩ ts).rest := hc.tail
        exact (safe_bounds hafter).bind fun _ _ => .pure _
      | _ => exact .pure _
    | _ => exact .pure _

theorem safe_repetitions (hc₀ : Within source c₀.rest) (hpass : c₀.Passes c) (first : Nat)
    (b : Builder) : SafeAt source (repetitions source first (c₀.start source) b c)
      (Parse.readRepetitions source first (c₀.start source) b c) := by
  induction hn : c.rest.length using Nat.strongRecOn generalizing b c with
  | ind n ih =>
    subst hn
    rw [repetitions, readRepetitions_eq]
    apply (safe_repetition? (hpass.within hc₀)).bind
    intro r hr
    cases r with
    | none => exact .pure _
    | some r =>
      obtain ⟨kind, next⟩ := r
      have hone := passes_of_readRepetition? hr
      have hall := hpass.trans hone
      apply Safe.span (hall.start_le hc₀)
      simp only [hone.shorter, if_true]
      exact ih _ hone.shorter hall _ rfl

theorem safe_literal {low : Token} {rest : List Token} (hc : Within source (low :: rest)) :
    SafeAt source (literal source low rest) (Parse.readLiteral source low rest) := by
  rw [Parse.readLiteral_eq]
  apply Safe.text hc.head.1
  match rest with
  | [] => exact .pure _
  | [_] => exact .pure _
  | a :: b :: more =>
    dsimp only
    split
    · have hmore : Within source (Cursor.after b more).rest := hc.tail.tail.tail
      apply (safe_token hmore _ _).bind
      rintro ⟨high, next⟩ hhigh
      obtain ⟨-, hrest, -⟩ := Parse.readToken_eq_ok.1 hhigh
      have hrest : more = high :: next.rest := hrest
      subst hrest
      have hbefore := (List.pairwise_cons.1 hc.inLine.ordered).1 high (by simp)
      have hlow := hc.head.2
      have hhigh := hmore.head.2
      refine Safe.text hmore.head.1 (Safe.span (by omega) ?_)
      have hpoints : (ParseError.invalidRange (low.span.join high.span)).Points source := by
        have hjoin : low.span.join high.span = ⟨low.span.start, high.span.stop⟩ := by
          simp only [Span.join, Span.mk.injEq]
          omega
        rw [hjoin]
        refine ⟨hc.head.1.through hmore.head.1 (by omega), .inl ?_⟩
        simp only [ParseError.span]
        omega
      dsimp only [Token.text]
      rcases Quote.bytes (low.span.text source) with _ | ⟨l, _ | ⟨l', ls⟩⟩
      · exact .throw hpoints
      · rcases Quote.bytes (high.span.text source) with _ | ⟨h, _ | ⟨h', hs⟩⟩
        · exact .throw hpoints
        · exact .pure _
        · exact .throw hpoints
      · exact .throw hpoints
    · exact .pure _

/-- Whether the checked parser of alternations is safe where fewer than `n` tokens are left. -/
def SafeBelow (source : String) (n : Nat) : Prop :=
  ∀ (grouped : Bool) (b : Builder) (c : Cursor), c.rest.length < n → b.Open →
    Within source c.rest →
      SafeAt source (alternation source grouped b c) (Parse.readAlternation source grouped b c)

theorem SafeBelow.mono {m n : Nat} (h : SafeBelow source n) (hmn : m ≤ n) : SafeBelow source m :=
  fun grouped b c hlt => h grouped b c (Nat.lt_of_lt_of_le hlt hmn)

theorem safe_unit (hb : b.Open) (hc : Within source c.rest)
    (ih : SafeBelow source c.rest.length) :
    SafeAt source (unit source b c) (Parse.readUnit source b c) := by
  rw [unit, Parse.readUnit_eq]
  have hunexpected := points_unexpected hc .pattern
  obtain ⟨rest, stop⟩ := c
  cases rest with
  | nil => exact .throw hunexpected
  | cons t ts =>
    have hafter : Within source (Cursor.after t ts).rest := hc.tail
    have hopening := hc.head
    obtain ⟨kind, span⟩ := t
    cases kind with
    | mark m =>
      cases m with
      | dot => exact .pure _
      | openBracket =>
        apply (ih true b _ (Nat.lt_succ_self _) hb hafter).bind
        rintro ⟨built, next⟩ hbuilt
        have hnext := (Parse.adds_of_readAlternation hb hbuilt).passes.within hafter
        obtain ⟨rest, stop⟩ := next
        cases rest with
        | nil =>
          have hstop := hopening.1.stop_le
          have hlt : span.start < source.utf8ByteSize := Nat.lt_of_lt_of_le hopening.2 hstop
          have hle := Nat.le_of_lt hlt
          exact Safe.span hle (.throw ⟨hopening.1.through (fits_end source) hle, .inl hlt⟩)
        | cons close more =>
          dsimp only
          split
          · exact .pure _
          · exact .throw (points_unexpected hnext _)
      | _ => exact .throw hunexpected
    | quote => exact (safe_literal hc).bind fun _ _ => .pure _
    | identifier => exact .pure _
    | _ => exact .throw hunexpected

theorem safe_item (hb : b.Open) (hc : Within source c.rest)
    (ih : SafeBelow source c.rest.length) :
    SafeAt source (item source b c) (Parse.readItem source b c) := by
  rw [item, Parse.readItem_eq]
  apply (safe_unit hb hc ih).bind
  rintro ⟨built, next⟩ hunit
  obtain ⟨t, hreads, -⟩ := Parse.reads_of_readUnit hb (Parse.addsBelow source _) hunit
  exact safe_repetitions hc hreads.passes _ _

theorem safe_sequence (hb : b.Open) (hc : Within source c.rest)
    (ih : SafeBelow source c.rest.length) :
    SafeAt source (sequence source b c) (Parse.readSequence source b c) := by
  induction hn : c.rest.length using Nat.strongRecOn generalizing b c with
  | ind n ihn =>
    subst hn
    rw [sequence, Parse.readSequence_eq]
    split
    · apply (safe_item hb hc ih).bind
      rintro ⟨built, next⟩ hitem
      obtain ⟨t, hreads, rfl⟩ := Parse.reads_of_readItem hb (Parse.addsBelow source _) hitem
      have hpass := hreads.passes
      dsimp only
      split
      · simp only [hpass.shorter, if_true]
        have hmore := ihn _ hpass.shorter (hb.extend [t]) (hpass.within hc)
          (ih.mono (Nat.le_of_lt hpass.shorter)) rfl
        exact hmore.bind fun _ _ => .pure _
      · exact .pure _
    · exact .throw (points_unexpected hc _)

theorem safe_branches (hb : b.Open) (hc : Within source c.rest)
    (ih : SafeBelow source c.rest.length) :
    SafeAt source (branches source b c) (Parse.readBranches source b c) := by
  induction hn : c.rest.length using Nat.strongRecOn generalizing b c with
  | ind n ihn =>
    subst hn
    rw [branches, Parse.readBranches_eq]
    apply (safe_sequence hb hc ih).bind
    rintro ⟨⟨count, built⟩, next⟩ hsequence
    obtain ⟨ts, hreads, -, rfl⟩ :=
      Parse.reads_of_readSequence hb (Parse.addsBelow source _) hsequence
    have hpass := hreads.passes
    apply Safe.span (hpass.start_le hc)
    obtain ⟨rest, stop⟩ := next
    cases rest with
    | nil => exact .pure _
    | cons t rest =>
      have hmore : c.Passes (.after t rest) := hpass.trans (.after rfl)
      have hshorter : rest.length < c.rest.length := hmore.shorter
      dsimp only
      split
      · have hrest := ihn _ hshorter (hb.extend ts) (hmore.within hc)
          (ih.mono (Nat.le_of_lt hshorter)) rfl
        exact hrest.bind fun _ _ => .pure _
      · exact .pure _

theorem safe_alternation_of_below (hb : b.Open) (hc : Within source c.rest)
    (ih : SafeBelow source c.rest.length) (grouped : Bool) :
    SafeAt source (alternation source grouped b c) (Parse.readAlternation source grouped b c) := by
  rw [alternation, Parse.readAlternation_eq]
  apply (safe_branches hb hc ih).bind
  rintro ⟨⟨bs, built⟩, next⟩ hbranches
  obtain ⟨_, hreads, -, -⟩ :=
    Parse.reads_of_readBranches hb (Parse.addsBelow source _) hbranches
  exact Safe.span (hreads.passes.start_le hc) (.pure _)

theorem safeBelow (source : String) (n : Nat) : SafeBelow source n := by
  induction n with
  | zero => exact fun _ _ _ hlt => absurd hlt (Nat.not_lt_zero _)
  | succ n ih =>
    intro grouped b c hlt hb hc
    exact safe_alternation_of_below hb hc (ih.mono (Nat.le_of_lt_succ hlt)) grouped

theorem safe_definition (b : Builder) (hc : Within source c.rest) :
    SafeAt source (definition source b c) (Parse.readDefinition source b c) := by
  rw [Parse.readDefinition_eq]
  apply (safe_token hc _ _).bind
  rintro ⟨name, next⟩ hname
  have hafter := passes_of_readToken hname
  apply (safe_token (hafter.within hc) _ _).bind
  rintro ⟨equal, body⟩ hequal
  have hbody := passes_of_readToken hequal
  have hin := hbody.within (hafter.within hc)
  have hopen := (b.open_push .definition name.span).extend [.leaf .declaration name.span]
  apply (safeBelow source _ false _ _ (Nat.lt_succ_self _) hopen hin).bind
  rintro ⟨built, last⟩ hbuilt
  have hpass := (Parse.adds_of_readAlternation hopen hbuilt).passes
  have hall := hafter.trans (hbody.trans hpass)
  have hstart : c.start source = name.span.start := by
    obtain ⟨-, hrest, -⟩ := Parse.readToken_eq_ok.1 hname
    rw [Cursor.start, hrest]
  apply Safe.span (hstart ▸ hall.start_le hc)
  dsimp only
  split
  · exact .pure _
  · exact .throw (points_unexpected (hall.within hc) _)

theorem safe_definitions (hb : b.Open) (hc : Within source c.rest) :
    SafeAt source (definitions source b c) (Parse.definitions source b c) := by
  induction hn : c.rest.length using Nat.strongRecOn generalizing b c with
  | ind n ih =>
    subst hn
    rw [definitions, Parse.definitions_eq]
    split
    · exact .pure _
    · apply (safe_definition b hc).bind
      rintro ⟨built, next⟩ hdefinition
      obtain ⟨name, equal, xs, bs, hrest, -, -, -, rfl⟩ :=
        Parse.reads_of_readDefinition hb hdefinition
      have hshorter : next.rest.length < c.rest.length := by
        rw [hrest, List.length_append, List.length_cons]
        omega
      rw [hrest] at hc
      simp only [hshorter, if_true]
      exact ih _ hshorter (hb.extend _) hc.right rfl

/-! ### Sources -/

theorem safe_tokensFrom (offset : Nat) (cs : List Char) :
    Safe (fun _ => True) (tokensFrom offset cs) (LexicalPatterns.tokensFrom offset cs) := by
  fun_induction LexicalPatterns.tokensFrom offset cs with
  | case1 offset =>
    rw [tokensFrom]
    exact .pure []
  | case2 offset c cs hblank ih =>
    rw [tokensFrom, if_pos hblank]
    exact ih
  | case3 offset c cs hblank e hread =>
    rw [tokensFrom, if_neg hblank, hread]
    obtain ⟨-, hmalformed⟩ := Quote.malformed_of_read hread
    exact Safe.span (Nat.le_of_lt hmalformed.start_lt) (.throw trivial)
  | case4 offset c cs hblank l hread hlength ih =>
    rw [tokensFrom, if_neg hblank, hread]
    obtain ⟨text, -, hstop, -⟩ := (Lexeme.reads_of_read hread).shape (by simpa using hblank)
    apply Safe.span (by omega)
    simp only [hlength, if_true]
    exact ih.map _

end Checked

/-- Whether a refusal of a source points at characters of it, or at its end where more is
expected. -/
structure PatternError.Points (source : String) (e : PatternError) : Prop where
  fits : e.span.Fits source
  nonempty : e.span.start < e.span.stop ∨
    ∃ expected, e = .parse (.unexpectedEnd expected (.empty source.utf8ByteSize))

theorem ParseError.Points.parse {source : String} {e : ParseError} (h : e.Points source) :
    (PatternError.parse e).Points source := by
  refine ⟨h.fits, h.nonempty.imp_right ?_⟩
  rintro ⟨expected, rfl⟩
  exact ⟨expected, rfl⟩

theorem points_of_tokenize {source : String} {e : ScanError} (h : tokenize source = .error e) :
    (PatternError.scan e).Points source := by
  obtain ⟨start, more, ts, htiles, hmalformed⟩ := tokensFrom_eq_error_iff.1 h
  obtain ⟨front, hfront, rfl⟩ := htiles.exists_append
  obtain ⟨before, text, after, hmore, hspan⟩ := hmalformed.exists_span
  have hsource : source.toList = (front ++ before) ++ text ++ after := by
    rw [hfront, hmore]
    simp
  have hfits : e.span.Fits source := by
    rw [hspan, Nat.zero_add, ← String.utf8Len_append]
    exact Span.fits_of_append hsource
  exact ⟨hfits, .inl hmalformed.start_lt⟩

/-- Reading a source fails no check, and refuses it only at its characters or its end. -/
theorem Checked.safe_read (source : String) :
    Safe (PatternError.Points source) (read source) (Batch.definitions source) := by
  have hscan : Safe (PatternError.Points source) ((tokensFrom 0 source.toList).adapt .scan)
      ((tokenize source).mapError .scan) := by
    refine ⟨?_, ?_⟩
    · exact ((safe_tokensFrom 0 source.toList).adapt (Q := fun _ => True) fun _ _ => trivial).run_eq
    · intro e he
      rcases htokens : tokenize source with e' | tokens <;> rw [htokens] at he
      · exact Except.error.inj he ▸ points_of_tokenize htokens
      · cases he
  apply hscan.bind
  intro tokens htokens
  have hwithin := (tokensTile_of_tokenize (mapError_eq_ok.1 htokens)).within
  have hparse := (safe_definitions Builder.open_empty (c := ⟨tokens, 0⟩) hwithin).adapt
    (Q := PatternError.Points source) fun _ he => he.parse
  have hforest : (Forest.ofTokens? source tokens).mapError (fun f => PatternError.parse f.error) >>=
      (fun forest => Pure.pure forest.split) =
        (Parse.definitions source .empty ⟨tokens, 0⟩).mapError (fun f => .parse f.error) >>=
          fun built => Pure.pure built.finish.split := by
    unfold Forest.ofTokens?
    cases Parse.definitions source .empty ⟨tokens, 0⟩ <;> rfl
  rw [hforest]
  exact hparse.bind fun _ _ => .pure _

end LexicalPatterns
