import LexicalPatterns.Proofs.Syntax.Building
import LexicalPatterns.Proofs.Syntax.Readers

/-!
# Parsers read derivations

What a parser adds to the builder are the trees of a phrase that is derived, from the tokens up to
the place where it stops. A group is read by the parser of alternations from fewer tokens, so the
parsers of units, items, sequences and alternations are sound one after the other, by induction on
the number of tokens.
-/

namespace LexicalPatterns

/-- Whether a phrase is derived from the tokens between two places. -/
def Reads (source : String) (p : Phrase) (c next : Cursor) : Prop :=
  ∃ xs, c.rest = xs ++ next.rest ∧ Derives source p xs next.rest ∧
    next.stop = (Token.cover xs).stop

/-- Whether an alternation is derived from the tokens between two places, and `b'` is `b` with the
trees that it stands for. -/
def Adds (source : String) (grouped : Bool) (b b' : Builder) (c next : Cursor) : Prop :=
  ∃ xs bs, c.rest = xs ++ next.rest ∧ Derives source (.alternation bs) xs next.rest ∧
    next.stop = (Token.cover xs).stop ∧
    b' = b.extend (if grouped then [Branch.bracket bs (Token.cover xs)]
      else Branch.splice bs (Token.cover xs))

def AddsBelow (source : String) (n : Nat) : Prop :=
  ∀ (c next : Cursor) (b b' : Builder), c.rest.length < n → b.Open →
    Parse.readAlternation source true b c = .ok (b', next) → Adds source true b b' c next

theorem AddsBelow.mono {source : String} {m n : Nat} (h : AddsBelow source n) (hmn : m ≤ n) :
    AddsBelow source m :=
  fun c next b b' hlt => h c next b b' (Nat.lt_of_lt_of_le hlt hmn)

namespace Parse

variable {source : String} {c next : Cursor} {b b' : Builder}

theorem readToken_eq_ok {kind : TokenKind} {expected : Expected} {t : Token} :
    readToken source kind expected c = .ok (t, next) ↔
      t.kind = kind ∧ c.rest = t :: next.rest ∧ next.stop = t.span.stop := by
  obtain ⟨rest, stop⟩ := next
  rw [readToken_eq]
  cases hrest : c.rest with
  | nil => simp
  | cons s ss =>
    dsimp only
    split
    · next hkind =>
      simp only [Except.ok.injEq, Prod.mk.injEq, Cursor.after, Cursor.mk.injEq, List.cons.injEq]
      constructor
      · rintro ⟨rfl, rfl, rfl⟩
        exact ⟨hkind, ⟨rfl, rfl⟩, rfl⟩
      · rintro ⟨-, ⟨rfl, rfl⟩, rfl⟩
        exact ⟨rfl, rfl, rfl⟩
    · next hkind =>
      simp only [reduceCtorEq, List.cons.injEq, false_iff]
      rintro ⟨hkind', ⟨rfl, -⟩, -⟩
      exact hkind hkind'

theorem readNumber_eq_ok {n : Nat} :
    readNumber source c = .ok (n, next) ↔
      ∃ t, IsNumber source t n ∧ c.rest = t :: next.rest ∧ next.stop = t.span.stop := by
  rw [readNumber_eq, bind_eq_ok]
  constructor
  · rintro ⟨⟨t, next'⟩, htoken, h⟩
    obtain ⟨hkind, hrest, hstop⟩ := readToken_eq_ok.1 htoken
    dsimp only at h
    split at h
    · next hlt =>
      obtain ⟨rfl, rfl⟩ := Prod.mk.inj (Except.ok.inj h)
      exact ⟨t, ⟨hkind, rfl, hlt⟩, hrest, hstop⟩
    · cases h
  · rintro ⟨t, ⟨hkind, rfl, hlt⟩, hrest, hstop⟩
    refine ⟨(t, next), readToken_eq_ok.2 ⟨hkind, hrest, hstop⟩, ?_⟩
    exact if_pos hlt

theorem repetition_of_readBounds {opening : Token} (hopening : opening.kind = .mark .openBrace)
    {kind : NodeKind} (h : readBounds source c = .ok (kind, next)) :
    ∃ ys, c.rest = ys ++ next.rest ∧ Repetition source kind (opening :: ys) ∧
      next.stop = (Token.cover (opening :: ys)).stop := by
  rw [readBounds_eq, bind_eq_ok] at h
  obtain ⟨⟨min, afterMin⟩, hmin, h⟩ := h
  obtain ⟨low, hlow, hrest, -⟩ := readNumber_eq_ok.1 hmin
  dsimp only at h
  split at h
  · cases h
  · next t ts hts =>
    split at h
    · next hcomma =>
      split at h
      · obtain ⟨⟨max, afterMax⟩, hmax, h⟩ := bind_eq_ok.1 h
        obtain ⟨⟨closing, last⟩, hclosing, h⟩ := bind_eq_ok.1 h
        obtain ⟨rfl, rfl⟩ := Prod.mk.inj (Except.ok.inj h)
        obtain ⟨high, hhigh, hmore, -⟩ := readNumber_eq_ok.1 hmax
        obtain ⟨hkind, hlast, hstop⟩ := readToken_eq_ok.1 hclosing
        refine ⟨[low, t, high, closing], ?_, .between hopening hlow hcomma hhigh hkind, hstop⟩
        have hmore : ts = high :: afterMax.rest := hmore
        rw [hrest, hts, hmore, hlast]
        rfl
      · obtain ⟨⟨closing, last⟩, hclosing, h⟩ := bind_eq_ok.1 h
        obtain ⟨rfl, rfl⟩ := Prod.mk.inj (Except.ok.inj h)
        obtain ⟨hkind, hlast, hstop⟩ := readToken_eq_ok.1 hclosing
        refine ⟨[low, t, closing], ?_, .atLeast hopening hlow hcomma hkind, hstop⟩
        have hlast : ts = closing :: last.rest := hlast
        rw [hrest, hts, hlast]
        rfl
    · obtain ⟨⟨closing, last⟩, hclosing, h⟩ := bind_eq_ok.1 h
      obtain ⟨rfl, rfl⟩ := Prod.mk.inj (Except.ok.inj h)
      obtain ⟨hkind, hlast, hstop⟩ := readToken_eq_ok.1 hclosing
      refine ⟨[low, closing], ?_, .exactly hopening hlow hkind, hstop⟩
      rw [hrest, hlast]
      rfl

theorem start_of_rest {xs rest : List Token} (hne : xs ≠ []) (hrest : c.rest = xs ++ rest) :
    c.start source = (Token.cover xs).start := by
  obtain ⟨x, xs', rfl⟩ := List.exists_cons_of_ne_nil hne
  rw [Cursor.start, hrest]
  rfl

theorem reads_repeated {c₀ : Cursor} {kind : NodeKind} {t : Tree} {ys : List Token}
    (h : Reads source (.item t) c₀ c) (hys : c.rest = ys ++ next.rest)
    (hkind : Repetition source kind ys) (hstop : next.stop = (Token.cover ys).stop) :
    Reads source (.item (.node kind ⟨c₀.start source, next.stop⟩ [t])) c₀ next := by
  obtain ⟨xs, hrest, hderives, -⟩ := h
  have hcover := Token.cover_append hderives.ne_nil hkind.ne_nil
  have hstart : c₀.start source = (Token.cover xs).start := start_of_rest hderives.ne_nil hrest
  refine ⟨xs ++ ys, ?_, ?_, ?_⟩
  · rw [hrest, hys, List.append_assoc]
  · rw [hys] at hderives
    rw [hstart, hstop, ← hcover]
    exact hderives.repeated hkind
  · rw [hcover, hstop]

theorem reads_of_readRepetitions {c₀ : Cursor} {t : Tree} (hb : b.Open)
    (h : Reads source (.item t) c₀ c)
    (hr : readRepetitions source b.length (c₀.start source) (b.extend [t]) c = .ok (b', next)) :
    ∃ t', Reads source (.item t') c₀ next ∧ b' = b.extend [t'] := by
  induction hn : c.rest.length using Nat.strongRecOn generalizing c t with
  | ind n ih =>
    subst hn
    rw [readRepetitions_eq] at hr
    split at hr
    · obtain ⟨rfl, rfl⟩ := Prod.mk.inj (Except.ok.inj hr)
      exact ⟨t, h, rfl⟩
    · next x xs hxs =>
      have hshorter : xs.length < c.rest.length := by simp [hxs]
      have hone : c.rest = [x] ++ xs := hxs
      simp only [Builder.wrap_last hb] at hr
      split at hr
      · next hkind => exact ih _ hshorter (reads_repeated h hone (.question hkind) rfl) hr rfl
      · next hkind => exact ih _ hshorter (reads_repeated h hone (.star hkind) rfl) hr rfl
      · next hkind => exact ih _ hshorter (reads_repeated h hone (.plus hkind) rfl) hr rfl
      · next hkind =>
        obtain ⟨⟨kind, after⟩, hbounds, hr⟩ := bind_eq_ok.1 hr
        obtain ⟨ys, hys, hrepetition, hstop⟩ := repetition_of_readBounds hkind hbounds
        have hys : xs = ys ++ after.rest := hys
        have hall : c.rest = (x :: ys) ++ after.rest := by rw [hxs, hys, List.cons_append]
        refine ih _ ?_ (reads_repeated h hall hrepetition hstop) hr rfl
        rw [hall, List.length_append, List.length_cons]
        omega
      · obtain ⟨rfl, rfl⟩ := Prod.mk.inj (Except.ok.inj hr)
        exact ⟨t, h, rfl⟩

theorem reads_of_readLiteral {low : Token} {rest : List Token} {kind : NodeKind} {span : Span}
    (hkind : low.kind = .quote) (h : readLiteral source low rest = .ok ((kind, span), next))
    (hc : c.rest = low :: rest) : Reads source (.unit (.leaf kind span)) c next := by
  have hsingle (hdots : ¬ TouchingDots rest)
      (h : ((literalKind (Quote.bytes (low.text source)), low.span), Cursor.after low rest) =
        ((kind, span), next)) : Reads source (.unit (.leaf kind span)) c next := by
    obtain ⟨⟨rfl, rfl⟩, rfl⟩ : (_ ∧ _) ∧ _ := by simpa only [Prod.mk.injEq] using h
    refine ⟨[low], hc, ?_, rfl⟩
    unfold literalKind
    split
    · next b hb => exact .character hkind hdots hb
    · next bs hno =>
      refine .string hkind hdots rfl fun hlength => ?_
      obtain ⟨b, hb⟩ := List.length_eq_one_iff.1 hlength
      exact hno b hb
  rw [readLiteral_eq] at h
  split at h
  · next a b more =>
    split at h
    · next hdots =>
      obtain ⟨⟨high, next'⟩, hhigh, h⟩ := bind_eq_ok.1 h
      dsimp only at h
      split at h
      · next l h' hl hh =>
        obtain ⟨⟨rfl, rfl⟩, rfl⟩ : (_ ∧ _) ∧ _ := by
          simpa only [Prod.mk.injEq] using Except.ok.inj h
        obtain ⟨hquote, hmore, hstop⟩ := readToken_eq_ok.1 hhigh
        have hmore : more = high :: next'.rest := hmore
        obtain ⟨a', b', more', heq, ha, hb, htouch⟩ := atRangeDots_iff.1 hdots
        obtain ⟨rfl, rfl, rfl⟩ : a = a' ∧ b = b' ∧ more = more' := by simpa using heq
        refine ⟨[low, a, b, high], ?_, .range hkind ⟨a, b, [], rfl, ha, hb, htouch⟩ hquote hl hh,
          hstop⟩
        rw [hc, hmore]
        rfl
      · cases h
    · next hdots =>
      exact hsingle (fun htouch => hdots (atRangeDots_iff.2 htouch)) (Except.ok.inj h)
  · next hno =>
    refine hsingle ?_ (Except.ok.inj h)
    rintro ⟨a, b, more, rfl, -⟩
    exact hno a b more rfl

theorem reads_of_readUnit (hb : b.Open) (ih : AddsBelow source c.rest.length)
    (h : readUnit source b c = .ok (b', next)) :
    ∃ t, Reads source (.unit t) c next ∧ b' = b.extend [t] := by
  rw [readUnit_eq] at h
  split at h
  · cases h
  · next x xs hxs =>
    split at h
    · next hkind =>
      obtain ⟨rfl, rfl⟩ := Prod.mk.inj (Except.ok.inj h)
      exact ⟨_, ⟨[x], hxs, .wildcard hkind, rfl⟩, rfl⟩
    · next hkind =>
      obtain ⟨rfl, rfl⟩ := Prod.mk.inj (Except.ok.inj h)
      exact ⟨_, ⟨[x], hxs, .reference hkind, rfl⟩, rfl⟩
    · next hkind =>
      obtain ⟨⟨⟨kind, span⟩, next'⟩, hliteral, h⟩ := bind_eq_ok.1 h
      obtain ⟨rfl, rfl⟩ := Prod.mk.inj (Except.ok.inj h)
      exact ⟨_, reads_of_readLiteral hkind hliteral hxs, rfl⟩
    · next hkind =>
      obtain ⟨⟨built, inner⟩, hinner, h⟩ := bind_eq_ok.1 h
      obtain ⟨ys, bs, hys, hderives, hstop, rfl⟩ :=
        ih _ _ _ _ (by simp [Cursor.after, hxs]) hb hinner
      dsimp only at h
      split at h
      · cases h
      · next close more hclose =>
        split at h
        · next hclosing =>
          obtain ⟨rfl, rfl⟩ := Prod.mk.inj (Except.ok.inj h)
          have hys : xs = ys ++ inner.rest := hys
          rw [hclose] at hderives
          refine ⟨_, ⟨x :: ys ++ [close], ?_, .group hkind hclosing hderives, ?_⟩, rfl⟩
          · rw [hxs, hys, hclose]
            simp [Cursor.after]
          · rw [Token.cover, List.getLast?_append]
            rfl
        · cases h
    · cases h

theorem reads_of_readItem (hb : b.Open) (ih : AddsBelow source c.rest.length)
    (h : readItem source b c = .ok (b', next)) :
    ∃ t, Reads source (.item t) c next ∧ b' = b.extend [t] := by
  rw [readItem_eq] at h
  obtain ⟨⟨built, after⟩, hunit, h⟩ := bind_eq_ok.1 h
  obtain ⟨t, ⟨xs, hrest, hderives, hstop⟩, rfl⟩ := reads_of_readUnit hb ih hunit
  exact reads_of_readRepetitions hb ⟨xs, hrest, .once hderives, hstop⟩ h

theorem reads_of_readSequence {count : Nat} (hb : b.Open) (ih : AddsBelow source c.rest.length)
    (h : readSequence source b c = .ok ((count, b'), next)) :
    ∃ ts, Reads source (.sequence ts) c next ∧ count = ts.length ∧ b' = b.extend ts := by
  induction hn : c.rest.length using Nat.strongRecOn generalizing b c count with
  | ind n ihn =>
    subst hn
    rw [readSequence_eq] at h
    split at h
    · obtain ⟨⟨built, after⟩, hitem, h⟩ := bind_eq_ok.1 h
      obtain ⟨t, ⟨xs, hrest, hderives, hstop⟩, rfl⟩ := reads_of_readItem hb ih hitem
      have hshorter : after.rest.length < c.rest.length := by
        have := List.length_pos_iff.2 hderives.ne_nil
        rw [hrest, List.length_append]
        omega
      dsimp only at h
      split at h
      · obtain ⟨⟨⟨count', built⟩, next'⟩, hmore, h⟩ := bind_eq_ok.1 h
        obtain ⟨⟨rfl, rfl⟩, rfl⟩ : (_ ∧ _) ∧ _ := by
          simpa only [Prod.mk.injEq] using Except.ok.inj h
        obtain ⟨ts, ⟨ys, hys, hderives', hstop'⟩, rfl, rfl⟩ := ihn _ hshorter (hb.extend [t])
          (ih.mono (Nat.le_of_lt hshorter)) hmore rfl
        rw [hys] at hderives
        refine ⟨t :: ts, ⟨xs ++ ys, ?_, hderives.cons hderives', ?_⟩, rfl, ?_⟩
        · rw [hrest, hys, List.append_assoc]
        · rw [hstop', Token.cover_append hderives.ne_nil hderives'.ne_nil]
        · rw [Builder.extend_extend hb, List.singleton_append]
      · obtain ⟨⟨rfl, rfl⟩, rfl⟩ : (_ ∧ _) ∧ _ := by
          simpa only [Prod.mk.injEq] using Except.ok.inj h
        exact ⟨[t], ⟨xs, hrest, .last hderives, hstop⟩, rfl, rfl⟩
    · cases h

theorem reads_of_readBranches {branches : List Stretch} (hb : b.Open)
    (ih : AddsBelow source c.rest.length)
    (h : readBranches source b c = .ok ((branches, b'), next)) :
    ∃ bs, Reads source (.alternation bs) c next ∧ branches = stretches b.length bs ∧
      b' = b.extend (bs.flatMap Branch.items) := by
  induction hn : c.rest.length using Nat.strongRecOn generalizing b c branches with
  | ind n ihn =>
    subst hn
    rw [readBranches_eq] at h
    obtain ⟨⟨⟨count, built⟩, after⟩, hsequence, h⟩ := bind_eq_ok.1 h
    obtain ⟨ts, ⟨xs, hrest, hderives, hstop⟩, rfl, rfl⟩ := reads_of_readSequence hb ih hsequence
    dsimp only at h
    rw [start_of_rest hderives.ne_nil hrest, hstop] at h
    have hlast (hl : (([⟨b.length, ts.length, Token.cover xs⟩], b.extend ts), after) =
        ((branches, b'), next)) :
        ∃ bs, Reads source (.alternation bs) c next ∧ branches = stretches b.length bs ∧
          b' = b.extend (bs.flatMap Branch.items) := by
      obtain ⟨⟨rfl, rfl⟩, rfl⟩ : (_ ∧ _) ∧ _ := by simpa only [Prod.mk.injEq] using hl
      refine ⟨[⟨ts, Token.cover xs⟩], ⟨xs, hrest, .branch hderives, hstop⟩, rfl, ?_⟩
      rw [List.flatMap_singleton]
    split at h
    · exact hlast (Except.ok.inj h)
    · next pipe more hmore =>
      split at h
      · next hpipe =>
        obtain ⟨⟨⟨branches', built⟩, next'⟩, hbranches, h⟩ := bind_eq_ok.1 h
        obtain ⟨⟨rfl, rfl⟩, rfl⟩ : (_ ∧ _) ∧ _ := by
          simpa only [Prod.mk.injEq] using Except.ok.inj h
        have hshorter : (Cursor.after pipe more).rest.length < c.rest.length := by
          rw [hrest, hmore]
          simp [Cursor.after]
          omega
        obtain ⟨bs, ⟨ys, hys, hderives', hstop'⟩, rfl, rfl⟩ := ihn _ hshorter (hb.extend ts)
          (ih.mono (Nat.le_of_lt hshorter)) hbranches rfl
        have hys : more = ys ++ next'.rest := hys
        rw [hmore, hys] at hderives
        refine ⟨⟨ts, Token.cover xs⟩ :: bs, ⟨xs ++ pipe :: ys, ?_, hderives.choice hpipe hderives',
          ?_⟩, ?_, ?_⟩
        · rw [hrest, hmore, hys, List.append_assoc, List.cons_append]
        · obtain ⟨y, ys', rfl⟩ := List.exists_cons_of_ne_nil hderives'.ne_nil
          rw [hstop', Token.cover_append hderives.ne_nil (by simp)]
          simp [Token.cover]
        · rw [stretches, ← Builder.length_extend]
        · rw [Builder.extend_extend hb, List.flatMap_cons]
      · exact hlast (Except.ok.inj h)

theorem adds_of_readBranches {grouped : Bool} (hb : b.Open) (ih : AddsBelow source c.rest.length)
    (h : readAlternation source grouped b c = .ok (b', next)) :
    Adds source grouped b b' c next := by
  rw [readAlternation_eq] at h
  obtain ⟨⟨⟨branches, built⟩, next'⟩, hbranches, h⟩ := bind_eq_ok.1 h
  obtain ⟨rfl, rfl⟩ := Prod.mk.inj (Except.ok.inj h)
  obtain ⟨bs, ⟨xs, hrest, hderives, hstop⟩, rfl, rfl⟩ := reads_of_readBranches hb ih hbranches
  refine ⟨xs, bs, hrest, hderives, hstop, ?_⟩
  rw [start_of_rest hderives.ne_nil hrest, hstop]
  exact gather_extend hb hderives.items_ne_nil hderives.span_of_single grouped

theorem addsBelow (source : String) (n : Nat) : AddsBelow source n := by
  induction n with
  | zero => exact fun _ _ _ _ hlt => absurd hlt (Nat.not_lt_zero _)
  | succ n ih =>
    intro c next b b' hlt hb h
    exact adds_of_readBranches hb (ih.mono (Nat.le_of_lt_succ hlt)) h

theorem adds_of_readAlternation {grouped : Bool} (hb : b.Open)
    (h : readAlternation source grouped b c = .ok (b', next)) : Adds source grouped b b' c next :=
  adds_of_readBranches hb (addsBelow source _) h

theorem reads_of_readDefinition (hb : b.Open) (h : readDefinition source b c = .ok (b', next)) :
    ∃ name equal xs bs, c.rest = name :: equal :: xs ++ next.rest ∧ name.kind = .identifier ∧
      equal.kind = .mark .equal ∧ Derives source (.alternation bs) xs next.rest ∧
      b' = b.extend [.node .definition (Token.cover (name :: equal :: xs))
        (.leaf .declaration name.span :: Branch.splice bs (Token.cover xs))] := by
  rw [readDefinition_eq] at h
  obtain ⟨⟨name, afterName⟩, hname, h⟩ := bind_eq_ok.1 h
  obtain ⟨⟨equal, body⟩, hequal, h⟩ := bind_eq_ok.1 h
  obtain ⟨⟨inside, last⟩, hbody, h⟩ := bind_eq_ok.1 h
  obtain ⟨hnameKind, hc, -⟩ := readToken_eq_ok.1 hname
  obtain ⟨hequalKind, hafter, -⟩ := readToken_eq_ok.1 hequal
  have hopen := b.open_push .definition name.span
  obtain ⟨xs, bs, hxs, hderives, hstop, rfl⟩ :=
    adds_of_readAlternation (hopen.extend [.leaf .declaration name.span]) hbody
  dsimp only at hafter hxs h
  split at h
  · obtain ⟨rfl, rfl⟩ := Prod.mk.inj (Except.ok.inj h)
    have hcover : (⟨name.span.start, last.stop⟩ : Span) = Token.cover (name :: equal :: xs) := by
      rw [hstop]
      exact (Token.cover_append (List.cons_ne_nil name [equal]) hderives.ne_nil).symm
    refine ⟨name, equal, xs, bs, ?_, hnameKind, hequalKind, hderives, ?_⟩
    · rw [hc, hafter, hxs]
      rfl
    · rw [hcover, Builder.extend_extend hopen, Builder.close_extend hb]
      rfl
  · cases h

/-- Definitions that are parsed are derived from the tokens, and their trees are added. -/
theorem derivesAll_of_definitions (hb : b.Open) (h : definitions source b c = .ok b') :
    ∃ ts, DerivesAll source c.rest ts ∧ b' = b.extend ts := by
  induction hn : c.rest.length using Nat.strongRecOn generalizing b c with
  | ind n ih =>
    subst hn
    rw [definitions_eq] at h
    split at h
    · next hempty =>
      rw [List.isEmpty_iff.1 hempty, ← Except.ok.inj h]
      exact ⟨[], .nil, Builder.extend_nil.symm⟩
    · obtain ⟨⟨built, next⟩, hdefinition, h⟩ := bind_eq_ok.1 h
      obtain ⟨name, equal, xs, bs, hrest, hname, hequal, hderives, rfl⟩ :=
        reads_of_readDefinition hb hdefinition
      obtain ⟨ts, hts, rfl⟩ := ih _ (by rw [hrest]; simp; omega) (hb.extend _) h rfl
      rw [hrest, Builder.extend_extend hb]
      exact ⟨_, .definition hname hequal hderives hts, rfl⟩

end Parse
end LexicalPatterns
