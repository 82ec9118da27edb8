import LexicalPatterns.Proofs.Syntax.Soundness

/-!
# Parsers read every derivation

A parser decides by the next tokens whether a phrase goes on. That it stops neither too early nor
too late rests on what phrases start with and on what stands behind them: an item starts with a
token that no repetition starts with, and behind a sequence stands a token that starts no item.
-/

namespace LexicalPatterns

def NextIsNot (kind : TokenKind) (rest : List Token) : Prop := ∀ t ∈ rest.head?, t.kind ≠ kind

@[simp] theorem nextIsNot_nil (kind : TokenKind) : NextIsNot kind [] := by simp [NextIsNot]

@[simp] theorem nextIsNot_cons {kind : TokenKind} {t : Token} {ts : List Token} :
    NextIsNot kind (t :: ts) ↔ t.kind ≠ kind := by simp [NextIsNot]

/-- Whether no repetition comes next. -/
structure Settled (rest : List Token) : Prop where
  question : NextIsNot (.mark .question) rest
  star : NextIsNot (.mark .star) rest
  plus : NextIsNot (.mark .plus) rest
  openBrace : NextIsNot (.mark .openBrace) rest

/-- What stands behind the last item of a sequence. -/
inductive Closes : List Token → Prop
  | finish : Closes []
  | pipe {t : Token} {ts : List Token} : t.kind = .mark .pipe → Closes (t :: ts)
  | bracket {t : Token} {ts : List Token} : t.kind = .mark .closeBracket → Closes (t :: ts)
  | definition {name equal : Token} {ts : List Token} : name.kind = .identifier →
      equal.kind = .mark .equal → Closes (name :: equal :: ts)

theorem Closes.settled {rest : List Token} (h : Closes rest) : Settled rest := by
  cases h with
  | finish => constructor <;> simp
  | pipe h | bracket h | definition h _ => constructor <;> simp [h]

theorem Closes.not_atUnit {rest : List Token} (h : Closes rest) : Parse.atUnit rest = false := by
  cases h with
  | finish => rfl
  | pipe h | bracket h => simp [Parse.atUnit, h]
  | definition h hequal => simp [Parse.atUnit, h, hequal]

theorem Closes.nextIsNot_equal {rest : List Token} (h : Closes rest) :
    NextIsNot (.mark .equal) rest := by
  cases h with
  | finish => simp
  | pipe h | bracket h | definition h _ => simp [h]

section Units

variable {xs : List Token}

theorem kind_of_atUnit (h : Parse.atUnit xs = true) :
    ∃ x xs', xs = x :: xs' ∧ (x.kind = .identifier ∨ x.kind = .mark .dot ∨ x.kind = .quote ∨
      x.kind = .mark .openBracket) := by
  match xs with
  | [] => cases h
  | x :: xs' =>
    refine ⟨x, xs', rfl, ?_⟩
    unfold Parse.atUnit at h
    dsimp only at h
    split at h <;> simp_all

theorem ne_nil_of_atUnit (h : Parse.atUnit xs = true) : xs ≠ [] := by
  rintro rfl
  cases h

theorem settled_of_atUnit (h : Parse.atUnit xs = true) (ys : List Token) : Settled (xs ++ ys) := by
  obtain ⟨x, xs', rfl, hkind⟩ := kind_of_atUnit h
  rw [List.cons_append]
  constructor <;> rw [nextIsNot_cons] <;> rcases hkind with hx | hx | hx | hx <;> simp [hx]

theorem nextIsNot_equal_of_atUnit (h : Parse.atUnit xs = true) : NextIsNot (.mark .equal) xs := by
  obtain ⟨x, xs', rfl, hkind⟩ := kind_of_atUnit h
  rw [nextIsNot_cons]
  rcases hkind with hx | hx | hx | hx <;> simp [hx]

theorem atUnit_append {ys : List Token} (h : Parse.atUnit xs = true)
    (hys : NextIsNot (.mark .equal) ys) : Parse.atUnit (xs ++ ys) = true := by
  match xs with
  | [x] =>
    have hequal : ys.head?.any (·.kind = .mark .equal) = false := by
      rw [Option.any_eq_false]
      intro t ht
      simpa using hys t ht
    unfold Parse.atUnit at h ⊢
    rw [List.singleton_append]
    dsimp only at h ⊢
    split <;> simp_all
  | x :: x' :: xs => exact h

end Units

variable {source : String}

theorem Repetition.nextIsNot_equal {kind : NodeKind} {ys : List Token}
    (h : Repetition source kind ys) : NextIsNot (.mark .equal) ys := by
  cases h with
  | question h | star h | plus h => simp [h]
  | exactly h _ _ | between h _ _ _ _ | atLeast h _ _ _ => simp [h]

theorem Derives.atUnit {p : Phrase} {xs rest : List Token} (h : Derives source p xs rest) :
    Parse.atUnit xs = true := by
  induction h with
  | wildcard h | reference h | character h _ _ | string h _ _ _ => simp [Parse.atUnit, h]
  | range h _ _ _ _ | group h _ _ _ => simp [Parse.atUnit, h]
  | once _ ih | last _ ih | branch _ ih => exact ih
  | repeated _ hkind ih => exact atUnit_append ih hkind.nextIsNot_equal
  | cons _ _ ih ih' => exact atUnit_append ih (nextIsNot_equal_of_atUnit ih')
  | choice _ hpipe _ ih _ => exact atUnit_append ih (by simp [hpipe])

section Sources

variable {tokens : List Token} {ts : List Tree}

theorem DerivesAll.closes (h : DerivesAll source tokens ts) : Closes tokens := by
  cases h with
  | nil => exact .finish
  | definition hname hequal _ _ => exact .definition hname hequal

theorem DerivesAll.nextIsNot_pipe (h : DerivesAll source tokens ts) :
    NextIsNot (.mark .pipe) tokens := by
  cases h with
  | nil => simp
  | definition hname _ _ _ => simp [hname]

theorem DerivesAll.next_isIdentifier (h : DerivesAll source tokens ts) :
    tokens.head?.all (·.kind = .identifier) = true := by
  cases h with
  | nil => rfl
  | definition hname _ _ _ => simp [hname]

end Sources

namespace Parse

variable {rest : List Token} {stop : Nat}

theorem readToken_cons {t : Token} {kind : TokenKind} {expected : Expected} (h : t.kind = kind) :
    readToken source kind expected ⟨t :: rest, stop⟩ = .ok (t, .after t rest) :=
  readToken_eq_ok.2 ⟨h, rfl, rfl⟩

theorem readNumber_cons {t : Token} {n : Nat} (h : IsNumber source t n) :
    readNumber source ⟨t :: rest, stop⟩ = .ok (n, .after t rest) :=
  readNumber_eq_ok.2 ⟨t, h, rfl, rfl⟩

theorem start_append {xs : List Token} (hxs : xs ≠ []) :
    Cursor.start source ⟨xs ++ rest, stop⟩ = (Token.cover xs).start :=
  start_of_rest hxs rfl

theorem readRepetitions_append {start : Nat} {b : Builder} {t : Tree} {kind : NodeKind}
    {ys : List Token} (hb : b.Open) (h : Repetition source kind ys) :
    readRepetitions source b.length start (b.extend [t]) ⟨ys ++ rest, stop⟩ =
      readRepetitions source b.length start
        (b.extend [.node kind ⟨start, (Token.cover ys).stop⟩ [t]])
        ⟨rest, (Token.cover ys).stop⟩ := by
  rw [readRepetitions_eq, ← Builder.wrap_last hb]
  cases h with
  | question hmark | star hmark | plus hmark =>
    simp only [List.singleton_append, hmark]
    rfl
  | exactly hopening hcount hclosing =>
    simp only [List.cons_append, List.nil_append, hopening]
    rw [readBounds_eq, Cursor.after, readNumber_cons hcount]
    simp only [bind, Except.bind, Cursor.after, hclosing, reduceCtorEq, TokenKind.mark.injEq,
      if_false]
    rw [readToken_cons hclosing]
    rfl
  | between hopening hlow hcomma hhigh hclosing =>
    simp only [List.cons_append, List.nil_append, hopening]
    rw [readBounds_eq, Cursor.after, readNumber_cons hlow]
    simp only [bind, Except.bind, Cursor.after, hcomma, if_true, List.head?_cons, Option.any_some,
      hhigh.kind, decide_true]
    rw [readNumber_cons hhigh]
    dsimp only [Cursor.after]
    rw [readToken_cons hclosing]
    rfl
  | atLeast hopening hlow hcomma hclosing =>
    simp only [List.cons_append, List.nil_append, hopening]
    rw [readBounds_eq, Cursor.after, readNumber_cons hlow]
    simp only [bind, Except.bind, Cursor.after, hcomma, if_true, List.head?_cons, Option.any_some,
      hclosing, reduceCtorEq, decide_false, if_false, Bool.false_eq_true]
    rw [readToken_cons hclosing]
    rfl

theorem readRepetitions_settled {first start : Nat} {b : Builder} (h : Settled rest) :
    readRepetitions source first start b ⟨rest, stop⟩ = .ok (b, ⟨rest, stop⟩) := by
  rw [readRepetitions_eq]
  cases rest with
  | nil => rfl
  | cons x xs =>
    have hquestion := h.question
    have hstar := h.star
    have hplus := h.plus
    have hopenBrace := h.openBrace
    rw [nextIsNot_cons] at hquestion hstar hplus hopenBrace
    dsimp only
    split <;> first | contradiction | rfl

theorem readLiteral_alone {quote : Token} (h : ¬ TouchingDots rest) :
    readLiteral source quote rest =
      .ok ((literalKind (Quote.bytes (quote.text source)), quote.span), .after quote rest) := by
  rw [readLiteral_eq]
  split
  · next a b more => rw [if_neg fun hdots => h (atRangeDots_iff.1 hdots)]
  · rfl

/-- What the parser of a phrase does at a place where the phrase is derived: it adds the trees of
the phrase. The repetitions of an item are those that were derived and all that come next. -/
def Accepts (source : String) (xs rest : List Token) : Phrase → Prop
  | .unit t => ∀ (b : Builder) stop, b.Open → readUnit source b ⟨xs ++ rest, stop⟩ =
      .ok (b.extend [t], ⟨rest, (Token.cover xs).stop⟩)
  | .item t => ∀ (b : Builder) stop, b.Open → readItem source b ⟨xs ++ rest, stop⟩ =
      readRepetitions source b.length (Token.cover xs).start (b.extend [t])
        ⟨rest, (Token.cover xs).stop⟩
  | .sequence ts => Closes rest → ∀ (b : Builder) stop, b.Open →
      readSequence source b ⟨xs ++ rest, stop⟩ =
        .ok ((ts.length, b.extend ts), ⟨rest, (Token.cover xs).stop⟩)
  | .alternation bs => Closes rest → NextIsNot (.mark .pipe) rest →
      ∀ (b : Builder) stop, b.Open → readBranches source b ⟨xs ++ rest, stop⟩ =
        .ok ((stretches b.length bs, b.extend (bs.flatMap Branch.items)),
          ⟨rest, (Token.cover xs).stop⟩)

variable {xs ys : List Token} {b : Builder}

theorem readAlternation_append {bs : List Branch} (h : Derives source (.alternation bs) xs rest)
    (haccepts : Accepts source xs rest (.alternation bs)) (hcloses : Closes rest)
    (hpipe : NextIsNot (.mark .pipe) rest) (hb : b.Open) (grouped : Bool) :
    readAlternation source grouped b ⟨xs ++ rest, stop⟩ =
      .ok (b.extend (if grouped then [Branch.bracket bs (Token.cover xs)]
        else Branch.splice bs (Token.cover xs)), ⟨rest, (Token.cover xs).stop⟩) := by
  rw [readAlternation_eq, haccepts hcloses hpipe b stop hb, start_append h.ne_nil]
  exact congrArg (fun built => Except.ok (built, _))
    (gather_extend hb h.items_ne_nil h.span_of_single grouped)

theorem accepts_literal {quote : Token} (ys : List Token) {kind : NodeKind} {span : Span}
    (hkind : quote.kind = .quote) (hliteral : readLiteral source quote (ys ++ rest) =
      .ok ((kind, span), ⟨rest, (Token.cover (quote :: ys)).stop⟩)) :
    Accepts source (quote :: ys) rest (.unit (.leaf kind span)) := by
  intro b stop _
  rw [readUnit_eq]
  simp only [List.cons_append, hkind, hliteral]
  rfl

theorem accepts_group {opening closing : Token} {bs : List Branch}
    (hopening : opening.kind = .mark .openBracket) (hclosing : closing.kind = .mark .closeBracket)
    (h : Derives source (.alternation bs) xs (closing :: rest))
    (ih : Accepts source xs (closing :: rest) (.alternation bs)) :
    Accepts source (opening :: xs ++ [closing]) rest
      (.unit (Branch.bracket bs (Token.cover xs))) := by
  intro b stop hb
  rw [readUnit_eq]
  simp only [List.cons_append, List.append_assoc, List.nil_append, hopening]
  rw [Cursor.after, readAlternation_append h ih (.bracket hclosing) (by simp [hclosing]) hb]
  simp only [bind, Except.bind, hclosing, if_true]
  rw [← List.cons_append, Token.cover_append (List.cons_ne_nil _ _) (List.cons_ne_nil _ _)]
  rfl

theorem accepts_last {t : Tree} (hunit : atUnit xs = true)
    (ih : Accepts source xs rest (.item t)) : Accepts source xs rest (.sequence [t]) := by
  intro hcloses b stop hb
  rw [readSequence_eq, if_pos (atUnit_append hunit hcloses.nextIsNot_equal), ih b stop hb,
    readRepetitions_settled hcloses.settled]
  simp only [bind, Except.bind, hcloses.not_atUnit]
  rfl

theorem accepts_cons {t : Tree} {ts : List Tree} (hxs : atUnit xs = true) (hys : atUnit ys = true)
    (ih : Accepts source xs (ys ++ rest) (.item t)) (ih' : Accepts source ys rest (.sequence ts)) :
    Accepts source (xs ++ ys) rest (.sequence (t :: ts)) := by
  intro hcloses b stop hb
  have hmore := atUnit_append hys hcloses.nextIsNot_equal
  rw [List.append_assoc, readSequence_eq, if_pos (atUnit_append hxs
    (nextIsNot_equal_of_atUnit hmore)), ih b stop hb,
    readRepetitions_settled (settled_of_atUnit hys rest)]
  simp only [bind, Except.bind, hmore, if_true]
  rw [ih' hcloses _ _ (hb.extend [t]), Token.cover_append (ne_nil_of_atUnit hxs)
    (ne_nil_of_atUnit hys), Builder.extend_extend hb]
  rfl

theorem accepts_branch {ts : List Tree} (hxs : xs ≠ [])
    (ih : Accepts source xs rest (.sequence ts)) :
    Accepts source xs rest (.alternation [⟨ts, Token.cover xs⟩]) := by
  intro hcloses hpipe b stop hb
  rw [readBranches_eq, ih hcloses b stop hb, start_append hxs, List.flatMap_singleton]
  cases rest with
  | nil => rfl
  | cons x more =>
    simp only [bind, Except.bind, if_neg (nextIsNot_cons.1 hpipe)]
    rfl

theorem accepts_choice {ts : List Tree} {bs : List Branch} {pipe : Token} (hxs : xs ≠ [])
    (hys : ys ≠ []) (hkind : pipe.kind = .mark .pipe)
    (ih : Accepts source xs (pipe :: ys ++ rest) (.sequence ts))
    (ih' : Accepts source ys rest (.alternation bs)) :
    Accepts source (xs ++ pipe :: ys) rest (.alternation (⟨ts, Token.cover xs⟩ :: bs)) := by
  intro hcloses hpipe b stop hb
  have hstop : (Token.cover (pipe :: ys)).stop = (Token.cover ys).stop := by
    rw [← List.singleton_append, Token.cover_append (List.cons_ne_nil _ _) hys]
  rw [List.append_assoc, readBranches_eq, ih (.pipe hkind) b stop hb, start_append hxs]
  simp only [bind, Except.bind, List.cons_append, hkind, if_true]
  rw [Cursor.after, ih' hcloses hpipe _ _ (hb.extend ts),
    Token.cover_append hxs (List.cons_ne_nil _ _), hstop, Builder.extend_extend hb,
    Builder.length_extend]
  rfl

end Parse

open Parse

theorem Derives.accepts {p : Phrase} {xs rest : List Token} (h : Derives source p xs rest) :
    Accepts source xs rest p := by
  induction h with
  | wildcard hkind | reference hkind =>
    intro b stop _
    rw [readUnit_eq]
    simp only [List.singleton_append, hkind]
    rfl
  | @character quote rest b hkind hdots hbytes =>
    refine accepts_literal [] hkind ?_
    rw [List.nil_append, readLiteral_alone hdots, hbytes]
    rfl
  | @string quote rest bs hkind hdots hbytes hlength =>
    have hstring : literalKind bs = .string bs := by
      unfold literalKind
      split
      · exact absurd rfl hlength
      · rfl
    refine accepts_literal [] hkind ?_
    rw [List.nil_append, readLiteral_alone hdots, hbytes, hstring]
    rfl
  | @range low dot dot' high rest l h hlow hdots hhigh hl hh =>
    obtain ⟨a, b, more, heq, ha, hb, htouch⟩ := hdots
    have hdots : atRangeDots (dot :: dot' :: high :: rest) = true := by
      obtain ⟨rfl, rfl, -⟩ : dot = a ∧ dot' = b ∧ [] = more := by simpa using heq
      exact atRangeDots_iff.2 ⟨dot, dot', high :: rest, rfl, ha, hb, htouch⟩
    refine accepts_literal [dot, dot', high] hlow ?_
    rw [readLiteral_eq]
    simp only [List.cons_append, List.nil_append, hdots, if_true]
    rw [Cursor.after, readToken_cons hhigh]
    simp only [bind, Except.bind, hl, hh]
    rfl
  | group hopening hclosing hbody ih =>
    exact accepts_group hopening hclosing hbody ih
  | @once t xs rest hunit ih =>
    intro b stop hb
    rw [readItem_eq, ih b stop hb, start_append hunit.ne_nil]
    rfl
  | @repeated kind t xs ys rest hitem hkind ih =>
    intro b stop hb
    rw [List.append_assoc, ih b stop hb, readRepetitions_append hb hkind,
      Token.cover_append hitem.ne_nil hkind.ne_nil]
  | last hitem ih => exact accepts_last hitem.atUnit ih
  | cons hitem hsequence ih ih' => exact accepts_cons hitem.atUnit hsequence.atUnit ih ih'
  | branch hsequence ih => exact accepts_branch hsequence.ne_nil ih
  | choice hsequence hpipe halternation ih ih' =>
    exact accepts_choice hsequence.ne_nil halternation.ne_nil hpipe ih ih'

/-- A source that is derived is read, and the derived trees are added. -/
theorem DerivesAll.definitions_eq {tokens : List Token} {ts : List Tree}
    (h : DerivesAll source tokens ts) {b : Builder} (hb : b.Open) (stop : Nat) :
    definitions source b ⟨tokens, stop⟩ = .ok (b.extend ts) := by
  induction h generalizing b stop with
  | nil =>
    rw [Parse.definitions_eq, Builder.extend_nil]
    rfl
  | @definition name equal xs rest bs ts hname hequal hbody hrest ih =>
    have hcover : Token.cover (name :: equal :: xs) = ⟨name.span.start, (Token.cover xs).stop⟩ :=
      Token.cover_append (List.cons_ne_nil name [equal]) hbody.ne_nil
    have hopen := b.open_push .definition name.span
    rw [Parse.definitions_eq, readDefinition_eq]
    simp only [List.cons_append]
    rw [readToken_cons hname]
    simp only [bind, Except.bind, Cursor.after]
    rw [readToken_cons hequal]
    simp only [Cursor.after]
    rw [Builder.add_eq_extend .declaration, readAlternation_append hbody hbody.accepts hrest.closes
      hrest.nextIsNot_pipe (hopen.extend _), Builder.extend_extend hopen]
    simp only [hrest.next_isIdentifier, if_true, pure, Except.pure]
    rw [Builder.close_extend hb, ih (hb.extend _), Builder.extend_extend hb, hcover]
    rfl

end LexicalPatterns
