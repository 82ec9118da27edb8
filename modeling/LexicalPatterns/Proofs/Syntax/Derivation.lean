import LexicalPatterns.Syntax.Parse

/-!
# Derivations

The grammar of definitions as a relation. A derivation says which tokens a phrase is made of and
which tree it stands for. It also tells the tokens that follow the phrase, but there is one rule
only that asks for them: a quoted literal that two touching dots follow is the lower end of a range.
-/

namespace LexicalPatterns

def Token.cover (ts : List Token) : Span :=
  ⟨(ts.head?.map (·.span.start)).getD 0, (ts.getLast?.map (·.span.stop)).getD 0⟩

theorem Token.cover_append {xs ys : List Token} (hxs : xs ≠ []) (hys : ys ≠ []) :
    cover (xs ++ ys) = ⟨(cover xs).start, (cover ys).stop⟩ := by
  obtain ⟨x, xs, rfl⟩ := List.exists_cons_of_ne_nil hxs
  unfold cover
  rw [List.getLast?_append, List.getLast?_eq_some_getLast hys]
  rfl

/-- Whether two dots that touch come next. -/
def TouchingDots (rest : List Token) : Prop :=
  ∃ a b more, rest = a :: b :: more ∧ a.kind = .mark .dot ∧ b.kind = .mark .dot ∧
    a.span.stop = b.span.start

theorem atRangeDots_iff {rest : List Token} :
    Parse.atRangeDots rest = true ↔ TouchingDots rest := by
  match rest with
  | [] => simp [Parse.atRangeDots, TouchingDots]
  | [_] => simp [Parse.atRangeDots, TouchingDots]
  | a :: b :: more => simp [Parse.atRangeDots, TouchingDots, and_assoc]

/-- Whether a token is a number of 32 bits. -/
structure IsNumber (source : String) (t : Token) (n : Nat) : Prop where
  kind : t.kind = .number
  value : Parse.decimal (t.text source).toList = n
  lt : n < UInt32.size

/-- The repetitions, with the tokens that ask for them. -/
inductive Repetition (source : String) : NodeKind → List Token → Prop
  | question {mark : Token} : mark.kind = .mark .question →
      Repetition source (.between 0 1) [mark]
  | star {mark : Token} : mark.kind = .mark .star → Repetition source (.atLeast 0) [mark]
  | plus {mark : Token} : mark.kind = .mark .plus → Repetition source (.atLeast 1) [mark]
  | exactly {opening count closing : Token} {n : Nat} : opening.kind = .mark .openBrace →
      IsNumber source count n → closing.kind = .mark .closeBrace →
      Repetition source (.exactly n) [opening, count, closing]
  | between {opening low comma high closing : Token} {min max : Nat} :
      opening.kind = .mark .openBrace → IsNumber source low min → comma.kind = .mark .comma →
      IsNumber source high max → closing.kind = .mark .closeBrace →
      Repetition source (.between min max) [opening, low, comma, high, closing]
  | atLeast {opening low comma closing : Token} {min : Nat} :
      opening.kind = .mark .openBrace → IsNumber source low min → comma.kind = .mark .comma →
      closing.kind = .mark .closeBrace →
      Repetition source (.atLeast min) [opening, low, comma, closing]

/-- One branch of an alternation: its items, and the span of them all. -/
structure Branch where
  items : List Tree
  span : Span

/-- A branch as one tree: its items are grouped if there are several. -/
def Branch.tree (b : Branch) : Tree :=
  match b.items with
  | [t] => t
  | ts => .node .group b.span ts

/-- An alternation as the items it adds to the definition. -/
def Branch.splice (branches : List Branch) (span : Span) : List Tree :=
  match branches with
  | [b] => b.items
  | bs => [.node .choice span (bs.map Branch.tree)]

/-- An alternation in brackets, which is one tree. -/
def Branch.bracket (branches : List Branch) (span : Span) : Tree :=
  match branches with
  | [b] => b.tree
  | bs => .node .choice span (bs.map Branch.tree)

/-- What is derived, with the trees that it stands for. -/
inductive Phrase where
  | unit (t : Tree)
  | item (t : Tree)
  | sequence (ts : List Tree)
  | alternation (bs : List Branch)

/-- The trees of a phrase. -/
def Phrase.trees : Phrase → List Tree
  | unit t => [t]
  | item t => [t]
  | sequence ts => ts
  | alternation bs => bs.flatMap Branch.items

/-- The phrases, with the tokens that they are made of and the tokens that follow them. -/
inductive Derives (source : String) : Phrase → List Token → List Token → Prop
  | wildcard {dot : Token} {rest : List Token} : dot.kind = .mark .dot →
      Derives source (.unit (.leaf .wildcard dot.span)) [dot] rest
  | reference {name : Token} {rest : List Token} : name.kind = .identifier →
      Derives source (.unit (.leaf .reference name.span)) [name] rest
  | character {quote : Token} {rest : List Token} {b : UInt8} : quote.kind = .quote →
      ¬ TouchingDots rest → Quote.bytes (quote.text source) = [b] →
      Derives source (.unit (.leaf (.character b) quote.span)) [quote] rest
  | string {quote : Token} {rest : List Token} {bs : List UInt8} : quote.kind = .quote →
      ¬ TouchingDots rest → Quote.bytes (quote.text source) = bs → bs.length ≠ 1 →
      Derives source (.unit (.leaf (.string bs) quote.span)) [quote] rest
  | range {low dot dot' high : Token} {rest : List Token} {l h : UInt8} : low.kind = .quote →
      TouchingDots [dot, dot'] → high.kind = .quote → Quote.bytes (low.text source) = [l] →
      Quote.bytes (high.text source) = [h] →
      Derives source (.unit (.leaf (.range l h) (low.span.join high.span)))
        [low, dot, dot', high] rest
  | group {opening closing : Token} {xs rest : List Token} {bs : List Branch} :
      opening.kind = .mark .openBracket → closing.kind = .mark .closeBracket →
      Derives source (.alternation bs) xs (closing :: rest) →
      Derives source (.unit (Branch.bracket bs (Token.cover xs))) (opening :: xs ++ [closing]) rest
  | once {t : Tree} {xs rest : List Token} : Derives source (.unit t) xs rest →
      Derives source (.item t) xs rest
  | repeated {kind : NodeKind} {t : Tree} {xs ys rest : List Token} :
      Derives source (.item t) xs (ys ++ rest) → Repetition source kind ys →
      Derives source (.item (.node kind (Token.cover (xs ++ ys)) [t])) (xs ++ ys) rest
  | last {t : Tree} {xs rest : List Token} : Derives source (.item t) xs rest →
      Derives source (.sequence [t]) xs rest
  | cons {t : Tree} {ts : List Tree} {xs ys rest : List Token} :
      Derives source (.item t) xs (ys ++ rest) → Derives source (.sequence ts) ys rest →
      Derives source (.sequence (t :: ts)) (xs ++ ys) rest
  | branch {ts : List Tree} {xs rest : List Token} : Derives source (.sequence ts) xs rest →
      Derives source (.alternation [⟨ts, Token.cover xs⟩]) xs rest
  | choice {ts : List Tree} {bs : List Branch} {pipe : Token} {xs ys rest : List Token} :
      Derives source (.sequence ts) xs (pipe :: ys ++ rest) → pipe.kind = .mark .pipe →
      Derives source (.alternation bs) ys rest →
      Derives source (.alternation (⟨ts, Token.cover xs⟩ :: bs)) (xs ++ pipe :: ys) rest

theorem Repetition.ne_nil {source : String} {kind : NodeKind} {ys : List Token}
    (h : Repetition source kind ys) : ys ≠ [] := by
  cases h <;> simp

theorem Derives.ne_nil {source : String} {p : Phrase} {xs rest : List Token}
    (h : Derives source p xs rest) : xs ≠ [] := by
  induction h with
  | once _ ih | last _ ih | branch _ ih => exact ih
  | repeated _ _ ih | cons _ _ ih _ | choice _ _ _ ih _ => simp [ih]
  | _ => simp

theorem Derives.items_ne_nil {source : String} {bs : List Branch} {xs rest : List Token}
    (h : Derives source (.alternation bs) xs rest) : ∀ r ∈ bs, r.items ≠ [] := by
  have hsequence {ts : List Tree} {ys rest : List Token}
      (h : Derives source (.sequence ts) ys rest) : ts ≠ [] := by
    cases h <;> simp
  generalize hp : Phrase.alternation bs = p at h
  induction h generalizing bs with
  | branch h =>
    obtain rfl := Phrase.alternation.inj hp
    exact List.forall_mem_singleton.2 (hsequence h)
  | choice h _ _ _ ih =>
    obtain rfl := Phrase.alternation.inj hp
    exact List.forall_mem_cons.2 ⟨hsequence h, ih rfl⟩
  | _ => cases hp

theorem Derives.span_of_single {source : String} {bs : List Branch} {xs rest : List Token}
    (h : Derives source (.alternation bs) xs rest) (r : Branch) (hr : bs = [r]) :
    r.span = Token.cover xs := by
  subst hr
  cases h with
  | branch _ => rfl
  | choice _ _ h => cases h

/-- The sources: any number of definitions. The items of the body are children of the definition,
unless it has several branches. -/
inductive DerivesAll (source : String) : List Token → List Tree → Prop
  | nil : DerivesAll source [] []
  | definition {name equal : Token} {xs rest : List Token} {bs : List Branch}
      {ts : List Tree} : name.kind = .identifier → equal.kind = .mark .equal →
      Derives source (.alternation bs) xs rest → DerivesAll source rest ts →
      DerivesAll source (name :: equal :: xs ++ rest)
        (.node .definition (Token.cover (name :: equal :: xs))
          (.leaf .declaration name.span :: Branch.splice bs (Token.cover xs)) :: ts)

end LexicalPatterns
