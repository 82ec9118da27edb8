import LexicalPatterns.Proofs.Shift.Basic

/-!
# Derivations in a larger source

What is derived from the tokens of a source is derived, shifted, from the shifted tokens, whatever
other definitions follow: what follows a definition matters only if two dots stand there.
-/

namespace LexicalPatterns

/-- Whether all names in a tree stand at spans of some kind. -/
def Tree.Names (P : Span → Prop) (t : Tree) : Prop :=
  ∀ n ∈ t.nodes, n.kind = .reference ∨ n.kind = .declaration → P n.span

namespace Tree

variable {P : Span → Prop} {kind : NodeKind} {span : Span} {children : List Tree}

theorem names_node (h : kind ≠ .reference ∧ kind ≠ .declaration) :
    (node kind span children).Names P ↔ ∀ t ∈ children, t.Names P := by
  simp only [Names, nodes, nodesAll_eq_flatMap, List.forall_mem_cons, List.mem_flatMap]
  constructor
  · rintro ⟨-, hchildren⟩ t ht n hn
    exact hchildren n ⟨t, ht, hn⟩
  · intro hchildren
    refine ⟨fun hname => absurd hname (not_or.2 h), ?_⟩
    rintro n ⟨t, ht, hn⟩
    exact hchildren t ht n hn

theorem names_leaf (h : P span) : (leaf kind span).Names P := by
  intro n hn _
  obtain rfl := List.mem_singleton.1 hn
  exact h

end Tree

namespace Branch

def shift (k : Nat) (b : Branch) : Branch := ⟨b.items.map (Tree.shift k), b.span.shift k⟩

theorem tree_shift (k : Nat) (b : Branch) : (b.shift k).tree = b.tree.shift k := by
  obtain ⟨items, span⟩ := b
  match items with
  | [] => rfl
  | [t] => rfl
  | t :: t' :: ts => exact (Tree.shift_node k .group span (t :: t' :: ts)).symm

theorem choice_shift (k : Nat) (bs : List Branch) (span : Span) :
    Tree.node .choice (span.shift k) ((bs.map (shift k)).map tree) =
      (Tree.node .choice span (bs.map tree)).shift k := by
  rw [Tree.shift_node, List.map_map, List.map_map]
  refine congrArg _ (List.map_congr_left fun b _ => b.tree_shift k)

theorem splice_shift (k : Nat) (bs : List Branch) (span : Span) :
    splice (bs.map (shift k)) (span.shift k) = (splice bs span).map (Tree.shift k) := by
  match bs with
  | [] => exact congrArg List.singleton (choice_shift k [] span)
  | [b] => rfl
  | b :: b' :: bs => exact congrArg List.singleton (choice_shift k (b :: b' :: bs) span)

theorem bracket_shift (k : Nat) (bs : List Branch) (span : Span) :
    bracket (bs.map (shift k)) (span.shift k) = (bracket bs span).shift k := by
  match bs with
  | [] => exact choice_shift k [] span
  | [b] => exact b.tree_shift k
  | b :: b' :: bs => exact choice_shift k (b :: b' :: bs) span

section Names

variable {P : Span → Prop}

theorem names_tree {b : Branch} (h : ∀ t ∈ b.items, t.Names P) : b.tree.Names P := by
  obtain ⟨items, span⟩ := b
  match items with
  | [] => exact (Tree.names_node (by decide)).2 h
  | [t] => exact h t (List.mem_singleton_self t)
  | t :: t' :: ts => exact (Tree.names_node (by decide)).2 h

variable {bs : List Branch} (h : ∀ t ∈ bs.flatMap items, t.Names P) (span : Span)
include h

theorem names_choice : (Tree.node .choice span (bs.map tree)).Names P := by
  refine (Tree.names_node (by decide)).2 (List.forall_mem_map.2 fun b hb => names_tree ?_)
  exact fun t ht => h t (List.mem_flatMap_of_mem hb ht)

theorem names_splice : ∀ t ∈ splice bs span, t.Names P := by
  match bs with
  | [] => exact List.forall_mem_singleton.2 (names_choice h span)
  | [b] => exact fun t ht => h t (by simpa [splice] using ht)
  | b :: b' :: bs => exact List.forall_mem_singleton.2 (names_choice h span)

theorem names_bracket : (bracket bs span).Names P := by
  match bs with
  | [] => exact names_choice h span
  | [b] => exact names_tree fun t ht => h t (by simpa using ht)
  | b :: b' :: bs => exact names_choice h span

end Names

end Branch

theorem Derives.names {source : String} {p : Phrase} {xs rest : List Token} {P : Span → Prop}
    (h : Derives source p xs rest) (hxs : ∀ t ∈ xs, P t.span) : ∀ t ∈ p.trees, t.Names P := by
  induction h with
  | wildcard | reference | character | string =>
    exact List.forall_mem_singleton.2 (Tree.names_leaf (hxs _ List.mem_cons_self))
  | range =>
    refine List.forall_mem_singleton.2 fun n hn hname => ?_
    obtain rfl := List.mem_singleton.1 hn
    simp at hname
  | group _ _ _ ih =>
    refine List.forall_mem_singleton.2 (Branch.names_bracket (ih fun t ht => hxs t ?_) _)
    simp [ht]
  | once _ ih | last _ ih => exact ih hxs
  | repeated _ hrepetition ih =>
    obtain ⟨hxs, -⟩ := List.forall_mem_append.1 hxs
    refine List.forall_mem_singleton.2 ((Tree.names_node ?_).2 (ih hxs))
    cases hrepetition <;> simp
  | cons _ _ ih ih' =>
    obtain ⟨hxs, hys⟩ := List.forall_mem_append.1 hxs
    exact List.forall_mem_cons.2 ⟨ih hxs _ (List.mem_singleton_self _), ih' hys⟩
  | branch _ ih => simpa [Phrase.trees] using ih hxs
  | choice _ _ _ ih ih' =>
    obtain ⟨hxs, hpipe⟩ := List.forall_mem_append.1 hxs
    have hys := (List.forall_mem_cons.1 hpipe).2
    simp only [Phrase.trees, List.flatMap_cons]
    exact List.forall_mem_append.2 ⟨ih hxs, ih' hys⟩

def Phrase.shift (k : Nat) : Phrase → Phrase
  | unit t => unit (t.shift k)
  | item t => item (t.shift k)
  | sequence ts => sequence (ts.map (Tree.shift k))
  | alternation bs => alternation (bs.map (Branch.shift k))

/-- Whether a span has in another source, where it is shifted, the text that it has in its own. -/
abbrev SameText (k : Nat) (source source' : String) (s : Span) : Prop :=
  (s.shift k).text source' = s.text source

def SameTexts (k : Nat) (source source' : String) (ts : List Token) : Prop :=
  ∀ t ∈ ts, SameText k source source' t.span

def NoDot (ts : List Token) : Prop := ∀ t ∈ ts.head?, t.kind ≠ .mark .dot

section Shift

variable {k : Nat} {source source' : String}

theorem SameTexts.append {xs ys : List Token} :
    SameTexts k source source' (xs ++ ys) ↔
      SameTexts k source source' xs ∧ SameTexts k source source' ys :=
  List.forall_mem_append

theorem SameTexts.cons {t : Token} {ts : List Token} :
    SameTexts k source source' (t :: ts) ↔
      SameText k source source' t.span ∧ SameTexts k source source' ts :=
  List.forall_mem_cons

theorem touchingDots_cons_cons {a b : Token} {rest : List Token} :
    TouchingDots (a :: b :: rest) ↔
      a.kind = .mark .dot ∧ b.kind = .mark .dot ∧ a.span.stop = b.span.start := by
  rw [← atRangeDots_iff]
  simp [Parse.atRangeDots, and_assoc]

/-- Dots touch where they are shifted, and what follows them does not matter if it is no dot. -/
theorem touchingDots_shift {rest more : List Token} (hmore : NoDot more) :
    TouchingDots (rest.map (Token.shift k) ++ more) ↔ TouchingDots rest := by
  match rest with
  | [] =>
    constructor
    · rintro ⟨a, b, others, rfl, ha, -⟩
      exact absurd ha (hmore a rfl)
    · rintro ⟨a, b, others, hrest, -⟩
      cases hrest
  | [a] =>
    constructor
    · rintro ⟨a', b, others, hrest, -, hb, -⟩
      obtain ⟨-, rfl⟩ := List.cons.inj hrest
      exact absurd hb (hmore b rfl)
    · rintro ⟨a', b, others, hrest, -⟩
      cases hrest
  | a :: b :: rest =>
    have htouch : (a.shift k).span.stop = (b.shift k).span.start ↔
        a.span.stop = b.span.start := Nat.add_right_cancel_iff
    simp only [List.map_cons, List.cons_append, touchingDots_cons_cons, htouch]
    rfl

theorem IsNumber.shift {t : Token} {n : Nat} (h : IsNumber source t n)
    (ht : SameText k source source' t.span) : IsNumber source' (t.shift k) n :=
  ⟨h.kind, (congrArg (fun text => Parse.decimal text.toList) ht).trans h.value, h.lt⟩

theorem Repetition.shift {kind : NodeKind} {ys : List Token} (h : Repetition source kind ys)
    (hys : SameTexts k source source' ys) :
    Repetition source' kind (ys.map (Token.shift k)) := by
  cases h with
  | question hmark => exact .question hmark
  | star hmark => exact .star hmark
  | plus hmark => exact .plus hmark
  | exactly hopening hcount hclosing =>
    exact .exactly hopening (hcount.shift (hys _ (by simp))) hclosing
  | between hopening hlow hcomma hhigh hclosing =>
    exact .between hopening (hlow.shift (hys _ (by simp))) hcomma (hhigh.shift (hys _ (by simp)))
      hclosing
  | atLeast hopening hlow hcomma hclosing =>
    exact .atLeast hopening (hlow.shift (hys _ (by simp))) hcomma hclosing

/-- What is derived is derived in a larger source. -/
theorem Derives.shift {p : Phrase} {xs rest more : List Token} (h : Derives source p xs rest)
    (hxs : SameTexts k source source' xs) (hmore : NoDot more) :
    Derives source' (p.shift k) (xs.map (Token.shift k)) (rest.map (Token.shift k) ++ more) := by
  induction h with
  | @wildcard dot rest hdot => exact @Derives.wildcard source' (dot.shift k) _ hdot
  | @reference name rest hname => exact @Derives.reference source' (name.shift k) _ hname
  | @character quote rest b hquote hdots hbytes =>
    rw [Token.text, ← hxs quote List.mem_cons_self] at hbytes
    exact @Derives.character source' (quote.shift k) _ b hquote
      (mt (touchingDots_shift hmore).1 hdots) hbytes
  | @string quote rest bs hquote hdots hbytes hlength =>
    rw [Token.text, ← hxs quote List.mem_cons_self] at hbytes
    exact @Derives.string source' (quote.shift k) _ bs hquote
      (mt (touchingDots_shift hmore).1 hdots) hbytes hlength
  | @range low dot dot' high rest l h hlow hdots hhigh hl hh =>
    rw [Token.text, ← hxs low (by simp)] at hl
    rw [Token.text, ← hxs high (by simp)] at hh
    have hdots' : TouchingDots [dot.shift k, dot'.shift k] :=
      touchingDots_cons_cons.2 ((touchingDots_cons_cons.1 hdots).imp_right
        (And.imp_right (congrArg (· + k))))
    have hrange := @Derives.range source' (low.shift k) _ _ (high.shift k)
      (rest.map (Token.shift k) ++ more) l h hlow hdots' hhigh hl hh
    have hspan : (low.shift k).span.join (high.shift k).span = (low.span.join high.span).shift k :=
      Span.join_shift k low.span high.span
    rw [hspan] at hrange
    exact hrange
  | @group opening closing xs rest bs hopening hclosing hinner ih =>
    have hinner' := ih (SameTexts.cons.1 (SameTexts.append.1 hxs).1).2
    have hgroup := @Derives.group source' (opening.shift k) (closing.shift k) _ _ _
      hopening hclosing hinner'
    rw [Token.cover_shift k hinner.ne_nil, Branch.bracket_shift] at hgroup
    simpa [Phrase.shift] using hgroup
  | once _ ih => exact .once (ih hxs)
  | @repeated kind t xs ys rest hitem hrepetition ih =>
    obtain ⟨hxs, hys⟩ := SameTexts.append.1 hxs
    have hitem' := ih hxs
    rw [List.map_append, List.append_assoc] at hitem'
    have hrepeated := Derives.repeated hitem' (hrepetition.shift hys)
    rw [← List.map_append, Token.cover_shift k (by simp [hrepetition.ne_nil])] at hrepeated
    exact hrepeated
  | last _ ih => exact .last (ih hxs)
  | @cons t ts xs ys rest _ _ ih ih' =>
    obtain ⟨hxs, hys⟩ := SameTexts.append.1 hxs
    have hitem := ih hxs
    rw [List.map_append, List.append_assoc] at hitem
    have hcons := Derives.cons hitem (ih' hys)
    rw [← List.map_append] at hcons
    exact hcons
  | @branch ts xs rest hsequence ih =>
    have hbranch := Derives.branch (ih hxs)
    rw [Token.cover_shift k hsequence.ne_nil] at hbranch
    exact hbranch
  | @choice ts bs pipe xs ys rest hsequence hpipe _ ih ih' =>
    obtain ⟨hxs, hpipes⟩ := SameTexts.append.1 hxs
    have hsequence' := ih hxs
    rw [List.map_append, List.append_assoc] at hsequence'
    have hchoice := @Derives.choice source' _ _ (pipe.shift k) _ _ _ hsequence' hpipe
      (ih' (SameTexts.cons.1 hpipes).2)
    rw [Token.cover_shift k hsequence.ne_nil] at hchoice
    simpa [Phrase.shift, Branch.shift] using hchoice

theorem DerivesAll.shift_append {tokens more : List Token} {ts us : List Tree}
    (h : DerivesAll source tokens ts) (htokens : SameTexts k source source' tokens)
    (hmore : DerivesAll source' more us) :
    DerivesAll source' (tokens.map (Token.shift k) ++ more) (ts.map (Tree.shift k) ++ us) := by
  have hno : NoDot more := by
    cases hmore with
    | nil => simp [NoDot]
    | definition hname => simp [NoDot, hname]
  induction h with
  | nil => exact hmore
  | @definition name equal xs rest bs ts hname hequal hbody _ ih =>
    obtain ⟨hdefinition, hrest⟩ := SameTexts.append.1 htokens
    have hxs := (SameTexts.cons.1 (SameTexts.cons.1 hdefinition).2).2
    have hbody' := hbody.shift hxs hno
    have hall := @DerivesAll.definition source' (name.shift k) (equal.shift k) _ _ _ _
      hname hequal hbody' (ih hrest)
    have hcover : Token.cover (name.shift k :: equal.shift k :: xs.map (Token.shift k)) =
        (Token.cover (name :: equal :: xs)).shift k :=
      Token.cover_shift k (List.cons_ne_nil name (equal :: xs))
    rw [hcover, Token.cover_shift k hbody.ne_nil, Branch.splice_shift] at hall
    simpa [Tree.shift_node, Tree.shift_leaf] using hall

theorem DerivesAll.names {tokens : List Token} {ts : List Tree} {P : Span → Prop}
    (h : DerivesAll source tokens ts) (htokens : ∀ t ∈ tokens, P t.span) :
    ∀ t ∈ ts, t.Names P := by
  induction h with
  | nil => exact List.forall_mem_nil _
  | definition hname hequal hbody _ ih =>
    obtain ⟨hdefinition, hrest⟩ := List.forall_mem_append.1 htokens
    obtain ⟨hdeclared, hbody'⟩ := List.forall_mem_cons.1 hdefinition
    refine List.forall_mem_cons.2 ⟨(Tree.names_node (by decide)).2 ?_, ih hrest⟩
    refine List.forall_mem_cons.2 ⟨Tree.names_leaf hdeclared, Branch.names_splice ?_ _⟩
    exact hbody.names (List.forall_mem_cons.1 hbody').2

end Shift

end LexicalPatterns
