import LexicalPatterns.Proofs.Syntax.Derivation

/-!
# Where trees stand in their tokens

A derived node has the span of consecutive tokens, from the start of the first to the end of the
last. As tokens stand one behind the other, so do the children of a node, all within its span. A
node without children is made of the tokens that its kind tells.
-/

namespace LexicalPatterns

namespace Span

/-- Whether a span covers another. -/
def Contains (s t : Span) : Prop := s.start ≤ t.start ∧ t.stop ≤ s.stop

def Before (s t : Span) : Prop := s.stop ≤ t.start

theorem Contains.refl (s : Span) : s.Contains s := ⟨Nat.le_refl _, Nat.le_refl _⟩

theorem Contains.trans {s t u : Span} (h : s.Contains t) (h' : t.Contains u) : s.Contains u :=
  ⟨Nat.le_trans h.1 h'.1, Nat.le_trans h'.2 h.2⟩

end Span

/-- Whether spans stand one behind the other within another span. -/
structure Spread (s : Span) (parts : List Span) : Prop where
  inside : ∀ t ∈ parts, s.Contains t
  ordered : parts.Pairwise Span.Before

namespace Spread

variable {s s' t : Span} {ps qs : List Span}

theorem singleton (h : s.Contains t) : Spread s [t] := by
  constructor
  · exact List.forall_mem_singleton.2 h
  · exact List.pairwise_singleton _ _

theorem mono (h : Spread s ps) (hs : s'.Contains s) : Spread s' ps := by
  constructor
  · exact fun t ht => hs.trans (h.inside t ht)
  · exact h.ordered

theorem append (h : Spread s ps) (h' : Spread s' qs) (hbefore : s.Before s') (ht : t.Contains s)
    (ht' : t.Contains s') : Spread t (ps ++ qs) := by
  constructor
  · exact List.forall_mem_append.2 ⟨(h.mono ht).inside, (h'.mono ht').inside⟩
  · refine List.pairwise_append.2 ⟨h.ordered, h'.ordered, fun p hp q hq => ?_⟩
    exact Nat.le_trans (h.inside p hp).2 (Nat.le_trans hbefore (h'.inside q hq).1)

theorem narrow {α : Type} {xs : List α} {f g : α → Span} (h : Spread s (xs.map f))
    (hg : ∀ x ∈ xs, (f x).Contains (g x)) : Spread s (xs.map g) := by
  constructor
  · refine List.forall_mem_map.2 fun x hx => ?_
    exact (h.inside _ (List.mem_map_of_mem hx)).trans (hg x hx)
  · rw [List.pairwise_map]
    refine (List.pairwise_map.1 h.ordered).imp_of_mem fun {x y} hx hy hbefore => ?_
    exact Nat.le_trans (hg x hx).2 (Nat.le_trans hbefore (hg y hy).1)

end Spread

/-- Whether tokens stand one behind the other and none is empty. -/
structure InLine (xs : List Token) : Prop where
  nonempty : ∀ t ∈ xs, t.span.start < t.span.stop
  ordered : xs.Pairwise fun t u => t.span.stop ≤ u.span.start

section Covers

variable {xs ys zs : List Token}

theorem exists_start_cover (h : xs ≠ []) : ∃ t ∈ xs, (Token.cover xs).start = t.span.start := by
  obtain ⟨x, xs, rfl⟩ := List.exists_cons_of_ne_nil h
  exact ⟨x, List.mem_cons_self, rfl⟩

theorem exists_stop_cover (h : xs ≠ []) : ∃ t ∈ xs, (Token.cover xs).stop = t.span.stop := by
  refine ⟨xs.getLast h, List.getLast_mem h, ?_⟩
  rw [Token.cover, List.getLast?_eq_some_getLast h]
  rfl

theorem InLine.sublist (h : InLine xs) (hys : ys.Sublist xs) : InLine ys := by
  constructor
  · exact fun t ht => h.nonempty t (hys.subset ht)
  · exact h.ordered.sublist hys

theorem InLine.left (h : InLine (xs ++ ys)) : InLine xs := h.sublist (List.sublist_append_left _ _)

theorem InLine.right (h : InLine (xs ++ ys)) : InLine ys :=
  h.sublist (List.sublist_append_right _ _)

theorem InLine.cover_contains_mem (h : InLine xs) {t : Token} (ht : t ∈ xs) :
    (Token.cover xs).Contains t.span := by
  constructor
  · obtain ⟨x, xs, rfl⟩ := List.exists_cons_of_ne_nil (List.ne_nil_of_mem ht)
    rcases List.mem_cons.1 ht with rfl | hmem
    · exact Nat.le_refl _
    · have hx := h.nonempty x List.mem_cons_self
      have hbefore := (List.pairwise_cons.1 h.ordered).1 t hmem
      change x.span.start ≤ t.span.start
      omega
  · obtain ⟨front, last, rfl⟩ : ∃ front last, xs = front ++ [last] :=
      ⟨_, _, (List.dropLast_concat_getLast (List.ne_nil_of_mem ht)).symm⟩
    have hstop : (Token.cover (front ++ [last])).stop = last.span.stop := by simp [Token.cover]
    rw [hstop]
    rcases List.mem_append.1 ht with hmem | hmem
    · have hlast := h.right.nonempty last (List.mem_singleton_self last)
      have hbefore := (List.pairwise_append.1 h.ordered).2.2 t hmem last (List.mem_singleton_self _)
      omega
    · obtain rfl := List.mem_singleton.1 hmem
      exact Nat.le_refl _

theorem InLine.cover_contains (h : InLine xs) (hzs : zs <:+: xs) (hne : zs ≠ []) :
    (Token.cover xs).Contains (Token.cover zs) := by
  obtain ⟨a, ha, hstart⟩ := exists_start_cover hne
  obtain ⟨b, hb, hstop⟩ := exists_stop_cover hne
  constructor
  · rw [hstart]
    exact (h.cover_contains_mem (hzs.subset ha)).1
  · rw [hstop]
    exact (h.cover_contains_mem (hzs.subset hb)).2

theorem InLine.cover_nonempty (h : InLine xs) (hne : xs ≠ []) :
    (Token.cover xs).start < (Token.cover xs).stop := by
  obtain ⟨t, ht, hstart⟩ := exists_start_cover hne
  rw [hstart]
  exact Nat.lt_of_lt_of_le (h.nonempty t ht) (h.cover_contains_mem ht).2

theorem InLine.cover_before (h : InLine (xs ++ ys)) (hxs : xs ≠ []) (hys : ys ≠ []) :
    (Token.cover xs).Before (Token.cover ys) := by
  obtain ⟨x, hx, hstop⟩ := exists_stop_cover hxs
  obtain ⟨y, hy, hstart⟩ := exists_start_cover hys
  rw [Span.Before, hstop, hstart]
  exact (List.pairwise_append.1 h.ordered).2.2 x hx y hy

theorem within_left (xs ys : List Token) : xs <:+: xs ++ ys := ⟨[], ys, rfl⟩

theorem within_right (xs ys : List Token) : ys <:+: xs ++ ys := ⟨xs, [], by simp⟩

end Covers

/-- Whether parts stand one behind the other within a span, and each of them stands well. -/
structure Row {α : Type} (part : α → Span) (P : α → Prop) (s : Span) (as : List α) : Prop where
  ne_nil : as ≠ []
  spread : Spread s (as.map part)
  each : ∀ a ∈ as, P a

namespace Row

variable {α : Type} {part : α → Span} {P Q R : α → Prop} {s s' : Span} {a : α} {as as' : List α}
  {xs ys : List Token}

theorem mono (h : Row part P s as) (hP : ∀ a, P a → Q a) (hs : s'.Contains s) :
    Row part Q s' as := by
  constructor
  · exact h.ne_nil
  · exact h.spread.mono hs
  · exact fun a ha => hP a (h.each a ha)

theorem singleton (h : P a) (hs : s.Contains (part a)) : Row part P s [a] := by
  constructor
  · exact List.cons_ne_nil _ _
  · exact .singleton hs
  · exact List.forall_mem_singleton.2 h

theorem singleton_inv (h : Row part P s [a]) : P a ∧ s.Contains (part a) :=
  ⟨h.each a List.mem_cons_self, h.spread.inside (part a) List.mem_cons_self⟩

theorem widen (h : Row part P (Token.cover xs) as) (hP : ∀ a, P a → Q a) (hline : InLine ys)
    (hxs : xs <:+: ys) (hne : xs ≠ []) : Row part Q (Token.cover ys) as :=
  h.mono hP (hline.cover_contains hxs hne)

theorem append_cover (h : Row part P (Token.cover xs) as) (h' : Row part Q (Token.cover ys) as')
    (hP : ∀ a, P a → R a) (hQ : ∀ a, Q a → R a) (hline : InLine (xs ++ ys)) (hxs : xs ≠ [])
    (hys : ys ≠ []) : Row part R (Token.cover (xs ++ ys)) (as ++ as') := by
  constructor
  · exact List.append_ne_nil_of_left_ne_nil h.ne_nil as'
  · rw [List.map_append]
    apply h.spread.append h'.spread (hline.cover_before hxs hys)
    · exact hline.cover_contains (within_left xs ys) hxs
    · exact hline.cover_contains (within_right xs ys) hys
  · intro a ha
    rcases List.mem_append.1 ha with has | has'
    · exact hP a (h.each a has)
    · exact hQ a (h'.each a has')

end Row

/-- The tokens that a node without children is made of. -/
inductive LeafOf (source : String) : NodeKind → List Token → Prop
  | declaration {name : Token} : name.kind = .identifier → LeafOf source .declaration [name]
  | reference {name : Token} : name.kind = .identifier → LeafOf source .reference [name]
  | wildcard {dot : Token} : dot.kind = .mark .dot → LeafOf source .wildcard [dot]
  | character {quote : Token} {b : UInt8} : quote.kind = .quote →
      Quote.bytes (quote.text source) = [b] → LeafOf source (.character b) [quote]
  | string {quote : Token} {bs : List UInt8} : quote.kind = .quote →
      Quote.bytes (quote.text source) = bs → LeafOf source (.string bs) [quote]
  | range {low dot dot' high : Token} {l h : UInt8} : low.kind = .quote →
      TouchingDots [dot, dot'] → high.kind = .quote → Quote.bytes (low.text source) = [l] →
      Quote.bytes (high.text source) = [h] → LeafOf source (.range l h) [low, dot, dot', high]

/-- Whether a span runs from the start of a token to the end of the same or a later one. -/
def Covered (tokens : List Token) (span : Span) : Prop :=
  ∃ xs, xs <:+: tokens ∧ xs ≠ [] ∧ span = Token.cover xs

/-- Whether a tree stands on tokens. Each node has the span of consecutive tokens, and its children
stand one behind the other within it. Nodes without children are made of these tokens, and so are
names. -/
inductive Tree.Placed (source : String) (tokens : List Token) : Tree → Prop
  | node {kind : NodeKind} {span : Span} {children : List Tree} (covered : Covered tokens span)
      (leaf : children = [] ∨ kind = .declaration ∨ kind = .reference →
        ∃ xs, xs <:+: tokens ∧ LeafOf source kind xs ∧ span = Token.cover xs)
      (spread : Spread span (children.map Tree.span))
      (placed : ∀ t ∈ children, t.Placed source tokens) :
      Placed source tokens (.node kind span children)

abbrev TreeRow (source : String) (tokens : List Token) : Span → List Tree → Prop :=
  Row Tree.span (Tree.Placed source tokens)

structure Branch.Placed (source : String) (tokens : List Token) (r : Branch) : Prop where
  covered : Covered tokens r.span
  row : TreeRow source tokens r.span r.items

abbrev BranchRow (source : String) (tokens : List Token) : Span → List Branch → Prop :=
  Row Branch.span (Branch.Placed source tokens)

/-- Whether the trees of a phrase stand on the tokens that it is made of. -/
def Phrase.Placed (source : String) (xs : List Token) : Phrase → Prop
  | unit t => TreeRow source xs (Token.cover xs) [t]
  | item t => TreeRow source xs (Token.cover xs) [t]
  | sequence ts => TreeRow source xs (Token.cover xs) ts
  | alternation bs => BranchRow source xs (Token.cover xs) bs

section Trees

variable {source : String} {xs ys tokens : List Token} {span span' : Span} {t : Tree}
  {ts : List Tree} {r : Branch} {bs : List Branch} {kind : NodeKind}

theorem covered_self (hne : xs ≠ []) : Covered xs (Token.cover xs) :=
  ⟨xs, List.infix_refl xs, hne, rfl⟩

theorem Covered.mono (h : Covered xs span) (hxs : xs <:+: tokens) : Covered tokens span := by
  obtain ⟨zs, hzs, hne, hspan⟩ := h
  exact ⟨zs, hzs.trans hxs, hne, hspan⟩

theorem Covered.before (h : Covered xs span) (h' : Covered ys span') (hline : InLine (xs ++ ys)) :
    span.Before span' := by
  obtain ⟨us, hus, husne, rfl⟩ := h
  obtain ⟨vs, hvs, hvsne, rfl⟩ := h'
  exact (hline.sublist (hus.sublist.append hvs.sublist)).cover_before husne hvsne

theorem Tree.Placed.mono (h : t.Placed source xs) (hxs : xs <:+: tokens) :
    t.Placed source tokens := by
  induction h with
  | node covered leaf spread _ ih =>
    apply Tree.Placed.node (covered.mono hxs) _ spread ih
    intro hkind
    obtain ⟨zs, hzs, hleaf, hspan⟩ := leaf hkind
    exact ⟨zs, hzs.trans hxs, hleaf, hspan⟩

theorem Tree.Placed.covered (h : t.Placed source tokens) : Covered tokens t.span := by
  cases h with
  | node covered => exact covered

theorem Tree.Placed.leaf (h : t.Placed source tokens)
    (ht : t.children = [] ∨ t.kind = .declaration ∨ t.kind = .reference) :
    ∃ xs, xs <:+: tokens ∧ LeafOf source t.kind xs ∧ t.span = Token.cover xs := by
  cases h with
  | node _ leaf => exact leaf ht

theorem Tree.Placed.spread (h : t.Placed source tokens) :
    Spread t.span (t.children.map Tree.span) := by
  cases h with
  | node _ _ spread => exact spread

theorem Tree.Placed.of_mem_children (h : t.Placed source tokens) :
    ∀ u ∈ t.children, u.Placed source tokens := by
  cases h with
  | node _ _ _ placed => exact placed

theorem Branch.Placed.mono (h : r.Placed source xs) (hxs : xs <:+: tokens) :
    r.Placed source tokens := by
  constructor
  · exact h.covered.mono hxs
  · exact h.row.mono (fun _ ht => ht.mono hxs) (.refl _)

theorem LeafOf.ne_nil (h : LeafOf source kind xs) : xs ≠ [] := by
  cases h <;> exact List.cons_ne_nil _ _

theorem LeafOf.row (h : LeafOf source kind xs) :
    TreeRow source xs (Token.cover xs) [.leaf kind (Token.cover xs)] := by
  refine .singleton (.node (covered_self h.ne_nil) (fun _ => ?_) ⟨nofun, .nil⟩ nofun) (.refl _)
  exact ⟨xs, List.infix_refl xs, h, rfl⟩

theorem Row.node (h : TreeRow source tokens span ts) (hspan : Covered tokens span)
    (hkind : ¬ (kind = .declaration ∨ kind = .reference)) :
    (Tree.node kind span ts).Placed source tokens := by
  apply Tree.Placed.node hspan _ h.spread h.each
  rintro (hnil | hname)
  · exact absurd hnil h.ne_nil
  · exact absurd hname hkind

theorem Branch.Placed.tree (h : r.Placed source tokens) :
    r.tree.Placed source tokens ∧ r.span.Contains r.tree.span := by
  obtain ⟨items, span⟩ := r
  match items, h with
  | [], h => exact absurd rfl h.row.ne_nil
  | [_], h => exact h.row.singleton_inv
  | _ :: _ :: _, h => exact ⟨h.row.node h.covered (by simp), .refl _⟩

theorem Row.choice (h : BranchRow source xs (Token.cover xs) bs) (hxs : xs ≠ []) :
    (Tree.node .choice (Token.cover xs) (bs.map Branch.tree)).Placed source xs := by
  apply Row.node _ (covered_self hxs) (by simp)
  constructor
  · exact mt List.map_eq_nil_iff.1 h.ne_nil
  · rw [List.map_map]
    exact h.spread.narrow fun r hr => (h.each r hr).tree.2
  · exact List.forall_mem_map.2 fun r hr => (h.each r hr).tree.1

/-- Branches stand on their tokens as one tree. -/
theorem Row.bracket (h : BranchRow source xs (Token.cover xs) bs) (hxs : xs ≠ []) :
    TreeRow source xs (Token.cover xs) [Branch.bracket bs (Token.cover xs)] := by
  match bs, h with
  | [], h => exact absurd rfl h.ne_nil
  | [_], h =>
    obtain ⟨hplaced, hspan⟩ := h.singleton_inv
    exact .singleton hplaced.tree.1 (hspan.trans hplaced.tree.2)
  | _ :: _ :: _, h => exact .singleton (h.choice hxs) (.refl _)

theorem Row.splice (h : BranchRow source xs (Token.cover xs) bs) (hxs : xs ≠ []) :
    TreeRow source xs (Token.cover xs) (Branch.splice bs (Token.cover xs)) := by
  match bs, h with
  | [], h => exact absurd rfl h.ne_nil
  | [_], h =>
    obtain ⟨hplaced, hspan⟩ := h.singleton_inv
    exact hplaced.row.mono (fun _ ht => ht) hspan
  | _ :: _ :: _, h => exact .singleton (h.choice hxs) (.refl _)

theorem Row.branch (h : TreeRow source xs (Token.cover xs) ts) (hxs : xs ≠ []) :
    BranchRow source xs (Token.cover xs) [⟨ts, Token.cover xs⟩] :=
  .singleton ⟨covered_self hxs, h⟩ (.refl _)

theorem InLine.join_eq_cover {low dot dot' high : Token}
    (h : InLine [low, dot, dot', high]) :
    low.span.join high.span = Token.cover [low, dot, dot', high] := by
  have hlow := h.cover_contains_mem (t := low) (by simp)
  have hhigh := h.cover_contains_mem (t := high) (by simp)
  rw [Span.join, Nat.min_eq_left, Nat.max_eq_right]
  · rfl
  · exact hlow.2
  · exact hhigh.1

/-- Each step of a derivation places a phrase around the phrases that it is made of. -/
theorem Derives.placed {p : Phrase} {rest : List Token} (h : Derives source p xs rest)
    (hline : InLine xs) : p.Placed source xs := by
  induction h with
  | wildcard hdot => exact (LeafOf.wildcard hdot).row
  | reference hname => exact (LeafOf.reference hname).row
  | character hquote _ hbytes => exact (LeafOf.character hquote hbytes).row
  | string hquote _ hbytes _ => exact (LeafOf.string hquote hbytes).row
  | range hlow hdots hhigh hbytes hbytes' =>
    rw [hline.join_eq_cover]
    exact (LeafOf.range hlow hdots hhigh hbytes hbytes').row
  | @group opening closing xs rest bs _ _ h ih =>
    have hxs : xs <:+: opening :: xs ++ [closing] := ⟨[opening], [closing], rfl⟩
    have hrow := (ih (hline.sublist hxs.sublist)).bracket h.ne_nil
    exact hrow.widen (fun _ ht => ht.mono hxs) hline hxs h.ne_nil
  | once _ ih => exact ih hline
  | @repeated kind t xs ys rest h hrepetition ih =>
    have hxs := within_left xs ys
    have hrow := (ih hline.left).widen (fun _ ht => ht.mono hxs) hline hxs h.ne_nil
    refine .singleton (hrow.node (covered_self ?_) ?_) (.refl _)
    · exact List.append_ne_nil_of_left_ne_nil h.ne_nil ys
    · cases hrepetition <;> simp
  | last _ ih => exact ih hline
  | @cons t ts xs ys rest h h' ih ih' =>
    exact (ih hline.left).append_cover (ih' hline.right) (fun _ ht => ht.mono (within_left xs ys))
      (fun _ ht => ht.mono (within_right xs ys)) hline h.ne_nil h'.ne_nil
  | branch h ih => exact (ih hline).branch h.ne_nil
  | @choice ts bs pipe xs ys rest h _ h' ih ih' =>
    have hys := within_right [pipe] ys
    have hbranches := (ih' (hline.right.sublist hys.sublist)).widen
      (fun _ hr => hr.mono hys) hline.right hys h'.ne_nil
    exact ((ih hline.left).branch h.ne_nil).append_cover hbranches
      (fun _ hr => hr.mono (within_left xs _)) (fun _ hr => hr.mono (within_right xs _)) hline
      h.ne_nil (List.cons_ne_nil _ _)

theorem Derives.definition_placed {name equal : Token} {rest : List Token}
    (h : Derives source (.alternation bs) xs rest) (hname : name.kind = .identifier)
    (hline : InLine (name :: equal :: xs)) :
    (Tree.node .definition (Token.cover (name :: equal :: xs))
      (.leaf .declaration name.span :: Branch.splice bs (Token.cover xs))).Placed source
        (name :: equal :: xs) := by
  have hall : InLine ([name] ++ equal :: xs) := hline
  have hxs := within_right [equal] xs
  have hbody := (h.placed (hall.right.sublist hxs.sublist)).splice h.ne_nil
  have hitems := hbody.widen (fun _ ht => ht.mono hxs) hall.right hxs h.ne_nil
  have hrow := (LeafOf.declaration hname).row.append_cover hitems
    (fun _ ht => ht.mono (within_left _ (equal :: xs)))
    (fun _ ht => ht.mono (within_right [name] _)) hall (List.cons_ne_nil _ _)
    (List.cons_ne_nil _ _)
  exact hrow.node (covered_self (List.cons_ne_nil _ _)) (by simp)

theorem DerivesAll.kind_eq (h : DerivesAll source tokens ts) : ∀ t ∈ ts, t.kind = .definition := by
  induction h with
  | nil => exact nofun
  | definition _ _ _ _ ih =>
    intro t ht
    rcases List.mem_cons.1 ht with rfl | hts
    · rfl
    · exact ih t hts

/-- Definitions stand on their tokens, one behind the other. -/
theorem DerivesAll.placed (h : DerivesAll source tokens ts) (hline : InLine tokens) :
    (∀ t ∈ ts, t.Placed source tokens) ∧ (ts.map Tree.span).Pairwise Span.Before := by
  induction h with
  | nil => exact ⟨nofun, .nil⟩
  | @definition name equal xs rest bs ts hname _ hbody _ ih =>
    have hself := hbody.definition_placed hname hline.left
    obtain ⟨hplaced, hordered⟩ := ih hline.right
    constructor
    · intro t ht
      rcases List.mem_cons.1 ht with rfl | hts
      · exact hself.mono (within_left _ rest)
      · exact (hplaced t hts).mono (within_right _ rest)
    · rw [List.map_cons]
      refine .cons (List.forall_mem_map.2 fun t ht => ?_) hordered
      exact hself.covered.before (hplaced t ht).covered hline

end Trees
end LexicalPatterns
