import LexicalPatterns.Proofs.Syntax.Grammar
import LexicalPatterns.Proofs.Syntax.Placement
import LexicalPatterns.Proofs.Syntax.Positions
import LexicalPatterns.Proofs.Tokens.Tiling

/-!
# Spans in forests

The spans in the forest of a source nest. Each is a span of the source and covers the spans of the
children, which stand one behind the other, as the definitions do. Names have the spans of
identifiers, and every leaf has the span of the tokens that it is made of.
-/

namespace LexicalPatterns

namespace Forest

/-- Whether the span of one node ends before that of another starts. -/
def Before (f : Forest) (i j : Nat) : Prop :=
  ∃ m n, f.nodes[i]? = some m ∧ f.nodes[j]? = some n ∧ m.span.Before n.span

/-- How spans stand in the forest of a source. No span is empty or cuts characters. A node covers
its children, which stand one behind the other, as the definitions do. Names are identifiers, and
nodes without children are made of all the tokens from one to another. -/
structure Spanned (source : String) (tokens : List Token) (f : Forest) : Prop where
  fits : ∀ n ∈ f.nodes, n.span.start < n.span.stop ∧ n.span.Fits source
  nested : ∀ i n, f.nodes[i]? = some n → ∀ j ∈ f.children i,
    ∃ m, f.nodes[j]? = some m ∧ n.span.Contains m.span
  children_ordered : ∀ i, (f.children i).Pairwise f.Before
  definitions : ∀ i ∈ f.roots, ∃ n, f.nodes[i]? = some n ∧ n.kind = .definition
  definitions_ordered : f.roots.Pairwise f.Before
  names : ∀ n ∈ f.nodes, n.kind = .declaration ∨ n.kind = .reference →
    ⟨.identifier, n.span⟩ ∈ tokens ∧ tokenize (n.span.text source) =
      .ok [⟨.identifier, ⟨0, (n.span.text source).utf8ByteSize⟩⟩]
  leaves : ∀ n ∈ f.nodes, n.childCount = 0 →
    ∃ xs, xs <:+: tokens ∧ LeafOf source n.kind xs ∧ n.span = Token.cover xs

variable {source : String} {tokens : List Token} {f : Forest} {front after : List Node}
  {ts : List Tree} {i : Nat} {n : Node}

section Starts

variable (hf : f.nodes = front ++ (Tree.nodesAll ts ++ after))

include hf

theorem exists_mem_of_mem_starts (hi : i ∈ Tree.starts front.length ts) :
    ∃ t ∈ ts, f.nodes[i]? = some ⟨t.kind, t.span, t.children.length⟩ := by
  have hmem := List.mem_map_of_mem (f := fun i => f.nodes[i]?) hi
  rw [hf, Tree.map_getElem?_starts, ← hf] at hmem
  obtain ⟨t, ht, heq⟩ := List.mem_map.1 hmem
  exact ⟨t, ht, heq.symm⟩

theorem pairwise_before_starts (h : (ts.map Tree.span).Pairwise Span.Before) :
    (Tree.starts front.length ts).Pairwise f.Before := by
  have hroots : (ts.map fun t => some (Node.mk t.kind t.span t.children.length)).Pairwise
      fun a b => ∃ m n, a = some m ∧ b = some n ∧ m.span.Before n.span := by
    apply List.pairwise_map.2
    exact (List.pairwise_map.1 h).imp fun hbefore => ⟨_, _, rfl, rfl, hbefore⟩
  rw [← Tree.map_getElem?_starts front after ts, ← hf, List.pairwise_map] at hroots
  exact hroots

end Starts

theorem exists_node_placed (h : ∀ t ∈ ts, t.Placed source tokens)
    (hn : (ofTrees ts).nodes[i]? = some n) :
    ∃ front children after, (Tree.node n.kind n.span children).Placed source tokens ∧
      n.childCount = children.length ∧
      (ofTrees ts).nodes = front ++ (Tree.nodesAll children ++ after) ∧
      (ofTrees ts).children i = Tree.starts front.length children := by
  obtain ⟨hi, rfl⟩ := List.getElem?_eq_some_iff.1 hn
  obtain ⟨before, ⟨kind, span, children⟩, after, ht, hnodes, rfl, -⟩ :=
    Tree.exists_part (fun _ _ _ hnode => hnode.of_mem_children) h hi
  have hchildren := children_append before after (.node kind span children)
  rw [← hnodes] at hchildren
  rw [Tree.nodes] at hnodes
  have hroot : (ofTrees ts).nodes[before.length] = ⟨kind, span, children.length⟩ :=
    List.getElem_of_append hnodes rfl
  rw [hroot]
  refine ⟨before ++ [⟨kind, span, children.length⟩], children, after, ht, rfl, ?_, ?_⟩
  · rw [List.append_assoc]
    exact hnodes
  · rw [List.length_append]
    exact hchildren

end Forest

section Tokens

variable {source : String} {tokens : List Token} {t : Token} {span : Span}

theorem TokensTile.tokenize_text (h : TokensTile source tokens) (ht : t ∈ tokens)
    (hkind : t.kind = .identifier) :
    tokenize (t.text source) = .ok [⟨.identifier, ⟨0, (t.text source).utf8ByteSize⟩⟩] := by
  have hshape := h.shape t ht
  rw [hkind] at hshape
  cases hshape with
  | identifier hne hname _ => exact Shape.tokenize_eq (.identifier hne hname nofun)

/-- Whether a text is an identifier. -/
structure IsIdentifier (name : String) : Prop where
  ne_empty : name ≠ ""
  isNameChar : ∀ c ∈ name.toList, isNameChar c = true

theorem IsIdentifier.notMem {name : String} (h : IsIdentifier name) {c : Char}
    (hc : LexicalPatterns.isNameChar c = false) : c ∉ name.toList := by
  intro hmem
  simp [h.isNameChar c hmem] at hc

theorem TokensTile.isIdentifier (h : TokensTile source tokens)
    (ht : ⟨.identifier, span⟩ ∈ tokens) : IsIdentifier (span.text source) := by
  have hshape := h.shape _ ht
  cases hshape with
  | identifier hne hname _ => exact ⟨fun hempty => hne (congrArg String.toList hempty), hname⟩

theorem Covered.fits (h : Covered tokens span) (htile : TokensTile source tokens) :
    span.start < span.stop ∧ span.Fits source := by
  obtain ⟨xs, hxs, hne, rfl⟩ := h
  have hline : InLine tokens := ⟨htile.nonempty, htile.ordered⟩
  have hlt := (hline.sublist hxs.sublist).cover_nonempty hne
  obtain ⟨a, ha, hstart⟩ := exists_start_cover hne
  obtain ⟨b, hb, hstop⟩ := exists_stop_cover hne
  have hfirst := htile.fits a (hxs.subset ha)
  have hlast := htile.fits b (hxs.subset hb)
  constructor
  · exact hlt
  · constructor
    · exact Nat.le_of_lt hlt
    · rw [hstop]
      exact hlast.stop_le
    · rw [hstart]
      exact hfirst.start
    · rw [hstop]
      exact hlast.stop

theorem LeafOf.exists_identifier {kind : NodeKind} {xs : List Token} (h : LeafOf source kind xs)
    (hkind : kind = .declaration ∨ kind = .reference) :
    ∃ t, t.kind = .identifier ∧ xs = [t] := by
  cases h with
  | declaration hname | reference hname => exact ⟨_, hname, rfl⟩
  | _ => simp at hkind

theorem Tree.Placed.identifier_mem {t : Tree} (h : t.Placed source tokens)
    (hkind : t.kind = .declaration ∨ t.kind = .reference) : ⟨.identifier, t.span⟩ ∈ tokens := by
  obtain ⟨xs, hxs, hleaf, hspan⟩ := h.leaf (.inr hkind)
  obtain ⟨⟨kind, span⟩, rfl, rfl⟩ := hleaf.exists_identifier hkind
  have hname : t.span = span := hspan
  rw [hname]
  exact hxs.subset List.mem_cons_self

end Tokens

namespace Forest

variable {source : String} {tokens : List Token} {f : Forest}

/-- The spans in the forest that is parsed from the tokens of a source nest. -/
theorem spanned_of_ofTokens? (htokens : tokenize source = .ok tokens)
    (h : ofTokens? source tokens = .ok f) : Spanned source tokens f := by
  have htile := tokensTile_of_tokenize htokens
  obtain ⟨ts, hts, rfl⟩ := derivesAll_of_ofTokens? h
  obtain ⟨hplaced, hordered⟩ := hts.placed ⟨htile.nonempty, htile.ordered⟩
  have hroots : (ofTrees ts).nodes = [] ++ (Tree.nodesAll ts ++ []) := (List.append_nil _).symm
  constructor
  case fits =>
    intro n hn
    obtain ⟨i, hi⟩ := List.getElem?_of_mem hn
    obtain ⟨_, _, _, hnode, -⟩ := exists_node_placed hplaced hi
    exact hnode.covered.fits htile
  case nested =>
    intro i n hn j hj
    obtain ⟨_, _, _, hnode, -, hnodes, hchildren⟩ := exists_node_placed hplaced hn
    rw [hchildren] at hj
    obtain ⟨t, ht, hroot⟩ := exists_mem_of_mem_starts hnodes hj
    exact ⟨_, hroot, hnode.spread.inside t.span (List.mem_map_of_mem ht)⟩
  case children_ordered =>
    intro i
    cases hi : (ofTrees ts).nodes[i]? with
    | none =>
      rw [Forest.children, hi]
      exact .nil
    | some n =>
      obtain ⟨_, _, _, hnode, -, hnodes, hchildren⟩ := exists_node_placed hplaced hi
      rw [hchildren]
      exact pairwise_before_starts hnodes hnode.spread.ordered
  case definitions =>
    intro i hi
    rw [roots_ofTrees] at hi
    obtain ⟨t, ht, hroot⟩ := exists_mem_of_mem_starts hroots hi
    exact ⟨_, hroot, hts.kind_eq t ht⟩
  case definitions_ordered =>
    rw [roots_ofTrees]
    exact pairwise_before_starts hroots hordered
  case names =>
    intro n hn hkind
    obtain ⟨i, hi⟩ := List.getElem?_of_mem hn
    obtain ⟨_, _, _, hnode, -⟩ := exists_node_placed hplaced hi
    obtain ⟨xs, hxs, hleaf, hspan⟩ := hnode.leaf (.inr hkind)
    obtain ⟨⟨kind, span⟩, rfl, rfl⟩ := hleaf.exists_identifier hkind
    have hmem : ⟨.identifier, n.span⟩ ∈ tokens := by
      have hname : n.span = span := hspan
      rw [hname]
      exact hxs.subset List.mem_cons_self
    exact ⟨hmem, htile.tokenize_text hmem rfl⟩
  case leaves =>
    intro n hn hcount
    obtain ⟨i, hi⟩ := List.getElem?_of_mem hn
    obtain ⟨_, _, _, hnode, hchildren, -⟩ := exists_node_placed hplaced hi
    rw [hcount] at hchildren
    exact hnode.leaf (.inl (List.length_eq_zero_iff.1 hchildren.symm))

/-- The repetition covers the brackets, which the group in it leaves out. -/
theorem spanned_of_ofTokens?_group :
    let source := "a=['x'b]+ b=."
    let tokens : List Token := [⟨.identifier, ⟨0, 1⟩⟩, ⟨.mark .equal, ⟨1, 2⟩⟩,
      ⟨.mark .openBracket, ⟨2, 3⟩⟩, ⟨.quote, ⟨3, 6⟩⟩, ⟨.identifier, ⟨6, 7⟩⟩,
      ⟨.mark .closeBracket, ⟨7, 8⟩⟩, ⟨.mark .plus, ⟨8, 9⟩⟩, ⟨.identifier, ⟨10, 11⟩⟩,
      ⟨.mark .equal, ⟨11, 12⟩⟩, ⟨.mark .dot, ⟨12, 13⟩⟩]
    let f : Forest := ⟨[⟨.definition, ⟨0, 9⟩, 2⟩, ⟨.declaration, ⟨0, 1⟩, 0⟩,
      ⟨.atLeast 1, ⟨2, 9⟩, 1⟩, ⟨.group, ⟨3, 7⟩, 2⟩, ⟨.character 120, ⟨3, 6⟩, 0⟩,
      ⟨.reference, ⟨6, 7⟩, 0⟩, ⟨.definition, ⟨10, 13⟩, 2⟩, ⟨.declaration, ⟨10, 11⟩, 0⟩,
      ⟨.wildcard, ⟨12, 13⟩, 0⟩]⟩
    tokenize source = .ok tokens ∧ ofTokens? source tokens = .ok f ∧ Spanned source tokens f := by
  intro source tokens f
  have htokens : tokenize source = .ok tokens := by cbv
  have hforest : ofTokens? source tokens = .ok f := by cbv
  exact ⟨htokens, hforest, spanned_of_ofTokens? htokens hforest⟩

end Forest
end LexicalPatterns
