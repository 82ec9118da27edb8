import LexicalPatterns.Batch
import LexicalPatterns.Proofs.Syntax.Completeness

/-!
# The language of sources

The sources that are parsed are those that the grammar derives, and the forest that is built is the
pre-order of the derived trees. No source stands for two lists of trees.
-/

namespace LexicalPatterns

variable {source : String} {tokens : List Token} {f : Forest} {ts ts' : List Tree}

theorem DerivesAll.ofTokens?_eq (h : DerivesAll source tokens ts) :
    Forest.ofTokens? source tokens = .ok (Forest.ofTrees ts) := by
  rw [Forest.ofTokens?, h.definitions_eq Builder.open_empty]
  exact congrArg Except.ok (Builder.finish_extend_empty ts)

/-- The grammar is not ambiguous. -/
theorem DerivesAll.unique (h : DerivesAll source tokens ts) (h' : DerivesAll source tokens ts') :
    ts = ts' :=
  Forest.ofTrees_injective (Except.ok.inj (h.ofTokens?_eq.symm.trans h'.ofTokens?_eq))

namespace Forest

theorem derivesAll_of_ofTokens? (h : ofTokens? source tokens = .ok f) :
    ∃ ts, DerivesAll source tokens ts ∧ f = ofTrees ts := by
  obtain ⟨built, hbuilt, rfl⟩ := map_eq_ok.1 h
  obtain ⟨ts, hts, rfl⟩ := Parse.derivesAll_of_definitions Builder.open_empty hbuilt
  exact ⟨ts, hts, Builder.finish_extend_empty ts⟩

/-- Tokens are parsed exactly where the grammar derives them, to the pre-order of the derived
trees. -/
theorem ofTokens?_eq_ok_iff (source : String) (tokens : List Token) (f : Forest) :
    ofTokens? source tokens = .ok f ↔ ∃ ts, DerivesAll source tokens ts ∧ f = ofTrees ts := by
  constructor
  · exact derivesAll_of_ofTokens?
  · rintro ⟨ts, hts, rfl⟩
    exact hts.ofTokens?_eq

example :
    let source := "a='x'|['y''z']*"
    ((tokenize source).toOption.bind fun tokens => (ofTokens? source tokens).toOption).map
        (·.summary source) =
      some "(def decl:a (or char:'x' (repeat\x7b0,\x7d (group char:'y' char:'z'))))" := by
  cbv

end Forest

/-- The definitions of a source are the trees that are derived from its tokens. -/
theorem Batch.definitions_eq_ok_iff {source : String} {fs : List Forest} :
    definitions source = .ok fs ↔ ∃ tokens ts, tokenize source = .ok tokens ∧
      DerivesAll source tokens ts ∧ fs = ts.map fun t => .ofTrees [t] := by
  unfold definitions
  constructor
  · intro h
    obtain ⟨tokens, htokens, h⟩ := bind_eq_ok.1 h
    obtain ⟨forest, hforest, h⟩ := bind_eq_ok.1 h
    obtain ⟨ts, hts, rfl⟩ := Forest.derivesAll_of_ofTokens? (mapError_eq_ok.1 hforest)
    refine ⟨tokens, ts, mapError_eq_ok.1 htokens, hts, ?_⟩
    rw [← Forest.split_ofTrees]
    exact (Except.ok.inj h).symm
  · rintro ⟨tokens, ts, htokens, hts, rfl⟩
    refine bind_eq_ok.2 ⟨tokens, mapError_eq_ok.2 htokens, bind_eq_ok.2
      ⟨.ofTrees ts, mapError_eq_ok.2 hts.ofTokens?_eq, ?_⟩⟩
    rw [Forest.split_ofTrees]
    rfl

end LexicalPatterns
