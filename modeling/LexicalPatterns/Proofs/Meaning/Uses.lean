import LexicalPatterns.Proofs.Meaning.Drafts

/-!
# Uses of names

Which names a layout uses, and the reference nodes of the tree that the uses come from: in the order
of the code, and once for each copy that a repetition asks for.
-/

namespace LexicalPatterns

namespace Draft

def use? : Draft → Option (String × Span)
  | code _ => none
  | use name span => some (name, span)

def uses (ds : List Draft) : List (String × Span) := ds.filterMap use?

theorem uses_append (ds es : List Draft) : uses (ds ++ es) = uses ds ++ uses es :=
  List.filterMap_append

theorem uses_flatten (dss : List (List Draft)) : uses dss.flatten = (dss.map uses).flatten := by
  induction dss with
  | nil => rfl
  | cons ds dss ih => rw [List.flatten_cons, uses_append, ih, List.map_cons, List.flatten_cons]

theorem uses_copies (ds : List Draft) (count : Nat) :
    uses (copies count ds) = (List.replicate count (uses ds)).flatten := by
  rw [copies, uses_flatten, List.map_replicate]

theorem uses_guard (skipped : Nat) : uses (guard skipped) = [] := rfl

theorem uses_optional (ds : List Draft) (count : Nat) :
    uses (optional ds count) = (List.replicate count (uses ds)).flatten := by
  induction count with
  | zero => rfl
  | succ count ih =>
    rw [optional, uses_append, uses_append, uses_guard, List.nil_append, ih, List.replicate_succ,
      List.flatten_cons]

theorem uses_loop (ds : List Draft) : uses (loop ds) = uses ds := by
  rw [loop, uses_append, uses_append, uses_guard, List.nil_append]
  exact List.append_nil _

theorem uses_entries (distance : Nat) (bodies : List (List Draft)) :
    uses (entries distance bodies) = [] := by
  induction bodies generalizing distance with
  | nil => rfl
  | cons b bs ih => exact ih _

theorem uses_withExits (branches : List (List Draft)) :
    (withExits branches).map uses = branches.map uses := by
  induction branches with
  | nil => rfl
  | cons b bs ih =>
    cases bs with
    | nil => rfl
    | cons b' bs =>
      rw [withExits_cons_cons, List.map_cons, ih, uses_append, List.map_cons]
      exact congrArg (· :: _) (List.append_nil _)

theorem uses_choice (branches : List (List Draft)) :
    uses (choice branches) = (branches.map uses).flatten := by
  have hentries : uses (emit (.branch (withExits branches).length) ::
      entries (withExits branches).length (withExits branches)) = [] := uses_entries _ _
  rw [choice, uses_append, hentries, List.nil_append, uses_flatten, uses_withExits]

end Draft

namespace Tree

mutual

/-- The reference nodes that the uses in the layout of a tree come from. -/
def references : Tree → List Tree
  | .node kind span children =>
    let inner := referencesAll children
    let operand := inner.headD []
    match kind with
    | .reference => [.node kind span children]
    | .definition | .group | .choice => inner.flatten
    | .exactly count => (List.replicate count operand).flatten
    | .between min max => (List.replicate (min + (max - min)) operand).flatten
    | .atLeast min => (List.replicate (min + 1) operand).flatten
    | .declaration | .character _ | .string _ | .range _ _ | .wildcard => []

def referencesAll : List Tree → List (List Tree)
  | [] => []
  | t :: ts => references t :: referencesAll ts

end

theorem referencesAll_eq_map (ts : List Tree) : referencesAll ts = ts.map references := by
  induction ts with
  | nil => rfl
  | cons t ts ih => rw [referencesAll, ih, List.map_cons]

def use (source : String) (t : Tree) : String × Span := (t.span.text source, t.span)

/-- The uses in the layout of a tree are those of its reference nodes. -/
theorem uses_drafts (source : String) (t : Tree) :
    Draft.uses (t.drafts source) = t.references.map (use source) := by
  induction t using Tree.induction with
  | node kind span children ih =>
    have hinner : (draftsAll source children).map Draft.uses =
        (referencesAll children).map (List.map (use source)) := by
      rw [draftsAll_eq_map, referencesAll_eq_map, List.map_map, List.map_map]
      exact List.map_congr_left ih
    have hflatten : ((draftsAll source children).map Draft.uses).flatten =
        (referencesAll children).flatten.map (use source) := by
      rw [hinner, List.map_flatten]
    have hoperand : Draft.uses ((draftsAll source children).headD []) =
        ((referencesAll children).headD []).map (use source) := by
      cases children with
      | nil => rfl
      | cons t ts => exact ih t (by simp)
    have hcopies (count : Nat) :
        (List.replicate count (Draft.uses ((draftsAll source children).headD []))).flatten =
          (List.replicate count ((referencesAll children).headD [])).flatten.map (use source) := by
      rw [hoperand, List.map_flatten, List.map_replicate]
    cases kind with
    | definition => exact (Draft.uses_flatten _).trans hflatten
    | group => exact (Draft.uses_flatten _).trans hflatten
    | choice => exact (Draft.uses_choice _).trans hflatten
    | declaration => rfl
    | reference => rfl
    | character b => rfl
    | string bs =>
      unfold drafts
      induction bs with
      | nil => rfl
      | cons b bs ih => exact ih
    | range low high => rfl
    | wildcard => rfl
    | exactly count => exact (Draft.uses_copies _ _).trans (hcopies count)
    | between min max =>
      rw [drafts, Draft.uses_append, Draft.uses_copies, Draft.uses_optional, ← List.flatten_append,
        ← List.replicate_add]
      exact hcopies _
    | atLeast min =>
      rw [drafts, Draft.uses_append, Draft.uses_copies, Draft.uses_loop, references,
        List.replicate_succ', List.flatten_append, List.map_append, hcopies, hoperand]
      simp

theorem subtree_of_mem_references {r t : Tree} (h : r ∈ t.references) :
    Subtree r t ∧ r.kind = .reference := by
  induction t using Tree.induction with
  | node kind span children ih =>
    have hinner (hmem : ∃ rs ∈ referencesAll children, r ∈ rs) :
        Subtree r (.node kind span children) ∧ r.kind = .reference := by
      obtain ⟨rs, hrs, hr⟩ := hmem
      rw [referencesAll_eq_map] at hrs
      obtain ⟨t, ht, rfl⟩ := List.mem_map.1 hrs
      exact ⟨.child ht (ih t ht hr).1, (ih t ht hr).2⟩
    have hflatten (hmem : r ∈ (referencesAll children).flatten) := hinner (List.mem_flatten.1 hmem)
    have hcopies {count : Nat}
        (hmem : r ∈ (List.replicate count ((referencesAll children).headD [])).flatten) :
        Subtree r (.node kind span children) ∧ r.kind = .reference := by
      obtain ⟨rs, hrs, hr⟩ := List.mem_flatten.1 hmem
      rw [List.eq_of_mem_replicate hrs] at hr
      cases hall : referencesAll children with
      | nil => simp [hall] at hr
      | cons rs' rest => exact hinner ⟨rs', by simp [hall], by simpa [hall] using hr⟩
    cases kind with
    | definition => exact hflatten h
    | group => exact hflatten h
    | choice => exact hflatten h
    | reference =>
      obtain rfl := List.mem_singleton.1 h
      exact ⟨.refl, rfl⟩
    | exactly count => exact hcopies h
    | between min max => exact hcopies h
    | atLeast min => exact hcopies h
    | _ => exact absurd h List.not_mem_nil

end Tree
end LexicalPatterns
