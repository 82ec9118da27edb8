import LexicalPatterns.Proofs.Meaning.Closed

/-!
# What layouts are made of

A layout is put together of bytes, references, jumps, and branches with one jump for each of their
ways. So there is no terminal in it, and behind a branch stand the jumps that it leads to.
-/

namespace LexicalPatterns

namespace Draft

/-- What is put together of bytes, references, jumps, and branches with a jump for each way. -/
inductive Laid : List Draft → Prop where
  | nil : Laid []
  | append {ds es : List Draft} (hds : Laid ds) (hes : Laid es) : Laid (ds ++ es)
  | byte {action : Action} (h : action.isByte) : Laid [emit action]
  | use (name : String) (span : Span) : Laid [.use name span]
  | jump (movement : Int) : Laid [jump movement]
  | fork (movements : List Int) : Laid (emit (.branch movements.length) :: movements.map Draft.jump)

/-- Whether behind each branch stands a jump for each of its ways. -/
def Forks (ds : List Draft) : Prop :=
  ∀ k count movement, ds[k]? = some (code ⟨.branch count, movement⟩) →
    ∀ j < count, ∃ way, ds[k + 1 + j]? = some (jump way)

variable {ds : List Draft}

theorem Laid.copies (h : Laid ds) (count : Nat) : Laid (copies count ds) := by
  apply of_flatten .nil .append
  intro es hes
  rw [List.eq_of_mem_replicate hes]
  exact h

theorem laid_guard (skipped : Nat) : Laid (guard skipped) := .fork [2, (skipped + 1 : Nat)]

theorem Laid.optional (h : Laid ds) (count : Nat) : Laid (optional ds count) := by
  induction count with
  | zero => exact .nil
  | succ count ih => exact .append (.append (laid_guard _) h) ih

theorem Laid.loop (h : Laid ds) : Laid (loop ds) :=
  .append (.append (laid_guard _) h) (.jump _)

theorem exists_entries_eq_map_jump (distance : Nat) (bodies : List (List Draft)) :
    ∃ movements : List Int, movements.length = bodies.length ∧
      entries distance bodies = movements.map jump := by
  induction bodies generalizing distance with
  | nil => exact ⟨[], rfl, rfl⟩
  | cons b bs ih =>
    obtain ⟨movements, hlength, hentries⟩ := ih (distance + b.length - 1)
    refine ⟨distance :: movements, by rw [List.length_cons, hlength, List.length_cons], ?_⟩
    rw [entries, hentries, List.map_cons]

theorem laid_of_mem_withExits {branches : List (List Draft)} (h : ∀ b ∈ branches, Laid b)
    {body : List Draft} (hbody : body ∈ withExits branches) : Laid body := by
  induction branches with
  | nil => simp [withExits] at hbody
  | cons b bs ih =>
    have hrest : ∀ c ∈ bs, Laid c := fun c hc => h c (List.mem_cons_of_mem _ hc)
    cases bs with
    | nil =>
      rw [withExits_singleton, List.mem_singleton] at hbody
      rw [hbody]
      exact h b (by simp)
    | cons b' bs =>
      rw [withExits_cons_cons] at hbody
      rcases List.mem_cons.1 hbody with rfl | hbody
      · exact .append (h b (by simp)) (.jump _)
      · exact ih hrest hbody

theorem laid_choice {branches : List (List Draft)} (h : ∀ b ∈ branches, Laid b) :
    Laid (choice branches) := by
  obtain ⟨movements, hlength, hentries⟩ :=
    exists_entries_eq_map_jump (withExits branches).length (withExits branches)
  rw [choice, ← hlength, hlength, hentries, ← hlength]
  exact .append (.fork movements) (of_flatten .nil .append fun _ => laid_of_mem_withExits h)

theorem Laid.action_ne_terminal (h : Laid ds) {d : Draft} (hd : d ∈ ds) :
    d.instruction.action ≠ .terminal := by
  induction h with
  | nil => cases hd
  | append _ _ ihds ihes => exact (List.mem_append.1 hd).elim ihds ihes
  | byte h =>
    obtain rfl := List.mem_singleton.1 hd
    rintro rfl
    cases h
  | use name span =>
    obtain rfl := List.mem_singleton.1 hd
    nofun
  | jump movement =>
    obtain rfl := List.mem_singleton.1 hd
    nofun
  | fork movements =>
    rcases List.mem_cons.1 hd with rfl | hd
    · nofun
    · obtain ⟨movement, -, rfl⟩ := List.mem_map.1 hd
      nofun

theorem Forks.append {es : List Draft} (hds : Forks ds) (hes : Forks es) : Forks (ds ++ es) := by
  intro k count movement hbranch j hj
  rcases Nat.lt_or_ge k ds.length with hk | hk
  · rw [List.getElem?_append_left hk] at hbranch
    obtain ⟨way, hway⟩ := hds k count movement hbranch j hj
    have hlt := (List.getElem?_eq_some_iff.1 hway).1
    exact ⟨way, by rw [List.getElem?_append_left hlt, hway]⟩
  · rw [List.getElem?_append_right hk] at hbranch
    obtain ⟨way, hway⟩ := hes _ count movement hbranch j hj
    refine ⟨way, ?_⟩
    rw [List.getElem?_append_right (by omega), ← hway]
    congr 1
    omega

theorem forks_singleton {d : Draft} (h : ∀ count movement, d ≠ code ⟨.branch count, movement⟩) :
    Forks [d] := by
  rintro (_ | k) count movement hbranch
  · exact absurd (Option.some.inj hbranch) (h count movement)
  · cases hbranch

theorem forks_fork (movements : List Int) :
    Forks (emit (.branch movements.length) :: movements.map jump) := by
  rintro (_ | k) count movement hbranch j hj
  · obtain ⟨haction, -⟩ := Instruction.mk.inj (code.inj (Option.some.inj hbranch))
    obtain rfl := Action.branch.inj haction
    refine ⟨movements[j], ?_⟩
    simp [Nat.add_comm 1, hj]
  · rw [List.getElem?_cons_succ, List.getElem?_map] at hbranch
    obtain ⟨_, -, hjump⟩ := Option.map_eq_some_iff.1 hbranch
    cases hjump

theorem Laid.forks (h : Laid ds) : Forks ds := by
  induction h with
  | nil => nofun
  | append _ _ ihds ihes => exact ihds.append ihes
  | byte h =>
    apply forks_singleton
    rintro count movement hbranch
    obtain ⟨rfl, -⟩ := Instruction.mk.inj (code.inj hbranch)
    cases h
  | use name span => exact forks_singleton nofun
  | jump movement => exact forks_singleton nofun
  | fork movements => exact forks_fork movements

end Draft

theorem Tree.laid_drafts (source : String) (t : Tree) : Draft.Laid (t.drafts source) := by
  induction t using Tree.induction with
  | node kind span children ih =>
    have hinner : ∀ ds ∈ draftsAll source children, Draft.Laid ds := by
      simpa [draftsAll_eq_map] using ih
    have hoperand := Draft.of_headD .nil hinner
    have hflatten := Draft.of_flatten .nil .append hinner
    cases kind with
    | definition => exact hflatten
    | group => exact hflatten
    | declaration => exact .nil
    | reference => exact .use _ _
    | character b => exact .byte rfl
    | string bs =>
      unfold drafts
      induction bs with
      | nil => exact .nil
      | cons b bs ih => exact .append (.byte rfl) ih
    | range low high => exact .byte rfl
    | wildcard => exact .byte rfl
    | choice => exact Draft.laid_choice hinner
    | exactly count => exact hoperand.copies count
    | between min max => exact (hoperand.copies min).append (hoperand.optional _)
    | atLeast min => exact (hoperand.copies min).append hoperand.loop

end LexicalPatterns
