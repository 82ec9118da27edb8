import LexicalPatterns.Proofs.Batch.Session

/-!
# Places tile the code

The definitions that a batch has accepted stand one behind the other and make up its whole code.
Each of them ends with its only terminal and runs in itself, apart from its references, and these
lead to where a definition starts.
-/

namespace LexicalPatterns

/-- Whether the code at a place ends with its only terminal, goes on in the place behind all other
instructions, and has an empty instruction for each way of a branch behind that. -/
structure Placed.Closed (code : Array Instruction) (p : Placed) : Prop where
  terminal : ∀ i, p.start ≤ i → i < p.stop →
    ((∃ movement, code[i]? = some ⟨.terminal, movement⟩) ↔ i + 1 = p.stop)
  followed : ∀ (i : Nat) (action : Action) (movement : Int), p.start ≤ i → i < p.stop →
    code[i]? = some ⟨action, movement⟩ → action ≠ .terminal →
    (∀ count, action ≠ .branch count) → p.start ≤ i + movement ∧ i + movement < p.stop
  forks : ∀ i count movement, p.start ≤ i → i < p.stop →
    code[i]? = some ⟨.branch count, movement⟩ →
      i + count < p.stop ∧ ∀ k < count, ∃ way, code[i + 1 + k]? = some ⟨.empty, way⟩

namespace Session

variable {s : Session} {a : Accepted}

theorem Sound.closed (h : s.Sound) (ha : a ∈ s.accepted) : a.placed.Closed s.batch.code := by
  have hat := h.draftsAt ha
  have hstop := h.stop_eq ha
  refine ⟨?terminal, ?followed, ?forks⟩
  case terminal =>
    intro i hstart hlt
    obtain ⟨k, rfl⟩ := Nat.exists_eq_add_of_le hstart
    have hk : k < a.rule.drafts.length := by omega
    have hd := List.getElem?_eq_getElem hk
    have hcode : s.batch.code[a.placed.start + k]? = some a.rule.drafts[k].instruction := by
      rw [← Draft.resolve_none]
      exact hat k _ hd
    have hiff := a.rule.action_eq_terminal_iff hd
    rw [hcode]
    constructor
    · rintro ⟨movement, hinstruction⟩
      have := hiff.1 (by rw [Option.some.inj hinstruction])
      omega
    · intro hend
      refine ⟨a.rule.drafts[k].instruction.movement, ?_⟩
      rw [← hiff.2 (by omega)]
  case followed =>
    intro i action movement hstart hlt code hterminal hbranch
    obtain ⟨k, rfl⟩ := Nat.exists_eq_add_of_le hstart
    obtain ⟨l, hl, hle⟩ := Machine.exists_followed hat a.rule.stays_drafts (by omega) code
      hterminal hbranch
    omega
  case forks =>
    intro i count movement hstart hlt code
    obtain ⟨k, rfl⟩ := Nat.exists_eq_add_of_le hstart
    have hk : k < a.rule.drafts.length := by omega
    have hinside := Machine.branch_inside hat a.rule.stays_drafts hk code
    refine ⟨by omega, fun j hj => ?_⟩
    obtain ⟨way, hway⟩ :=
      a.rule.forks_drafts k count movement (Machine.draft_of_branch hat hk code) j hj
    refine ⟨way, ?_⟩
    rw [Nat.add_assoc, Nat.add_assoc, ← Nat.add_assoc k]
    exact hat _ _ hway

theorem Sound.entriesFrom_eq (h : s.Sound) :
    s.grammar.entriesFrom 0 = s.accepted.map (·.placed.entry) := by
  rw [Grammar.entriesFrom_eq_map, ← h.placed, List.map_map]
  rfl

theorem Sound.tile (h : s.Sound) :
    Placed.Tile 0 (s.accepted.map (·.placed)) s.batch.code.size := by
  have hsize : s.batch.code.size = 0 + s.grammar.drafts.length := by
    rw [Nat.zero_add]
    exact h.holds.size_buffer
  rw [h.placed, hsize]
  exact s.grammar.tile_placedFrom 0

theorem Sound.lookup_eq_some_iff (h : s.Sound) {name : String} {start : Nat} :
    s.batch.names.lookup name = some start ↔
      ∃ a ∈ s.accepted, a.placed.name = name ∧ a.placed.start = start := by
  rw [h.holds.lookup_eq_some_iff, h.entriesFrom_eq, List.mem_map]
  simp only [Placed.entry, Entry.mk.injEq]

theorem Sound.names_eq (h : s.Sound) :
    s.batch.names.names = s.accepted.map (·.placed.name) := by
  rw [NameTable.names, NameTable.sortedEntries_eq_of_perm h.holds.entries
    (s.grammar.pairwise_entriesFrom 0), h.entriesFrom_eq, List.map_map]
  rfl

theorem Sound.nameAt_eq (h : s.Sound) (ha : a ∈ s.accepted) :
    s.batch.names.nameAt a.placed.start = some a.placed.name := by
  have hmem : a.placed.entry ∈ s.grammar.entriesFrom 0 := by
    rw [h.entriesFrom_eq]
    exact List.mem_map_of_mem ha
  have hnodup : (s.batch.names.entries.toList.map (·.start)).Nodup := by
    rw [(h.holds.entries.map _).nodup_iff]
    exact List.pairwise_map.2 ((s.grammar.pairwise_entriesFrom 0).imp Nat.ne_of_lt)
  exact NameTable.nameAt_eq_some hnodup (h.holds.entries.mem_iff.2 hmem)

/-- A resolved reference of the finished program leads to where a definition starts. -/
theorem Sound.exists_target (h : s.Sound) {strict : Bool} {p : Program}
    (hfinish : s.batch.finish strict = .ok p) {i target : Nat} {movement : Int}
    (code : p.code[i]? = some ⟨.reference (some target), movement⟩) :
    ∃ a ∈ s.accepted, a.placed.start = target := by
  obtain ⟨name, -, -, hname⟩ := Grammar.exists_use_of_reference
    (h.holds.finish (Batch.finish_false hfinish)).1 code
  obtain ⟨a, ha, -, hstart⟩ := h.lookup_eq_some_iff.1 hname
  exact ⟨a, ha, hstart⟩

/-- Whether the accepted definitions tile the code of the batch, are known by their names, and are
what its references lead to. -/
structure Tiled (s : Session) : Prop where
  tile : Placed.Tile 0 (s.accepted.map (·.placed)) s.batch.code.size
  closed : ∀ a ∈ s.accepted, a.placed.Closed s.batch.code
  entries : s.batch.names.entries.toList.Perm (s.accepted.map (·.placed.entry))
  lookup_iff : ∀ name start, s.batch.names.lookup name = some start ↔
    ∃ a ∈ s.accepted, a.placed.name = name ∧ a.placed.start = start
  names : s.batch.names.names = s.accepted.map (·.placed.name)
  nameAt : ∀ a ∈ s.accepted, s.batch.names.nameAt a.placed.start = some a.placed.name
  targets : ∀ (strict : Bool) (p : Program), s.batch.finish strict = .ok p →
    ∀ (i target : Nat) (movement : Int), p.code[i]? = some ⟨.reference (some target), movement⟩ →
      ∃ a ∈ s.accepted, a.placed.start = target

/-- Whatever a batch is asked for, the definitions that it accepts tile its code. -/
theorem tiled_after (rs : List Request) : (after rs).Tiled where
  tile := (sound_after rs).tile
  closed := fun _ ha => (sound_after rs).closed ha
  entries := (sound_after rs).entriesFrom_eq ▸ (sound_after rs).holds.entries
  lookup_iff := fun _ _ => (sound_after rs).lookup_eq_some_iff
  names := (sound_after rs).names_eq
  nameAt := fun _ ha => (sound_after rs).nameAt_eq ha
  targets := fun _ _ hfinish _ _ _ code => (sound_after rs).exists_target hfinish code

end Session
end LexicalPatterns
