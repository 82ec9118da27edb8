import LexicalPatterns.Proofs.Meaning.Drafts

/-!
# Layouts are closed

The instructions of a layout lead to instructions of the same layout or to the end of it, and the
code of a pattern never leads out of the pattern. So a search that enters the code of a pattern
stays in it, apart from the searches for references.
-/

namespace LexicalPatterns

namespace Draft

/-- Whether the draft at `k` of `length` many leads to a place of these drafts, or to the end of
them, but not to the last `slack` of these places. Only a reference by name refers to patterns. -/
def Inside (slack length k : Nat) : Draft → Prop
  | use _ _ => k + 1 + slack ≤ length
  | code i =>
    match i.action with
    | .terminal => True
    | .branch count => k + count + slack ≤ length
    | .reference _ => False
    | _ => 0 ≤ k + i.movement ∧ k + i.movement + slack ≤ length

def InsideAt (slack length start : Nat) (ds : List Draft) : Prop :=
  ∀ k d, ds[k]? = some d → Inside slack length (start + k) d

/-- Whether all drafts of a list lead to places of the list. -/
def Stays (slack : Nat) (ds : List Draft) : Prop := InsideAt slack ds.length 0 ds

variable {slack length start : Nat} {ds es : List Draft}

theorem Inside.shift {k : Nat} {d : Draft} (h : Inside slack length k d)
    {start length' slack' : Nat} (hle : start + length + slack' ≤ length' + slack) :
    Inside slack' length' (start + k) d := by
  cases d with
  | use name span =>
    simp only [Inside] at h ⊢
    omega
  | code i =>
    obtain ⟨action, movement⟩ := i
    cases action <;> simp only [Inside] at h ⊢ <;> omega

theorem inside_jump {k : Nat} {movement : Int} (hle : 0 ≤ k + movement)
    (hlt : k + movement + slack ≤ length) : Inside slack length k (jump movement) :=
  ⟨hle, hlt⟩

theorem insideAt_nil : InsideAt slack length start [] := by
  simp [InsideAt]

theorem insideAt_cons {d : Draft} (hd : Inside slack length start d)
    (hds : InsideAt slack length (start + 1) ds) : InsideAt slack length start (d :: ds) := by
  rintro (_ | k) e he
  · obtain rfl : d = e := by simpa using he
    exact hd
  · have := hds k e (by simpa using he)
    rwa [Nat.add_assoc, Nat.add_comm 1] at this

theorem InsideAt.append (hds : InsideAt slack length start ds)
    (hes : InsideAt slack length (start + ds.length) es) :
    InsideAt slack length start (ds ++ es) := by
  intro k d hd
  rcases Nat.lt_or_ge k ds.length with hk | hk
  · exact hds k d (by rwa [List.getElem?_append_left hk] at hd)
  · rw [List.getElem?_append_right hk] at hd
    have := hes _ d hd
    rwa [Nat.add_assoc, Nat.add_sub_cancel' hk] at this

theorem Stays.insideAt (h : Stays slack ds) {slack' : Nat}
    (hle : start + ds.length + slack' ≤ length + slack) : InsideAt slack' length start ds := by
  intro k d hd
  have := h k d hd
  rw [Nat.zero_add] at this
  exact this.shift hle

theorem Stays.terminal (h : Stays 0 ds) : Stays 1 (ds ++ [emit .terminal]) := by
  unfold Stays
  rw [List.length_append, List.length_singleton]
  exact (h.insideAt (by omega)).append (insideAt_cons trivial insideAt_nil)

theorem stays_nil : Stays slack [] := insideAt_nil

theorem Stays.append (hds : Stays slack ds) (hes : Stays slack es) : Stays slack (ds ++ es) := by
  unfold Stays
  rw [List.length_append]
  exact (hds.insideAt (by omega)).append (hes.insideAt (by omega))

/-- What holds of no drafts, and of drafts behind each other, holds of several ones in a row. -/
theorem of_flatten {P : List Draft → Prop} (nil : P [])
    (append : ∀ {ds es}, P ds → P es → P (ds ++ es)) {dss : List (List Draft)}
    (h : ∀ ds ∈ dss, P ds) : P dss.flatten := by
  induction dss with
  | nil => exact nil
  | cons ds dss ih =>
    rw [List.flatten_cons]
    exact append (h ds (by simp)) (ih fun es hes => h es (by simp [hes]))

theorem of_headD {P : List Draft → Prop} (nil : P []) {dss : List (List Draft)}
    (h : ∀ ds ∈ dss, P ds) : P (dss.headD []) := by
  cases dss with
  | nil => exact nil
  | cons ds dss => exact h ds (by simp)

theorem stays_flatten {dss : List (List Draft)} (h : ∀ ds ∈ dss, Stays slack ds) :
    Stays slack dss.flatten := of_flatten stays_nil Stays.append h

theorem stays_headD {dss : List (List Draft)} (h : ∀ ds ∈ dss, Stays slack ds) :
    Stays slack (dss.headD []) := of_headD stays_nil h

theorem stays_singleton {d : Draft} (h : Inside slack 1 0 d) : Stays slack [d] :=
  insideAt_cons h insideAt_nil

theorem stays_byte {action : Action} (h : action.isByte) : Stays 0 [emit action] := by
  apply stays_singleton
  cases action <;> simp_all [Action.isByte, emit, Instruction.next, Inside]

theorem Stays.copies (h : Stays slack ds) (count : Nat) : Stays slack (copies count ds) := by
  apply stays_flatten
  intro es hes
  rw [List.eq_of_mem_replicate hes]
  exact h

theorem insideAt_guard {skipped : Nat} (hle : start + 3 + skipped ≤ length) :
    InsideAt 0 length start (guard skipped) := by
  refine insideAt_cons ?_ (insideAt_cons (inside_jump ?_ ?_)
    (insideAt_cons (inside_jump ?_ ?_) insideAt_nil))
  · simp only [emit, Instruction.next, Inside]
    omega
  all_goals omega

theorem Stays.optional (h : Stays 0 ds) (count : Nat) : Stays 0 (optional ds count) := by
  induction count with
  | zero => exact stays_nil
  | succ count ih =>
    have hinner : Stays 0 (ds ++ Draft.optional ds count) := h.append ih
    unfold Stays
    rw [optional_succ, List.length_append]
    refine (insideAt_guard ?_).append (hinner.insideAt ?_)
    · rw [length_guard, Nat.zero_add]
    · rw [Nat.zero_add]

theorem Stays.loop (h : Stays 0 ds) : Stays 0 (loop ds) := by
  unfold Stays
  rw [length_loop, Draft.loop, List.append_assoc]
  refine (insideAt_guard (by omega)).append ((h.insideAt ?_).append (insideAt_cons
    (inside_jump ?_ ?_) insideAt_nil))
  all_goals
    rw [length_guard]
    omega

theorem insideAt_entries {distance : Nat} {bodies : List (List Draft)}
    (hdistance : bodies.length ≤ distance)
    (hle : start + distance + bodies.flatten.length ≤ length) :
    InsideAt 0 length start (entries distance bodies) := by
  induction bodies generalizing start distance with
  | nil => exact insideAt_nil
  | cons b bs ih =>
    rw [List.flatten_cons, List.length_append] at hle
    rw [List.length_cons] at hdistance
    exact insideAt_cons (inside_jump (by omega) (by omega)) (ih (by omega) (by omega))

theorem insideAt_withExits {branches : List (List Draft)} (h : ∀ b ∈ branches, Stays 0 b)
    (hle : start + (withExits branches).flatten.length ≤ length) :
    InsideAt 0 length start (withExits branches).flatten := by
  induction branches generalizing start with
  | nil => exact insideAt_nil
  | cons b bs ih =>
    cases bs with
    | nil =>
      simp only [withExits_singleton, List.flatten_cons, List.flatten_nil, List.append_nil] at hle ⊢
      exact (h b (by simp)).insideAt hle
    | cons b' bs =>
      rw [withExits_cons_cons, List.flatten_cons, List.append_assoc] at hle ⊢
      simp only [List.length_append, List.length_singleton] at hle
      refine ((h b (by simp)).insideAt (by omega)).append ((insideAt_cons
        (inside_jump (by omega) (by omega)) insideAt_nil).append (ih ?_ ?_))
      · intro c hc
        exact h c (List.mem_cons_of_mem _ hc)
      · rw [List.length_singleton]
        omega

theorem stays_choice {branches : List (List Draft)} (h : ∀ b ∈ branches, Stays 0 b) :
    Stays 0 (choice branches) := by
  unfold Stays
  rw [length_choice, choice]
  refine insideAt_cons ?_ ((insideAt_entries (Nat.le_refl _) (by omega)).append
    (insideAt_withExits h ?_))
  · simp only [emit, Instruction.next, Inside]
    omega
  · rw [length_entries]

end Draft

/-- The layout of a tree leads to no place but its own and its end. -/
theorem Tree.stays_drafts (source : String) (t : Tree) : Draft.Stays 0 (t.drafts source) := by
  induction t using Tree.induction with
  | node kind span children ih =>
    have hinner : ∀ ds ∈ draftsAll source children, Draft.Stays 0 ds := by
      simpa [draftsAll_eq_map] using ih
    have hoperand := Draft.stays_headD hinner
    cases kind with
    | definition => exact Draft.stays_flatten hinner
    | group => exact Draft.stays_flatten hinner
    | declaration => exact Draft.stays_nil
    | reference => exact Draft.stays_singleton (Nat.le_refl 1)
    | character b => exact Draft.stays_byte rfl
    | string bs =>
      unfold drafts
      induction bs with
      | nil => exact Draft.stays_nil
      | cons b bs ih => exact (Draft.stays_byte rfl).append ih
    | range low high => exact Draft.stays_byte rfl
    | wildcard => exact Draft.stays_byte rfl
    | choice => exact Draft.stays_choice hinner
    | exactly count => exact hoperand.copies count
    | between min max => exact (hoperand.copies min).append (hoperand.optional _)
    | atLeast min => exact (hoperand.copies min).append hoperand.loop

namespace Machine

variable {m : Machine} {lookup : String → Option Nat} {nested : Nat → List UInt8 → MatchResult}

theorem exists_followed {slack base k : Nat} {action : Action} {movement : Int} {ds : List Draft}
    (hat : m.DraftsAt lookup base ds) (hstays : Draft.Stays slack ds) (hk : k < ds.length)
    (code : m.code[base + k]? = some ⟨action, movement⟩) (hterminal : action ≠ .terminal)
    (hbranch : ∀ count, action ≠ .branch count) :
    ∃ l : Nat, (k : Int) + movement = l ∧ l + slack ≤ ds.length := by
  have hd := List.getElem?_eq_getElem hk
  have hinside := hstays k _ hd
  rw [Nat.zero_add] at hinside
  have hresolve := Option.some.inj ((hat k _ hd).symm.trans code)
  generalize ds[k] = d at hresolve hinside
  cases d with
  | use name span =>
    obtain ⟨-, rfl⟩ : .reference (lookup name) = action ∧ 1 = movement := by
      simpa [Draft.resolve, Instruction.next] using hresolve
    exact ⟨k + 1, by omega, hinside⟩
  | code i =>
    obtain rfl : i = ⟨action, movement⟩ := hresolve
    have hplace : 0 ≤ (k : Int) + movement ∧ k + movement + slack ≤ ds.length := by
      cases action with
      | terminal => exact absurd rfl hterminal
      | branch count => exact absurd rfl (hbranch count)
      | reference target => exact hinside.elim
      | _ => exact hinside
    obtain ⟨l, hl⟩ := Int.eq_ofNat_of_zero_le hplace.1
    exact ⟨l, hl, by omega⟩

theorem draft_of_branch {base k count : Nat} {movement : Int} {ds : List Draft}
    (hat : m.DraftsAt lookup base ds) (hk : k < ds.length)
    (code : m.code[base + k]? = some ⟨.branch count, movement⟩) :
    ds[k]? = some (.code ⟨.branch count, movement⟩) := by
  have hd := List.getElem?_eq_getElem hk
  have hresolve := Option.some.inj ((hat k _ hd).symm.trans code)
  rw [hd]
  generalize ds[k] = d at hresolve
  cases d with
  | use name span => simp [Draft.resolve, Instruction.next] at hresolve
  | code i => exact congrArg (some ∘ Draft.code) hresolve

theorem branch_inside {slack base k count : Nat} {movement : Int} {ds : List Draft}
    (hat : m.DraftsAt lookup base ds) (hstays : Draft.Stays slack ds) (hk : k < ds.length)
    (code : m.code[base + k]? = some ⟨.branch count, movement⟩) :
    k + count + slack ≤ ds.length := by
  have hinside := hstays k _ (draft_of_branch hat hk code)
  rwa [Nat.zero_add] at hinside

theorem moves_inside {slack base k j taken : Nat} {ds : List Draft} {rest : List UInt8}
    (hat : m.DraftsAt lookup base ds) (hstays : Draft.Stays slack ds)
    (hsize : base + ds.length < UInt64.size + slack) (hk : k < ds.length)
    (hm : m.Moves nested (base + k) rest j taken) : base ≤ j ∧ j + slack ≤ base + ds.length := by
  have hfollowed {action : Action} {movement : Int}
      (code : m.code[base + k]? = some ⟨action, movement⟩) (hterminal : action ≠ .terminal)
      (hbranch : ∀ count, action ≠ .branch count) :
      base ≤ Thread.moved (base + k) movement ∧
        Thread.moved (base + k) movement + slack ≤ base + ds.length := by
    obtain ⟨l, hl, hle⟩ := exists_followed hat hstays hk code hterminal hbranch
    have hto : ((base + k : Nat) : Int) + movement = (base + l : Nat) := by omega
    rw [Thread.moved_eq hto (by omega)]
    omega
  cases hm with
  | branch code _ le =>
    have := branch_inside hat hstays hk code
    omega
  | jump code => exact hfollowed code nofun nofun
  | reference code _ => exact hfollowed code nofun nofun
  | @byte i _ _ code _ accepts =>
    obtain ⟨action, movement⟩ := i
    apply hfollowed code
    · rintro rfl
      simp [Instruction.accepts] at accepts
    · rintro count rfl
      simp [Instruction.accepts] at accepts

theorem exists_use_of_reference {slack base k : Nat} {target : Option Nat} {movement : Int}
    {ds : List Draft} (hat : m.DraftsAt lookup base ds) (hstays : Draft.Stays slack ds)
    (hk : k < ds.length) (code : m.code[base + k]? = some ⟨.reference target, movement⟩) :
    ∃ name span, ds[k]? = some (.use name span) ∧ lookup name = target := by
  have hd := List.getElem?_eq_getElem hk
  have hinside := hstays k _ hd
  have hresolve := Option.some.inj ((hat k _ hd).symm.trans code)
  rw [hd]
  generalize ds[k] = d at hresolve hinside
  cases d with
  | use name span =>
    have hlookup : lookup name = target ∧ 1 = movement := by
      simpa [Draft.resolve, Instruction.next] using hresolve
    exact ⟨name, span, rfl, hlookup.1⟩
  | code i =>
    rw [Draft.resolve] at hresolve
    rw [hresolve] at hinside
    exact hinside.elim

end Machine
end LexicalPatterns
