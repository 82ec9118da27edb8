import LexicalPatterns.Proofs.Emission.Draft
import LexicalPatterns.Proofs.Machine.Search
import LexicalPatterns.Proofs.Meaning.Empty

/-!
# Layouts

The instructions of a draft realize a meaning when a search that enters them finds what is found
behind the pattern: for each of its matches in turn, what the search finds when it goes on after
the last instruction. Every layout realizes the meaning that it is made for, wherever it stands.
-/

namespace LexicalPatterns

namespace Draft

/-- The instruction of a draft, where `lookup` gives the targets of references. -/
def resolve (lookup : String → Option Nat) : Draft → Instruction
  | code i => i
  | use name _ => .next (.reference (lookup name))

theorem resolve_none (d : Draft) : d.resolve (fun _ => none) = d.instruction := by
  cases d <;> rfl

theorem length_guard (skipped : Nat) : (guard skipped).length = 3 := rfl

theorem length_loop (body : List Draft) : (loop body).length = 3 + (body.length + 1) := by
  simp only [loop, List.length_append, length_guard, List.length_singleton]
  omega

theorem length_optional (body : List Draft) (count : Nat) :
    (optional body count).length = count * (body.length + 3) := by
  induction count with
  | zero => simp [optional]
  | succ count ih =>
    rw [optional, List.length_append, List.length_append, length_guard, ih, Nat.add_mul]
    omega

theorem optional_succ (body : List Draft) (count : Nat) :
    optional body (count + 1) =
      guard (body ++ optional body count).length ++ (body ++ optional body count) := by
  rw [optional, List.length_append, length_optional, List.append_assoc]

theorem length_entries (distance : Nat) (bodies : List (List Draft)) :
    (entries distance bodies).length = bodies.length := by
  induction bodies generalizing distance with
  | nil => rfl
  | cons b bs ih => rw [entries, List.length_cons, ih, List.length_cons]

theorem withExits_singleton (b : List Draft) : withExits [b] = [b] := rfl

theorem withExits_cons_cons (b b' : List Draft) (bs : List (List Draft)) :
    withExits (b :: b' :: bs) =
      (b ++ [jump ((withExits (b' :: bs)).flatten.length + 1)]) :: withExits (b' :: bs) := rfl

theorem length_withExits (branches : List (List Draft)) :
    (withExits branches).length = branches.length := by
  induction branches with
  | nil => rfl
  | cons b bs ih =>
    cases bs with
    | nil => rfl
    | cons b' bs => rw [withExits_cons_cons, List.length_cons, ih, ← List.length_cons]

theorem length_choice (branches : List (List Draft)) :
    (choice branches).length =
      1 + (withExits branches).length + (withExits branches).flatten.length := by
  unfold choice
  rw [List.cons_append, List.length_cons, List.length_append, length_entries]
  omega

end Draft

theorem Thread.moved_eq {i j : Nat} {movement : Int} (h : i + movement = j)
    (hj : j < UInt64.size) : moved i movement = j := by
  unfold moved
  rw [h, Int.emod_eq_of_lt (by omega) (by exact_mod_cast hj), Int.toNat_natCast]

namespace Machine

/-- Whether the instructions of drafts stand at an index. -/
def DraftsAt (m : Machine) (lookup : String → Option Nat) (base : Nat) (ds : List Draft) : Prop :=
  ∀ k d, ds[k]? = some d → m.code[base + k]? = some (d.resolve lookup)

/-- What a search for the pattern of a name gives. -/
def called (lookup : String → Option Nat) (nested : Nat → List UInt8 → MatchResult)
    (name : String) (rest : List UInt8) : MatchResult :=
  match lookup name with
  | some start => nested start rest
  | none => .ok none

/-- Whether a search that enters drafts finds what is found behind a pattern. -/
def Realizes (m : Machine) (lookup : String → Option Nat)
    (nested : Nat → List UInt8 → MatchResult) (ds : List Draft) (μ : Meaning) : Prop :=
  ∀ base, m.DraftsAt lookup base ds → base + ds.length < UInt64.size →
    ∀ consumed rest next,
      (∀ n, .ok n ∈ μ rest →
        m.Finds nested (base + ds.length) (consumed + n) (rest.drop n) (next n)) →
      m.Finds nested base consumed rest (μ.find rest next)

variable {m : Machine} {lookup : String → Option Nat} {nested : Nat → List UInt8 → MatchResult}

theorem draftsAt_append {base : Nat} {ds es : List Draft} :
    m.DraftsAt lookup base (ds ++ es) ↔
      m.DraftsAt lookup base ds ∧ m.DraftsAt lookup (base + ds.length) es := by
  constructor
  · intro h
    refine ⟨fun k d hd => h k d ?_, fun k d hd => ?_⟩
    · rw [List.getElem?_append_left (List.getElem?_eq_some_iff.1 hd).1, hd]
    · rw [Nat.add_assoc]
      apply h
      rw [List.getElem?_append_right (Nat.le_add_right _ _), Nat.add_sub_cancel_left, hd]
  · rintro ⟨hds, hes⟩ k d hd
    rcases Nat.lt_or_ge k ds.length with hk | hk
    · exact hds k d (by rwa [List.getElem?_append_left hk] at hd)
    · rw [List.getElem?_append_right hk] at hd
      have := hes _ d hd
      rwa [Nat.add_assoc, Nat.add_sub_cancel' hk] at this

theorem draftsAt_singleton {base : Nat} {d : Draft} :
    m.DraftsAt lookup base [d] ↔ m.code[base]? = some (d.resolve lookup) := by
  constructor
  · intro h
    exact h 0 d rfl
  · rintro h (_ | k) e he
    · obtain rfl : d = e := by simpa using he
      exact h
    · simp at he

theorem draftsAt_cons {base : Nat} {d : Draft} {ds : List Draft} :
    m.DraftsAt lookup base (d :: ds) ↔
      m.code[base]? = some (d.resolve lookup) ∧ m.DraftsAt lookup (base + 1) ds := by
  rw [← List.singleton_append, draftsAt_append, draftsAt_singleton]
  rfl

theorem draftsAt_of_toList {ds : List Draft} {more : List Instruction}
    (h : m.code.toList = ds.map (Draft.resolve lookup) ++ more) : m.DraftsAt lookup 0 ds := by
  intro k d hd
  have hk := (List.getElem?_eq_some_iff.1 hd).1
  rw [Nat.zero_add, ← Array.getElem?_toList, h, List.getElem?_append_left (by simpa using hk),
    List.getElem?_map, hd]
  rfl

theorem Finds.draft_jump {base stop consumed : Nat} {movement : Int} {rest : List UInt8}
    {v : MatchResult} (code : m.code[base]? = some ((Draft.jump movement).resolve lookup))
    (h : base + movement = stop) (hstop : stop < UInt64.size)
    (next : m.Finds nested stop consumed rest v) : m.Finds nested base consumed rest v :=
  .jump code (by rwa [Thread.moved_eq h hstop])

theorem realizes_nil : m.Realizes lookup nested [] .empty := by
  intro base _ _ consumed rest next h
  simpa using h 0 (by simp [Meaning.empty])

theorem Realizes.append {ds es : List Draft} {μ ν : Meaning} (hμ : m.Realizes lookup nested ds μ)
    (hν : m.Realizes lookup nested es ν) : m.Realizes lookup nested (ds ++ es) (μ.seq ν) := by
  intro base code hsize consumed rest next h
  obtain ⟨hds, hes⟩ := draftsAt_append.1 code
  rw [List.length_append] at hsize h
  rw [Meaning.find_seq]
  apply hμ base hds (by omega) consumed rest
  intro n hn
  apply hν _ hes (by omega)
  intro k hk
  have := h (n + k) (Meaning.mem_seq.2 ⟨n, hn, k, hk, rfl⟩)
  simpa [List.drop_drop, Nat.add_assoc] using this

theorem realizes_sequence {dss : List (List Draft)} {μs : List Meaning}
    (h : List.Forall₂ (m.Realizes lookup nested) dss μs) :
    m.Realizes lookup nested dss.flatten (.sequence μs) := by
  induction h with
  | nil => exact realizes_nil
  | cons hd _ ih =>
    rw [List.flatten_cons]
    exact hd.append ih

theorem realizes_headD {dss : List (List Draft)} {μs : List Meaning}
    (h : List.Forall₂ (m.Realizes lookup nested) dss μs) :
    m.Realizes lookup nested (dss.headD []) (μs.headD .empty) := by
  cases h with
  | nil => exact realizes_nil
  | cons hd _ => exact hd

theorem realizes_byte {instruction : Instruction} {accepts : UInt8 → Bool}
    (h : instruction.action.isByte) (hmove : instruction.movement = 1)
    (haccepts : ∀ b, instruction.accepts b = accepts b) :
    m.Realizes lookup nested [.code instruction] (.byte accepts) := by
  intro base code hsize consumed rest next hnext
  rw [draftsAt_singleton, Draft.resolve] at code
  have hmoved : Thread.moved base instruction.movement = base + 1 :=
    Thread.moved_eq (by rw [hmove]; rfl) hsize
  cases rest with
  | nil => exact .no_byte code h (by simp)
  | cons b rest =>
    by_cases hb : accepts b
    · have hfinds := hnext 1 (by simp [Meaning.byte, hb])
      unfold Meaning.find
      rw [Meaning.byte, if_pos hb]
      refine .byte code h (by rw [haccepts, hb]) ?_
      simpa [hmoved, Except.bind] using hfinds
    · unfold Meaning.find
      rw [Meaning.byte, if_neg hb]
      exact .no_byte code h (by simpa [haccepts] using hb)

theorem realizes_use {name : String} {span : Span} :
    m.Realizes lookup nested [.use name span] (.atomic (called lookup nested name)) := by
  intro base code hsize consumed rest next hnext
  rw [draftsAt_singleton, Draft.resolve] at code
  have hmoved : Thread.moved base 1 = base + 1 := Thread.moved_eq rfl hsize
  unfold Meaning.find Meaning.atomic
  cases htarget : lookup name with
  | none =>
    unfold called
    rw [htarget]
    exact .reference_none code (by simp [htarget])
  | some target =>
    rw [htarget] at code
    have hcalled : called lookup nested name rest = nested target rest := by rw [called, htarget]
    rw [hcalled]
    rcases hv : nested target rest with e | _ | n
    · simpa [Except.bind] using Finds.reference_error code hv
    · exact .reference_none code (by simp [hv])
    · have hmem : .ok n ∈ Meaning.atomic (called lookup nested name) rest := by
        rw [Meaning.mem_atomic, hcalled, hv]
      refine .reference code hv ?_
      simpa [hmoved, Except.bind] using hnext n hmem

theorem Realizes.copies {ds : List Draft} {μ : Meaning} (h : m.Realizes lookup nested ds μ)
    (count : Nat) : m.Realizes lookup nested (Draft.copies count ds) (μ.copies count) := by
  induction count with
  | zero => exact realizes_nil
  | succ count ih =>
    unfold Draft.copies
    rw [List.replicate_succ, List.flatten_cons]
    exact h.append ih

theorem Finds.guard {base skipped consumed : Nat} {rest : List UInt8} {v w : MatchResult}
    (code : m.DraftsAt lookup base (Draft.guard skipped))
    (hsize : base + 3 + skipped < UInt64.size)
    (hv : m.Finds nested (base + 3) consumed rest v)
    (hw : m.Finds nested (base + 3 + skipped) consumed rest w) :
    m.Finds nested base consumed rest (v.orElse w) := by
  obtain ⟨hbranch, hrest⟩ := draftsAt_cons.1 code
  obtain ⟨henter, hskip⟩ := draftsAt_cons.1 hrest
  rw [draftsAt_singleton] at hskip
  have hfirst : v.orElse w = .first [v, w] := by simp
  rw [hfirst]
  refine .branch hbranch ?_
  rintro (_ | _ | k) u hu
  · obtain rfl : v = u := by simpa using hu
    exact .draft_jump henter (by omega) (by omega) hv
  · obtain rfl : w = u := by simpa using hu
    exact .draft_jump hskip (by omega) hsize hw
  · simp at hu

theorem Realizes.guard {ds : List Draft} {μ : Meaning} (h : m.Realizes lookup nested ds μ) :
    m.Realizes lookup nested (Draft.guard ds.length ++ ds) (μ.or .empty) := by
  intro base code hsize consumed rest next hnext
  obtain ⟨hguard, hds⟩ := draftsAt_append.1 code
  have hlength : base + (Draft.guard ds.length ++ ds).length = base + 3 + ds.length := by
    rw [List.length_append, Draft.length_guard, Nat.add_assoc]
  rw [hlength] at hsize hnext
  rw [Meaning.find_or, Meaning.find_empty]
  refine .guard hguard hsize ?_ ?_
  · exact h _ hds hsize _ _ _ fun n hn => hnext n (List.mem_append_left _ hn)
  · simpa using hnext 0 (List.mem_append_right _ (by simp [Meaning.empty]))

theorem Realizes.optional {ds : List Draft} {μ : Meaning} (h : m.Realizes lookup nested ds μ)
    (count : Nat) : m.Realizes lookup nested (Draft.optional ds count) (μ.upTo count) := by
  induction count with
  | zero => exact realizes_nil
  | succ count ih =>
    rw [Draft.optional_succ]
    exact (h.append ih).guard

/-- A search that enters a loop finds what is found behind as many copies as are left bytes: each
time round, the text that is left is shorter. -/
theorem Realizes.finds_loop {ds : List Draft} {μ : Meaning} (h : m.Realizes lookup nested ds μ)
    (hwithin : μ.Within) (hconsumes : ∀ rest, .ok 0 ∉ μ rest) {base : Nat}
    (code : m.DraftsAt lookup base (Draft.loop ds))
    (hsize : base + 3 + (ds.length + 1) < UInt64.size) {count consumed : Nat} {rest : List UInt8}
    {next : Nat → MatchResult} (hlt : rest.length < count)
    (hnext : ∀ n, .ok n ∈ μ.upTo count rest →
      m.Finds nested (base + 3 + (ds.length + 1)) (consumed + n) (rest.drop n) (next n)) :
    m.Finds nested base consumed rest ((μ.upTo count).find rest next) := by
  rw [Draft.loop, List.append_assoc, draftsAt_append, draftsAt_append, draftsAt_singleton,
    Draft.length_guard] at code
  obtain ⟨hguard, hds, hback⟩ := code
  -- The jump back leads to the same guard with one copy less, before a shorter text.
  induction count generalizing consumed rest next with
  | zero => exact absurd hlt (Nat.not_lt_zero _)
  | succ count ih =>
    unfold Meaning.upTo
    rw [Meaning.find_or, Meaning.find_empty, Meaning.find_seq]
    refine .guard hguard hsize ?_ ?_
    · apply h _ hds (by omega)
      intro n hn
      have hbase : ((base + 3 + ds.length : Nat) : Int) + -(ds.length + 3 : Int) = base := by omega
      have hle := hwithin rest n hn
      have hpos : n ≠ 0 := fun h0 => hconsumes rest (h0 ▸ hn)
      have hshorter : (rest.drop n).length < count := by
        rw [List.length_drop]
        omega
      refine .draft_jump hback hbase (by omega) (ih hshorter fun k hk => ?_)
      have := hnext (n + k) (List.mem_append_left _ (Meaning.mem_seq.2 ⟨n, hn, k, hk, rfl⟩))
      simpa [List.drop_drop, Nat.add_assoc] using this
    · simpa using hnext 0 (List.mem_append_right _ (by simp [Meaning.empty]))

theorem Realizes.loop {ds : List Draft} {μ : Meaning} (h : m.Realizes lookup nested ds μ)
    (hwithin : μ.Within) (hconsumes : ∀ rest, .ok 0 ∉ μ rest) :
    m.Realizes lookup nested (Draft.loop ds) μ.many := by
  intro base code hsize consumed rest next hnext
  rw [Draft.length_loop, ← Nat.add_assoc] at hsize hnext
  exact h.finds_loop hwithin hconsumes code hsize (Nat.lt_succ_self _) hnext

theorem finds_entries {branches : List (List Draft)} {μs : List Meaning}
    (h : List.Forall₂ (m.Realizes lookup nested) branches μs) {base distance stop : Nat}
    (hentries : m.DraftsAt lookup base (Draft.entries distance (Draft.withExits branches)))
    (hbodies : m.DraftsAt lookup (base + distance) (Draft.withExits branches).flatten)
    (hstop : base + distance + (Draft.withExits branches).flatten.length = stop)
    (hsize : stop < UInt64.size) {consumed : Nat} {rest : List UInt8} {next : Nat → MatchResult}
    (hnext : ∀ μ ∈ μs, ∀ n, .ok n ∈ μ rest →
      m.Finds nested stop (consumed + n) (rest.drop n) (next n)) {k : Nat} {v : MatchResult}
    (hv : (μs.map fun μ => μ.find rest next)[k]? = some v) :
    m.Finds nested (base + k) consumed rest v := by
  induction h generalizing base distance k with
  | nil => simp at hv
  | @cons b μ bs μs hb hbs ih =>
    cases bs with
    | nil =>
      obtain rfl := List.forall₂_nil_left_iff.1 hbs
      simp only [Draft.withExits_singleton, Draft.entries, List.flatten_cons, List.flatten_nil,
        List.append_nil, draftsAt_singleton] at hentries hbodies hstop
      rcases k with _ | k
      · obtain rfl : μ.find rest next = v := by simpa using hv
        refine .draft_jump hentries rfl (by omega) ?_
        exact hb _ hbodies (by omega) _ _ _ (hstop ▸ hnext μ (by simp))
      · simp at hv
    | cons b' bs =>
      rw [Draft.withExits_cons_cons] at hentries hbodies hstop
      -- The entries of the other branches stand one behind this entry, with one body less between.
      generalize Draft.withExits (b' :: bs) = exits at *
      unfold Draft.entries at hentries
      rw [draftsAt_cons, List.length_append, List.length_singleton] at hentries
      rw [List.flatten_cons, List.append_assoc, draftsAt_append, draftsAt_append,
        draftsAt_singleton, List.length_singleton] at hbodies
      rw [List.flatten_cons, List.length_append, List.length_append, List.length_singleton] at hstop
      obtain ⟨henter, hentries⟩ := hentries
      obtain ⟨hbody, hexit, hbodies⟩ := hbodies
      rcases k with _ | k
      · obtain rfl : μ.find rest next = v := by simpa using hv
        have hleave : ((base + distance + b.length : Nat) : Int) + (exits.flatten.length + 1 : Int)
            = stop := by omega
        refine .draft_jump henter rfl (by omega) ?_
        apply hb _ hbody (by omega)
        intro n hn
        exact .draft_jump hexit hleave hsize (hnext μ (by simp) n hn)
      · have hdistance : base + 1 + (distance + (b.length + 1) - 1) =
            base + distance + b.length + 1 := by omega
        have hfinds := ih hentries (by rwa [hdistance]) (by omega)
          (fun ν hν => hnext ν (by simp [hν])) hv
        simpa [Nat.add_assoc, Nat.add_comm 1] using hfinds

theorem realizes_choice {branches : List (List Draft)} {μs : List Meaning}
    (h : List.Forall₂ (m.Realizes lookup nested) branches μs) :
    m.Realizes lookup nested (Draft.choice branches) (.choice μs) := by
  intro base code hsize consumed rest next hnext
  unfold Draft.choice at code
  rw [List.cons_append, draftsAt_cons, draftsAt_append, Draft.length_entries] at code
  obtain ⟨hbranch, hentries, hbodies⟩ := code
  rw [Draft.length_choice, ← Nat.add_assoc, ← Nat.add_assoc] at hsize hnext
  rw [Draft.length_withExits, h.length_eq, ← List.length_map fun μ => μ.find rest next] at hbranch
  rw [Meaning.find_choice]
  refine .branch hbranch fun k v hv => ?_
  refine finds_entries h hentries hbodies rfl hsize (fun μ hμ n hn => ?_) hv
  exact hnext n (Meaning.mem_choice.2 ⟨μ, hμ, hn⟩)

end Machine
end LexicalPatterns
