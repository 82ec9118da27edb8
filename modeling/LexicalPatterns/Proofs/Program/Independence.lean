import LexicalPatterns.Proofs.Machine.Agree
import LexicalPatterns.Proofs.Program.Meaning

/-!
# Patterns and unrelated definitions

What further definitions in a batch change for the patterns that are there already, when these do
not refer to them: only the number of instructions, which bounds the steps of a thread. Where no
unbounded repetition repeats what can match the empty text, threads do not come near that bound, and
the further definitions change nothing.
-/

namespace LexicalPatterns

namespace Machine

variable {m m' : Machine} {lookup : String → Option Nat}

/-- Machines with the same layouts agree on them, where they give up the same threads. -/
theorem agree_of_draftsAt {ds : List Draft} (hlimit : m.recursionLimit = m'.recursionLimit)
    (hsize : m.code.size ≤ m'.code.size) (hds : ds.length ≤ UInt64.size)
    (hat : m.DraftsAt lookup 0 ds) (hat' : m'.DraftsAt lookup 0 ds) (hstays : Draft.Stays 1 ds)
    (hstart : ∀ name start, lookup name = some start → start < ds.length)
    (inv : (Nat → List UInt8 → MatchResult) → Thread → Prop)
    (start : ∀ levels name start input, lookup name = some start →
      inv (m.runAt levels) (.start start input))
    (move : ∀ nested t j taken, inv nested t → m.Moves nested t.index t.rest j taken →
      inv nested (t.goTo j taken))
    (stalled : ∀ nested t, inv nested t → (m.code.size < t.stalled ↔ m'.code.size < t.stalled)) :
    m.Agree m' (fun start => ∃ name, lookup name = some start)
      fun nested t => t.index < ds.length ∧ inv nested t where
  limit := hlimit
  size_le := hsize
  start := by
    rintro levels index input ⟨name, hname⟩
    exact ⟨hstart name index hname, start levels name index input hname⟩
  code := by
    rintro nested t ⟨hlt, -⟩
    have hd := List.getElem?_eq_getElem hlt
    have := hat _ _ hd
    have := hat' _ _ hd
    simp_all
  target := by
    rintro nested t target movement ⟨hlt, -⟩ code
    obtain ⟨name, -, -, hname⟩ := exists_use_of_reference hat hstays hlt (by simpa using code)
    exact ⟨name, hname⟩
  move := by
    rintro nested t j taken ⟨hlt, hinv⟩ hm
    have := moves_inside hat hstays (by omega) hlt (by simpa using hm)
    refine ⟨?_, move nested t j taken hinv hm⟩
    simp only [Thread.goTo]
    omega
  stalled := fun nested t ht => stalled nested t ht.2

end Machine

namespace Batch

variable {b b' : Batch} {g g' : Grammar}

theorem Holds.lookup_eq_of_append (h : b.Holds g) (h' : b'.Holds (g ++ g')) {name : String}
    (hname : name ∉ g'.map (·.name)) : b'.names.lookup name = b.names.lookup name := by
  apply Option.ext
  intro start
  rw [h.lookup_eq_some_iff, h'.lookup_eq_some_iff, Grammar.entriesFrom_append, List.mem_append,
    or_iff_left]
  intro hmem
  rw [← Grammar.map_name_entriesFrom (0 + g.drafts.length)] at hname
  exact hname (List.mem_map.2 ⟨_, hmem, rfl⟩)

theorem Holds.map_resolve_eq (h : b.Holds g) (h' : b'.Holds (g ++ g'))
    (hrefs : ∀ f ∈ b.fixups, f.name ∉ g'.map (·.name)) :
    g.drafts.map (Draft.resolve b'.names.lookup) = g.drafts.map (Draft.resolve b.names.lookup) := by
  apply List.map_congr_left
  intro d hd
  cases d with
  | code i => rfl
  | use name span =>
    obtain ⟨k, hk⟩ := List.mem_iff_getElem?.1 hd
    obtain ⟨f, hf, -, rfl⟩ := h.exists_fixup hk
    rw [Draft.resolve, h.lookup_eq_of_append h' (hrefs f hf), Draft.resolve]

theorem Holds.code_append (h : b.Holds g) (h' : b'.Holds (g ++ g'))
    (hrefs : ∀ f ∈ b.fixups, f.name ∉ g'.map (·.name)) {p p' : Program}
    (hfinish : b.finish false = .ok p) (hfinish' : b'.finish false = .ok p') :
    ∃ more, p'.code.toList = p.code.toList ++ more := by
  rw [(h'.finish hfinish').1, (h.finish hfinish).1, Grammar.drafts_append, List.map_append,
    h.map_resolve_eq h' hrefs]
  exact ⟨_, rfl⟩

end Batch

namespace Machine

variable {m m' : Machine} {lookup : String → Option Nat} {g : Grammar} {more : List Instruction}

/-- More code of the same size, be it what it may, does not change what a pattern matches. -/
theorem runAt_eq_of_size_eq (hlimit : m.recursionLimit = m'.recursionLimit)
    (hsize : m.code.size = m'.code.size) (hwords : m.code.size ≤ UInt64.size)
    (hlookup : ∀ name start, lookup name = some start → ⟨name, start⟩ ∈ g.entriesFrom 0)
    {more more' : List Instruction}
    (hcode : m.code.toList = g.drafts.map (Draft.resolve lookup) ++ more)
    (hcode' : m'.code.toList = g.drafts.map (Draft.resolve lookup) ++ more')
    (levels : Nat) {name : String} {start : Nat} (hstart : lookup name = some start)
    (input : List UInt8) : m.runAt levels start input = m'.runAt levels start input := by
  have hdrafts : g.drafts.length ≤ UInt64.size := by
    have := congrArg List.length hcode
    simp only [Array.length_toList, List.length_append, List.length_map] at this
    omega
  have hagree := agree_of_draftsAt hlimit (Nat.le_of_eq hsize) hdrafts
    (draftsAt_of_toList hcode) (draftsAt_of_toList hcode') g.stays_drafts
    (fun name start h => Grammar.lt_of_mem_entriesFrom (hlookup name start h)) (fun _ _ => True)
    (fun _ _ _ _ _ => trivial) (fun _ _ _ _ _ _ => trivial) (fun _ _ _ => by rw [hsize])
  exact hagree.runAt_eq levels ⟨name, hstart⟩ input

/-- Where loops consume, more code does not change what a pattern matches. -/
theorem Compiled.runAt_eq (h : m.Compiled lookup g) (hloops : g.LoopsConsume)
    (hlimit : m.recursionLimit = m'.recursionLimit)
    (hcode' : m'.code.toList = m.code.toList ++ more)
    (levels : Nat) {name : String} {start : Nat} (hstart : lookup name = some start)
    (input : List UInt8) : m.runAt levels start input = m'.runAt levels start input := by
  have hle : m.code.size ≤ m'.code.size := by
    have := congrArg List.length hcode'
    simp only [Array.length_toList, List.length_append] at this
    omega
  have hdrafts : g.drafts.length ≤ UInt64.size := by
    have := congrArg List.length h.code
    simp only [Array.length_toList, List.length_map] at this
    have := h.size_le
    omega
  rw [h.code] at hcode'
  have hends (levels : Nat) (name : String) (start : Nat) (input : List UInt8)
      (hstart : lookup name = some start) : m.Ends (m.runAt levels) start input := by
    have hcalled : ∀ name rest r, called lookup (m.runAt levels) name rest = .ok r →
        g.result m.recursionLimit levels name rest = .ok r := by
      intro name rest r hr
      rw [← h.called_backtrackAt hloops levels, called]
      unfold called at hr
      cases hname : lookup name with
      | none => simpa [hname] using hr
      | some start =>
        rw [hname] at hr
        exact m.runAt_refines levels start rest r hr
    obtain ⟨r, -, hfinds⟩ := @Compiled.exists_finds _ _ _ (m.runAt levels) h hloops
      (fun _ _ _ hr => Grammar.result_le (hcalled _ _ _ hr))
      (fun _ _ hr => Grammar.matchesEmpty_of_result (hcalled _ _ _ hr)) _ _ hstart
    exact (hfinds input).ends
  -- Fresh threads stay below the bound of either machine.
  have hagree := agree_of_draftsAt hlimit hle hdrafts h.draftsAt (draftsAt_of_toList hcode')
    g.stays_drafts
    (fun name start hs => Grammar.lt_of_mem_entriesFrom ((h.lookup_iff name start).1 hs))
    (fun nested t => m.Ends nested t.index t.rest ∧ m.Fresh nested t)
    (fun levels name start input hs => ⟨hends levels name start input hs, fresh_of_not_stalled rfl⟩)
    (fun _ _ _ _ hinv hm => ⟨hinv.1.of_moves hm, hinv.2.goTo hinv.1 hm⟩)
    (fun _ _ hinv => by
      have := hinv.2.stalled_le
      omega)
  exact hagree.runAt_eq levels ⟨name, hstart⟩ input

end Machine

namespace Program

/-- The program with instructions behind its own, up to `size` in all, to which nothing leads. -/
def padded (p : Program) (size : Nat) : Program :=
  { p with code := p.code ++ Array.replicate (size - p.code.size) (.next .empty) }

/-- What the definitions of `more` change for the patterns of `source`, which do not refer to them,
is the number of instructions. Where no unbounded repetition in `source` repeats what can match the
empty text, they change nothing. -/
theorem matchLength_defineSource {source more : String} {placed placed' : List Placed}
    {b b' : Batch} {p p' : Program}
    (hsource : Batch.empty.defineSource source = (.ok placed, b))
    (hmore : b.defineSource more = (.ok placed', b'))
    (hfinish : b.finish false = .ok p) (hfinish' : b'.finish false = .ok p')
    (hrefs : ∀ f ∈ b.fixups, f.name ∉ placed'.map (·.name)) (hsize : p'.code.size ≤ UInt64.size)
    (limit : Nat) {name : String} (hname : name ∈ placed.map (·.name)) (input : List UInt8) :
    (p'.withRecursionLimit limit).matchLength name input =
        ((p.padded p'.code.size).withRecursionLimit limit).matchLength name input ∧
      ((Grammar.ofSource source).LoopsConsume →
        (p'.withRecursionLimit limit).matchLength name input =
          (p.withRecursionLimit limit).matchLength name input) := by
  obtain ⟨h, hnames⟩ := Batch.holds_empty.defineSource hsource
  rw [List.nil_append] at h
  obtain ⟨h', hnames'⟩ := h.defineSource hmore
  rw [hnames'] at hrefs
  obtain ⟨rest, hcode'⟩ := h.code_append h' hrefs hfinish hfinish'
  have hle : p.code.size ≤ p'.code.size := by
    have := congrArg List.length hcode'
    simp only [Array.length_toList, List.length_append] at this
    omega
  have hcompiled := h.compiled hfinish (Nat.le_trans hle hsize) (min limit maxRecursionLimit)
  have hlookup : p'.names.lookup name = p.names.lookup name := by
    rw [(h.finish hfinish).2, (h'.finish hfinish').2]
    apply h.lookup_eq_of_append h'
    intro hmem
    have hnodup := h'.nodup
    rw [List.map_append, List.nodup_append] at hnodup
    rw [hnames] at hname
    exact hnodup.2.2 name hname name hmem rfl
  simp only [matchLength_withRecursionLimit, Machine.called, hlookup, padded]
  cases hstart : p.names.lookup name with
  | none => simp
  | some start =>
    have hcode : p.code.toList = (Grammar.ofSource source).drafts.map
        (Draft.resolve p.names.lookup) := hcompiled.code
    have hpadded (filler : Array Instruction) (hfiller : (p.code ++ filler).size = p'.code.size)
        (levels l : Nat) : Machine.runAt ⟨p'.code, l⟩ levels start input =
          Machine.runAt ⟨p.code ++ filler, l⟩ levels start input :=
      Machine.runAt_eq_of_size_eq (by rfl) hfiller.symm hsize
        (fun name start => (hcompiled.lookup_iff name start).1) (hcode'.trans (by rw [hcode]))
        (Array.toList_append.trans (by rw [hcode])) levels hstart input
    refine ⟨hpadded _ ?_ _ _, fun hloops => ?_⟩
    · rw [Array.size_append, Array.size_replicate]
      omega
    · exact (@Machine.Compiled.runAt_eq _ ⟨p'.code, _⟩ _ _ _ hcompiled hloops rfl hcode' _ _ _
        hstart input).symm

def sampleMore : Batch := (sampleBatch.defineSource "e='k'{3}").2

def sampleMoreProgram : Program :=
  match sampleMore.finish false with
  | .ok p => p
  | .error _ => ⟨#[], .empty, [], 0⟩

theorem matchLength_defineSource_sample :
    (sampleMoreProgram.withRecursionLimit 5).matchLength "x" [97, 98] =
        ((sampleProgram.padded 13).withRecursionLimit 5).matchLength "x" [97, 98] ∧
      (sampleMoreProgram.withRecursionLimit 5).matchLength "x" [97, 98] =
        (sampleProgram.withRecursionLimit 5).matchLength "x" [97, 98] := by
  have hsize : sampleMoreProgram.code.size = 13 := by cbv
  have hgrammar : Grammar.ofSource sampleSource = Grammar.ofDefinitions sample := by cbv
  have hboth := matchLength_defineSource
    (show Batch.empty.defineSource sampleSource =
      (.ok [⟨"x", 0, 7⟩, ⟨"y", 7, 9⟩], sampleBatch) by cbv)
    (show sampleBatch.defineSource "e='k'{3}" = (.ok [⟨"e", 9, 13⟩], sampleMore) by cbv)
    (show sampleBatch.finish false = .ok sampleProgram by cbv)
    (show sampleMore.finish false = .ok sampleMoreProgram by cbv)
    (by
      have hfixups : sampleBatch.fixups = #[⟨3, "y", ⟨2, 3⟩, 0⟩] := by cbv
      simp [hfixups])
    (by rw [hsize]; decide) 5 (show "x" ∈ ["x", "y"] by decide) [97, 98]
  rw [hsize] at hboth
  exact ⟨hboth.1, hboth.2 (hgrammar ▸ loopsConsume_sample)⟩

/-- A loop whose operand can match nothing, before a choice that prefers its first branch. -/
def emptyLoop : Batch := (Batch.empty.defineSource "x=['z'?]*['q'?'q'?'a'|'a''b']").2

def emptyLoopProgram : Program :=
  match emptyLoop.finish false with
  | .ok p => p
  | .error _ => ⟨#[], .empty, [], 0⟩

def emptyLoopMoreProgram : Program :=
  match (emptyLoop.defineSource "e='k'{3}").2.finish false with
  | .ok p => p
  | .error _ => ⟨#[], .empty, [], 0⟩

/-- Around such a loop the bound can give up the preferred way, and the match then depends on how
many instructions there are. -/
theorem matchLength_emptyLoop (limit : Nat) :
    (emptyLoopProgram.withRecursionLimit limit).matchLength "x" [97, 98] = .ok (some 2) ∧
      (emptyLoopMoreProgram.withRecursionLimit limit).matchLength "x" [97, 98] = .ok (some 1) := by
  constructor <;> cbv

end Program
end LexicalPatterns
