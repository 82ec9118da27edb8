import LexicalPatterns.Proofs.Batch.Patterns

/-!
# Sessions

In a session a new batch is asked for one thing after another: to tag the references that follow,
to add a definition, to add the definitions of a source. The session keeps account of what the batch
has accepted. At any time the batch contains what the accepted definitions contribute, one behind
the other, and nothing of those that it has refused.
-/

namespace LexicalPatterns

/-- A definition that a batch has accepted, and its place in the code. -/
structure Accepted where
  /-- The source that its references come from. -/
  origin : Nat
  source : String
  forest : Forest
  placed : Placed

namespace Accepted

def rule (a : Accepted) : Rule := ⟨a.placed.name, a.source, a.forest.items⟩

def fixups (a : Accepted) : List Fixup := Draft.fixups a.origin a.placed.start a.rule.drafts

end Accepted

namespace Batch

/-- The definitions that a batch accepts until it refuses one. -/
def acceptedAll (source : String) : List Forest → Batch → List Accepted
  | [], _ => []
  | f :: fs, b =>
    match b.compile source f with
    | (.error _, _) => []
    | (.ok placed, b') => ⟨b.origin, source, f, placed⟩ :: acceptedAll source fs b'

def acceptedOf (b : Batch) (source : String) : List Accepted :=
  match definitions source with
  | .error _ => []
  | .ok fs => acceptedAll source fs b

end Batch

/-- What a batch can be asked for. -/
inductive Request where
  | origin (n : Nat)
  | define (source : String) (f : Forest)
  | source (text : String)

/-- What a batch answers to a request. -/
inductive Response where
  | origin
  | define (outcome : Except CompileError Placed)
  | source (outcome : Except PatternError (List Placed))
  deriving DecidableEq

namespace Batch

def respond (b : Batch) : Request → Response × Batch
  | .origin n => (.origin, b.withOrigin n)
  | .define source f =>
    let (outcome, b) := b.compile source f
    (.define outcome, b)
  | .source text =>
    let (outcome, b) := b.defineSource text
    (.source outcome, b)

/-- What a batch answers to requests in order, and the batch behind them. -/
def respondAll (b : Batch) : List Request → List Response × Batch
  | [] => ([], b)
  | r :: rs =>
    let (response, b) := b.respond r
    let (responses, b) := b.respondAll rs
    (response :: responses, b)

/-- The definitions of a request that a batch accepts. -/
def acceptedBy (b : Batch) : Request → List Accepted
  | .origin _ => []
  | .define source f =>
    match (b.compile source f).1 with
    | .error _ => []
    | .ok placed => [⟨b.origin, source, f, placed⟩]
  | .source text => b.acceptedOf text

end Batch

/-- A batch, and what it has accepted since it was new, in order. -/
structure Session where
  batch : Batch
  accepted : List Accepted

namespace Session

def empty : Session := ⟨.empty, []⟩

/-- What a refused request leaves in the batch stays in the session. -/
def perform (s : Session) (r : Request) : Session :=
  ⟨(s.batch.respond r).2, s.accepted ++ s.batch.acceptedBy r⟩

def after (rs : List Request) : Session := rs.foldl perform empty

/-- The batch of a session is the one behind the answers to its requests. -/
theorem batch_after (rs : List Request) : (after rs).batch = (Batch.empty.respondAll rs).2 := by
  suffices h : ∀ s : Session, (rs.foldl perform s).batch = (s.batch.respondAll rs).2 from h empty
  induction rs with
  | nil => exact fun _ => rfl
  | cons r rs ih => exact fun s => ih (s.perform r)

def grammar (s : Session) : Grammar := s.accepted.map Accepted.rule

/-- Whether the batch contains what the accepted definitions contribute. -/
structure Sound (s : Session) : Prop where
  holds : s.batch.Holds s.grammar
  fixups : s.batch.fixups.toList = s.accepted.flatMap Accepted.fixups
  placed : s.accepted.map (·.placed) = s.grammar.placedFrom 0

theorem sound_empty : empty.Sound := ⟨Batch.holds_empty, rfl, rfl⟩

variable {s : Session} {b b' : Batch} {as : List Accepted} {a : Accepted}

theorem Sound.withOrigin (h : s.Sound) (n : Nat) :
    Sound ⟨s.batch.withOrigin n, s.accepted⟩ where
  holds := ⟨h.holds.code, h.holds.fixups, h.holds.ordered, h.holds.entries⟩
  fixups := h.fixups
  placed := h.placed

theorem Sound.alike (h : Sound ⟨b, as⟩) (hsame : b.Alike b') : Sound ⟨b', as⟩ where
  holds := h.holds.alike hsame
  fixups := hsame.fixups ▸ h.fixups
  placed := h.placed

/-- An accepted definition contributes its code, its references and its name, behind those of the
others. -/
theorem Sound.compile (h : Sound ⟨b, as⟩) {source : String} {f : Forest} {p : Placed}
    (hcompile : b.compile source f = (.ok p, b')) :
    Sound ⟨b', as ++ [⟨b.origin, source, f, p⟩]⟩ := by
  obtain ⟨r, names, hverdict, hreg, rfl, hsame⟩ := h.holds.inCode.compile_eq_ok hcompile
  obtain ⟨name, -, rfl⟩ := Option.map_eq_some_iff.1 (Batch.verdict_eq_ok.1 hverdict).1
  refine Sound.alike ?_ hsame
  have hgrammar : grammar ⟨b.place ⟨name, source, f.items⟩ names, as ++ [⟨b.origin, source, f,
      ⟨name, b.buffer.size, b.buffer.size + (Rule.drafts ⟨name, source, f.items⟩).length⟩⟩]⟩ =
        as.map Accepted.rule ++ [⟨name, source, f.items⟩] := by
    rw [grammar, List.map_append]
    rfl
  refine ⟨?_, ?_, ?_⟩
  · rw [hgrammar]
    exact h.holds.place hreg
  · have hfixups : b.fixups.toList = as.flatMap Accepted.fixups := h.fixups
    rw [Batch.place, Array.toList_append, hfixups, List.flatMap_append, List.flatMap_singleton]
    rfl
  · have hplaced : as.map (·.placed) = Grammar.placedFrom 0 (as.map Accepted.rule) := h.placed
    have hsize : b.buffer.size = (Grammar.drafts (as.map Accepted.rule)).length :=
      h.holds.size_buffer
    rw [hgrammar, Grammar.placedFrom_append, ← hplaced, List.map_append, Nat.zero_add, ← hsize]
    rfl

theorem Sound.defineAll (h : Sound ⟨b, as⟩) (source : String) (fs : List Forest) :
    Sound ⟨(Batch.defineAll source fs b).2, as ++ b.acceptedAll source fs⟩ := by
  induction fs generalizing b as with
  | nil => simpa [Batch.defineAll, Batch.acceptedAll] using h
  | cons f fs ih =>
    unfold Batch.defineAll Batch.acceptedAll
    rcases hcompile : b.compile source f with ⟨e | p, b₁⟩
    · simpa [Except.map] using h.alike (h.holds.inCode.compile_eq_error hcompile).2
    · have hrest := ih (h.compile hcompile)
      rwa [List.append_assoc] at hrest

theorem Sound.perform (h : s.Sound) (r : Request) : (s.perform r).Sound := by
  unfold Session.perform
  cases r with
  | origin n => simpa only [Batch.respond, Batch.acceptedBy, List.append_nil] using h.withOrigin n
  | define source f =>
    rcases hcompile : s.batch.compile source f with ⟨e | p, b⟩
    · -- what was cut off leaves the batch as it was
      have hsame := (h.holds.inCode.compile_eq_error hcompile).2
      simpa only [Batch.respond, Batch.acceptedBy, hcompile, List.append_nil] using h.alike hsame
    · simpa only [Batch.respond, Batch.acceptedBy, hcompile] using h.compile hcompile
  | source text =>
    rcases hfs : Batch.definitions text with e | fs
    · simpa only [Batch.respond, Batch.acceptedBy, Batch.defineSource, Batch.acceptedOf, hfs,
        List.append_nil] using h
    · simpa only [Batch.respond, Batch.acceptedBy, Batch.defineSource, Batch.acceptedOf, hfs]
        using h.defineAll text fs

/-- At any time a batch contains what the accepted definitions contribute. -/
theorem sound_after (rs : List Request) : (after rs).Sound := by
  unfold after
  suffices h : ∀ s : Session, s.Sound → (rs.foldl Session.perform s).Sound from h _ sound_empty
  induction rs with
  | nil => exact fun _ h => h
  | cons r rs ih => exact fun s h => ih _ (h.perform r)

/-- Of a source whose second definition is refused the first one stays. -/
example : (after [.source "x=y'a'", .origin 3, .source "y='b'{2} x='c'"]).accepted.map
    (fun a => (a.origin, a.placed)) = [(0, ⟨"x", 0, 3⟩), (3, ⟨"y", 3, 6⟩)] := by cbv

theorem Sound.placed_eq (h : s.Sound) {before after : List Accepted}
    (hsplit : s.accepted = before ++ a :: after) :
    a.placed.start = (Grammar.drafts (before.map Accepted.rule)).length ∧
      a.placed.stop = a.placed.start + a.rule.drafts.length := by
  have hplaced := h.placed
  rw [grammar, hsplit, List.map_append, List.map_append, Grammar.placedFrom_append,
    Nat.zero_add] at hplaced
  have hlength : (before.map (·.placed)).length =
      (Grammar.placedFrom 0 (before.map Accepted.rule)).length := by
    rw [Grammar.length_placedFrom, List.length_map, List.length_map]
  have htail := (List.append_inj hplaced hlength).2
  have hhead : a.placed = _ := (List.cons.inj htail).1
  rw [hhead]
  exact ⟨rfl, rfl⟩

theorem Sound.stop_eq (h : s.Sound) (ha : a ∈ s.accepted) :
    a.placed.stop = a.placed.start + a.rule.drafts.length := by
  obtain ⟨before, after, hsplit⟩ := List.append_of_mem ha
  exact (h.placed_eq hsplit).2

theorem Sound.draftsAt (h : s.Sound) (ha : a ∈ s.accepted) :
    Machine.DraftsAt ⟨s.batch.code, 0⟩ (fun _ => none) a.placed.start a.rule.drafts := by
  obtain ⟨before, after, hsplit⟩ := List.append_of_mem ha
  have hdrafts : s.grammar.drafts =
      Grammar.drafts (before.map Accepted.rule) ++
        (a.rule.drafts ++ Grammar.drafts (after.map Accepted.rule)) := by
    rw [grammar, hsplit, List.map_append, List.map_cons, Grammar.drafts_append,
      Grammar.drafts_cons]
  have hat := h.holds.draftsAt
  rw [hdrafts, Machine.draftsAt_append, Machine.draftsAt_append, Nat.zero_add,
    ← (h.placed_eq hsplit).1] at hat
  exact hat.2.1

end Session
end LexicalPatterns
