import LexicalPatterns.Diagnostic
import LexicalPatterns.Origins

/-!
# Pattern libraries

A library is the program of several documents, whose definitions may refer to each other in either
direction, with a warning for every reference that none of them answers.
-/

namespace LexicalPatterns

structure Library where
  program : Program
  documents : List Document
  /-- Dangling references, ordered by place. -/
  warnings : List Diagnostic

namespace Library

/-- Adds the definitions of the documents to a batch. Their references come from the position of
their document, which is `origin` for the first. -/
def collect : (origin : Nat) → List Document → Batch → Except Diagnostic Batch
  | _, [], b => .ok b
  | origin, d :: ds, b =>
    match (b.withOrigin origin).defineSource d.text with
    | (.error e, _) => .error (.ofError d e)
    | (.ok _, b) => collect (origin + 1) ds b

def warningsOf (documents : List Document) (p : Program) : List Diagnostic :=
  (p.dangling.filterMap fun r => documents[r.origin]?.map (Diagnostic.ofDangling · r)).mergeSort
    Diagnostic.precedes

theorem exists_of_collect_cons {origin : Nat} {d : Document} {ds : List Document} {b b' : Batch}
    (h : collect origin (d :: ds) b = .ok b') : ∃ placed b₁,
      (b.withOrigin origin).defineSource d.text = (.ok placed, b₁) ∧
        collect (origin + 1) ds b₁ = .ok b' := by
  unfold collect at h
  split at h
  · cases h
  · next placed b₁ hsource => exact ⟨placed, b₁, hsource, h⟩

theorem within_of_collect {origin bound : Nat} {documents : List Document} {b b' : Batch}
    (h : b.Within bound) (hbound : origin + documents.length ≤ bound)
    (hcollect : collect origin documents b = .ok b') : b'.Within bound := by
  induction documents generalizing origin b with
  | nil => exact Except.ok.inj hcollect ▸ h
  | cons d ds ih =>
    rw [List.length_cons] at hbound
    have hb : (b.withOrigin origin).Within bound := h
    have horigin : (b.withOrigin origin).origin < bound := by
      dsimp only [Batch.withOrigin]
      omega
    have hwithin := hb.defineSource horigin d.text
    obtain ⟨_, b₁, hsource, hrest⟩ := exists_of_collect_cons hcollect
    rw [hsource] at hwithin
    exact ih hwithin (by omega) hrest

theorem origin_lt_of_finish {documents : List Document} {b : Batch} {strict : Bool}
    {e : CompileError} (hcollect : collect 0 documents .empty = .ok b)
    (hfinish : b.finish strict = .error e) : e.origin < documents.length :=
  have hempty : Batch.empty.Within documents.length := nofun
  (within_of_collect hempty (by omega) hcollect).origin_lt_of_finish hfinish

/-- The library of the documents, in their order. A batch that cannot be finished is refused for
the document with the reference. -/
def load (documents : List Document) (strict : Bool) (recursionLimit : Nat) :
    Except Diagnostic Library :=
  match hcollect : collect 0 documents .empty with
  | .error d => .error d
  | .ok batch =>
    match hfinish : batch.finish strict with
    | .error e =>
      have : e.origin < documents.length := origin_lt_of_finish hcollect hfinish
      .error (.ofError documents[e.origin] (.compile e))
    | .ok program => .ok {
        program := program.withRecursionLimit recursionLimit
        documents := documents
        warnings := warningsOf documents program
      }

end Library
end LexicalPatterns
