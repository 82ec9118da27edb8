import LexicalPatterns.Proofs.Batch.Validity
import LexicalPatterns.Proofs.Emission.Afresh

/-!
# Compiling without templates

A batch that writes every copy of an operand afresh takes on the same code and the same references
for a definition as one that duplicates the first copy. It refuses the same definitions for the same
reasons, but for those that grow too large.
-/

namespace LexicalPatterns.Batch

variable {b b' : Batch} {source : String} {f : Forest}

theorem InCode.compile_afresh (h : b.InCode) {outcome : Except CompileError Placed}
    (hcompile : b.compile source f = (outcome, b'))
    (hsize : ∀ span, outcome ≠ .error (.patternTooLarge span)) :
    ∃ b'', b.compileWith Emit.Afresh.body source f = (outcome, b'') ∧ b'.Alike b'' := by
  by_cases hknown : ∀ name ∈ f.name source, (b.names.lookup name).isSome
  · rw [compile_eq_compileWith, compileWith_congr hknown _ Emit.Afresh.body] at hcompile
    exact ⟨b', hcompile, .refl b'⟩
  · obtain ⟨name, hname, hlookup⟩ : ∃ name, f.name source = some name ∧
        b.names.lookup name = none := by
      simpa using hknown
    obtain ⟨root, d, rest, hnodes⟩ := Forest.exists_nodes_of_name hname
    obtain ⟨names, hreg⟩ := NameTable.register_of_lookup_eq_none hlookup b.buffer.size
    have hagrees : Emit.Agrees b.emitter [] (Emit.body source f.items) (body source f) :=
      Emit.body_agrees h.fresh f.items
    have hafresh := Emit.body_agrees_afresh b.emitter source f.items
    have hheeds := heeds_body source f
    rw [compile_eq_compileWith] at hcompile
    cases hbody : body source f with
    | error e =>
      obtain ⟨b₁, hrun, hsame⟩ :=
        compileWith_of_refuses hnodes hname hreg (hagrees.refuses hbody)
      obtain ⟨rfl, rfl⟩ : .error e = outcome ∧ b₁ = b' := Prod.mk.inj (hrun.symm.trans hcompile)
      rw [hbody] at hheeds
      rcases hheeds with hcheck | ⟨span, rfl⟩
      · obtain ⟨b₂, hrun', hsame'⟩ :=
          compileWith_of_refuses hnodes hname hreg (hafresh.refuses_of_map hcheck)
        exact ⟨b₂, hrun', hsame.symm.trans hsame'⟩
      · exact absurd rfl (hsize span)
    | ok ds =>
      obtain rfl : ds = Rule.drafts ⟨name, source, f.items⟩ := body_eq_ok hbody
      obtain ⟨b₁, hrun, hsame⟩ := compileWith_of_gives hnodes hname hreg (hagrees.gives hbody)
      obtain ⟨rfl, rfl⟩ := Prod.mk.inj (hrun.symm.trans hcompile)
      rw [hbody] at hheeds
      have hgives : Emit.Gives b.emitter [] (Emit.Afresh.body source f.items) ()
          (Rule.drafts ⟨name, source, f.items⟩) :=
        hafresh.gives_of_map hheeds
      obtain ⟨b₂, hrun', hsame'⟩ := compileWith_of_gives hnodes hname hreg hgives
      exact ⟨b₂, hrun', hsame.symm.trans hsame'⟩

/-- Whatever a batch has been asked for, what it comes to for a definition, the size apart, it comes
to as well when it writes every copy of an operand afresh, and then it holds the same code, the same
references in the same order and the same names. -/
theorem compile_afresh_after (rs : List Request) (source : String) (f : Forest)
    {outcome : Except CompileError Placed} {b' : Batch}
    (hcompile : (empty.respondAll rs).2.compile source f = (outcome, b'))
    (hsize : ∀ span, outcome ≠ .error (.patternTooLarge span)) :
    ∃ b'', (empty.respondAll rs).2.compileWith Emit.Afresh.body source f = (outcome, b'') ∧
      b'.Alike b'' :=
  (wellFormed_empty.respondAll rs).inCode.compile_afresh hcompile hsize

def twice : Forest :=
  ⟨[⟨.definition, ⟨0, 6⟩, 2⟩, ⟨.declaration, ⟨0, 1⟩, 0⟩, ⟨.exactly 2, ⟨2, 6⟩, 1⟩,
    ⟨.reference, ⟨2, 3⟩, 0⟩]⟩

theorem compile_twice :
    ((empty.respondAll [.source "y='b'"]).2.compile "x=y{2}" twice).1 = .ok ⟨"x", 2, 5⟩ := by
  cbv

theorem compile_afresh_after_twice :
    let b := (empty.respondAll [.source "y='b'"]).2
    (b.compile "x=y{2}" twice).1 = .ok ⟨"x", 2, 5⟩ ∧
      ∃ b'', b.compileWith Emit.Afresh.body "x=y{2}" twice = (.ok ⟨"x", 2, 5⟩, b'') ∧
        (b.compile "x=y{2}" twice).2.Alike b'' :=
  ⟨compile_twice, compile_afresh_after [.source "y='b'"] "x=y{2}" twice
    (Prod.ext compile_twice rfl) (by simp)⟩

end LexicalPatterns.Batch
