import LexicalPatterns.Batch
import LexicalPatterns.Proofs.Emission.Trees
import LexicalPatterns.Proofs.Meaning.Drafts

/-!
# Compiling a definition

Whether a definition is accepted depends on the names that are taken and on its tree. The code of an
accepted definition stands behind all other code, with its references and its name. Of a refused one
nothing stays but the room that has been reserved for its code.
-/

namespace LexicalPatterns

theorem Forest.exists_nodes_of_name {f : Forest} {source name : String}
    (h : f.name source = some name) : ∃ root d rest, f.nodes = root :: d :: rest := by
  unfold Forest.name at h
  split at h
  · next root d rest hnodes => exact ⟨root, d, rest, hnodes⟩
  · cases h

namespace Rule

/-- The pattern that a forest over a source defines. -/
def ofForest? (source : String) (f : Forest) : Option Rule :=
  (f.name source).map fun name => ⟨name, source, f.items⟩

def drafts (r : Rule) : List Draft :=
  (Tree.draftsAll r.source r.items).flatten ++ [.emit .terminal]

end Rule

theorem NameTable.register_of_lookup_eq_none {t : NameTable} {name : String}
    (h : t.lookup name = none) (start : Nat) : ∃ t', t.register name start = .ok t' := by
  rw [lookup, Option.map_eq_none_iff] at h
  unfold register
  rw [h]
  exact ⟨_, rfl⟩

theorem NameTable.lookup_eq_none_of_register {t t' : NameTable} {name : String} {start : Nat}
    (h : t.register name start = .ok t') : t.lookup name = none := by
  unfold register at h
  split at h
  · cases h
  · next hfind => rw [lookup, hfind, Option.map_none]

namespace Batch

def body (source : String) (f : Forest) : Except CompileError (List Draft) := do
  let ds ← Draft.ofTrees source 0 f.items
  return ds ++ [.emit .terminal]

theorem body_eq_ok {source : String} {f : Forest} {ds : List Draft}
    (h : body source f = .ok ds) :
    ds = (Tree.draftsAll source f.items).flatten ++ [.emit .terminal] := by
  obtain ⟨inner, hinner, hds⟩ := bind_eq_ok.1 h
  have hdrafts : (Tree.draftsAll source f.items).flatten = inner :=
    Draft.ofTrees_eq_ok (fun _ _ _ _ => Draft.ofTree_eq_ok) hinner
  rw [hdrafts]
  exact (Except.ok.inj hds).symm

/-- The pattern that a definition adds where some names are taken, or why it is refused. -/
def verdict (names : NameTable) (source : String) (f : Forest) : Except CompileError Rule :=
  match f.nodes, f.name source with
  | _ :: d :: _, some name =>
    if (names.lookup name).isSome then .error (.duplicatePattern name d.span)
    else (body source f).map fun _ => ⟨name, source, f.items⟩
  | root :: _, _ => .error (.notADefinition root.span)
  | [], _ => .error (.notADefinition (.empty 0))

theorem verdict_eq_ok {names : NameTable} {source : String} {f : Forest} {r : Rule} :
    verdict names source f = .ok r ↔
      Rule.ofForest? source f = some r ∧ names.lookup r.name = none ∧
        body source f = .ok r.drafts := by
  constructor
  · intro h
    unfold verdict at h
    split at h
    · next name _ hname =>
      split at h
      · cases h
      · next hlookup =>
        obtain ⟨ds, hbody, rfl⟩ := map_eq_ok.1 h
        refine ⟨by rw [Rule.ofForest?, hname]; rfl, by simpa using hlookup, ?_⟩
        rw [hbody, body_eq_ok hbody]
        rfl
    · cases h
    · cases h
  · rintro ⟨hr, hlookup, hbody⟩
    obtain ⟨name, hname, rfl⟩ := Option.map_eq_some_iff.1 hr
    obtain ⟨root, d, rest, hnodes⟩ := Forest.exists_nodes_of_name hname
    have hlookup : names.lookup name = none := hlookup
    unfold verdict
    simp only [hnodes, hname, hlookup, hbody]
    rfl

/-- Whether two batches hold the same. They may have reserved different room for code. -/
structure Alike (b b' : Batch) : Prop where
  code : b'.code = b.code
  names : b'.names = b.names
  fixups : b'.fixups = b.fixups
  origin : b'.origin = b.origin

/-- The batch with the layout of one more pattern behind the others, and a table of names for it. -/
def place (b : Batch) (r : Rule) (names : NameTable) : Batch where
  buffer := b.buffer.append (r.drafts.map Draft.instruction).toArray
  names := names
  fixups := b.fixups ++ (Draft.fixups b.origin b.buffer.size r.drafts).toArray
  origin := b.origin

/-- What compiling a definition can come to. -/
inductive Compiled (b : Batch) (source : String) (f : Forest) :
    Except CompileError Placed × Batch → Prop where
  | refused {e : CompileError} {b' : Batch} (reason : verdict b.names source f = .error e)
      (same : b.Alike b') : Compiled b source f (.error e, b')
  | accepted {r : Rule} {names : NameTable} {b' : Batch}
      (rule : verdict b.names source f = .ok r)
      (registered : b.names.register r.name b.buffer.size = .ok names)
      (same : (b.place r names).Alike b') :
      Compiled b source f (.ok ⟨r.name, b.buffer.size, b.buffer.size + r.drafts.length⟩, b')

/-- Whether the references of a batch stand in its code. -/
def InCode (b : Batch) : Prop := ∀ f ∈ b.fixups, f.index < b.buffer.size

variable {b b' : Batch} {source : String} {f : Forest}

theorem inCode_empty : empty.InCode := by
  intro f hf
  simp [empty] at hf

def emitter (b : Batch) : Emitter := ⟨b.buffer, b.fixups, b.origin, b.buffer.size⟩

theorem InCode.fresh (h : b.InCode) : b.emitter.Fresh := ⟨rfl, h⟩

def cutOff (b : Batch) (e : Emitter) : Batch :=
  { b with buffer := e.buffer.truncate b.buffer.size, fixups := e.fixups.take b.fixups.size }

def adopt (b : Batch) (e : Emitter) (names : NameTable) : Batch :=
  { b with buffer := e.buffer, fixups := e.fixups, names }

theorem alike_cutOff {ds : List Draft} {e : Emitter} (h : b.emitter.Extends ds e) :
    b.Alike (b.cutOff e) where
  code := by
    apply Array.toList_inj.1
    have hcode : e.buffer.code.toList = b.code.toList ++ ds.map Draft.instruction := h.code
    have hlength : b.buffer.size = b.code.toList.length := Array.length_toList.symm
    simp only [Batch.code, cutOff, CodeBuffer.truncate, Array.take_eq_extract, Array.toList_extract]
    rw [hcode, hlength]
    exact List.take_left
  names := rfl
  fixups := by
    apply Array.toList_inj.1
    have hfixups : e.fixups.toList = b.fixups.toList ++ Draft.fixups b.origin b.buffer.size ds :=
      h.fixups
    have hlength : b.fixups.size = b.fixups.toList.length := Array.length_toList.symm
    rw [cutOff, Array.take_eq_extract, Array.toList_extract, hfixups, hlength]
    exact List.take_left
  origin := rfl

/-- What is written for an accepted definition is the layout of its pattern. -/
theorem alike_adopt {r : Rule} {e : Emitter} (h : b.emitter.Extends r.drafts e)
    (names : NameTable) : (b.place r names).Alike (b.adopt e names) where
  code := by
    apply Array.toList_inj.1
    have hcode : e.buffer.code.toList = b.code.toList ++ r.drafts.map Draft.instruction := h.code
    simp [Batch.code, place, adopt, CodeBuffer.append, hcode]
  names := rfl
  fixups := by
    apply Array.toList_inj.1
    have hfixups : e.fixups.toList =
        b.fixups.toList ++ Draft.fixups b.origin b.buffer.size r.drafts := h.fixups
    simp [place, adopt, hfixups]
  origin := rfl

/-- Compiles the definition that is the first tree of a forest over `source`, where `write` writes
its body. -/
def compileWith (b : Batch) (write : String → List Tree → Emit Unit) (source : String)
    (f : Forest) : Except CompileError Placed × Batch :=
  match f.nodes, f.name source with
  | _ :: d :: _, some name =>
    if (b.names.lookup name).isSome then (.error (.duplicatePattern name d.span), b)
    else
      let start := b.buffer.size
      match (write source f.items).run ⟨b.buffer, b.fixups, b.origin, start⟩ with
      | (.error refusal, e) =>
        (.error refusal,
          { b with buffer := e.buffer.truncate start, fixups := e.fixups.take b.fixups.size })
      | (.ok _, e) =>
        let b := { b with buffer := e.buffer, fixups := e.fixups }
        match b.names.register name start with
        | .error _ => (.error (.duplicatePattern name d.span), b)
        | .ok names => (.ok ⟨name, start, e.buffer.size⟩, { b with names })
  | root :: _, _ => (.error (.notADefinition root.span), b)
  | [], _ => (.error (.notADefinition (.empty 0)), b)

theorem compile_eq_compileWith (b : Batch) (source : String) (f : Forest) :
    b.compile source f = b.compileWith Emit.body source f := rfl

theorem compileWith_congr (h : ∀ name ∈ f.name source, (b.names.lookup name).isSome)
    (write write' : String → List Tree → Emit Unit) :
    b.compileWith write source f = b.compileWith write' source f := by
  unfold compileWith
  split
  · next name _ hname => rw [if_pos (h name hname), if_pos (h name hname)]
  · rfl
  · rfl

theorem compile_of_name_eq_none (h : f.name source = none) :
    ∃ e, verdict b.names source f = .error e ∧ b.compile source f = (.error e, b) := by
  unfold verdict compile
  rw [h]
  rcases f.nodes with _ | ⟨root, _ | ⟨d, rest⟩⟩ <;> exact ⟨_, rfl, rfl⟩

section Named

variable {root d : Node} {rest : List Node} {name : String}
  (hnodes : f.nodes = root :: d :: rest) (hname : f.name source = some name)
include hnodes hname

theorem compile_of_known (hlookup : (b.names.lookup name).isSome) :
    b.compile source f = (.error (.duplicatePattern name d.span), b) := by
  unfold compile
  simp only [hnodes, hname, if_pos hlookup]

/-- A new name is registered where the code that is emitted for it starts. -/
theorem compileWith_of_new (write : String → List Tree → Emit Unit) {names : NameTable}
    (hreg : b.names.register name b.buffer.size = .ok names) :
    b.compileWith write source f = match (write source f.items).run b.emitter with
      | (.error refusal, e) => (.error refusal, b.cutOff e)
      | (.ok _, e) => (.ok ⟨name, b.buffer.size, e.buffer.size⟩, b.adopt e names) := by
  have hlookup : ¬ (b.names.lookup name).isSome :=
    Option.not_isSome_iff_eq_none.2 (NameTable.lookup_eq_none_of_register hreg)
  unfold compileWith emitter
  simp only [hnodes, hname, if_neg hlookup, hreg]
  rfl

theorem compile_of_new {names : NameTable}
    (hreg : b.names.register name b.buffer.size = .ok names) :
    b.compile source f = match (Emit.body source f.items).run b.emitter with
      | (.error refusal, e) => (.error refusal, b.cutOff e)
      | (.ok _, e) => (.ok ⟨name, b.buffer.size, e.buffer.size⟩, b.adopt e names) :=
  compileWith_of_new hnodes hname Emit.body hreg

theorem compileWith_of_refuses {write : String → List Tree → Emit Unit} {names : NameTable}
    (hreg : b.names.register name b.buffer.size = .ok names) {e : CompileError}
    (h : Emit.Refuses b.emitter [] (write source f.items) e) :
    ∃ b', b.compileWith write source f = (.error e, b') ∧ b.Alike b' := by
  obtain ⟨ds, e', hrun, hextends⟩ := h b.emitter b.emitter.extends_nil
  rw [compileWith_of_new hnodes hname write hreg, hrun]
  exact ⟨_, rfl, alike_cutOff hextends⟩

/-- A definition is accepted when its layout is written. -/
theorem compileWith_of_gives {write : String → List Tree → Emit Unit} {names : NameTable}
    (hreg : b.names.register name b.buffer.size = .ok names) {r : Rule}
    (h : Emit.Gives b.emitter [] (write source f.items) () r.drafts) :
    ∃ b', b.compileWith write source f =
        (.ok ⟨name, b.buffer.size, b.buffer.size + r.drafts.length⟩, b') ∧
      (b.place r names).Alike b' := by
  obtain ⟨e', hrun, hextends⟩ := h b.emitter b.emitter.extends_nil
  have hsize : e'.buffer.size = b.buffer.size + r.drafts.length := hextends.size
  rw [compileWith_of_new hnodes hname write hreg, hrun]
  simp only [hsize]
  exact ⟨_, rfl, alike_adopt hextends names⟩

end Named

/-- All that compiling a definition can do. -/
theorem InCode.compiled (h : b.InCode) : b.Compiled source f (b.compile source f) := by
  cases hname : f.name source with
  | none =>
    obtain ⟨e, hverdict, hcompile⟩ := compile_of_name_eq_none (b := b) hname
    rw [hcompile]
    exact .refused hverdict ⟨rfl, rfl, rfl, rfl⟩
  | some name =>
    obtain ⟨root, d, rest, hnodes⟩ := Forest.exists_nodes_of_name hname
    have hverdict : verdict b.names source f = _ := verdict.eq_def b.names source f
    simp only [hnodes, hname] at hverdict
    by_cases hlookup : (b.names.lookup name).isSome
    · rw [if_pos hlookup] at hverdict
      rw [compile_of_known hnodes hname hlookup]
      exact .refused hverdict ⟨rfl, rfl, rfl, rfl⟩
    · rw [if_neg hlookup] at hverdict
      obtain ⟨names, hreg⟩ :=
        NameTable.register_of_lookup_eq_none (Option.not_isSome_iff_eq_none.1 hlookup)
          b.buffer.size
      have hagrees : Emit.Agrees b.emitter [] (Emit.body source f.items) (body source f) :=
        Emit.body_agrees h.fresh f.items
      rw [compile_eq_compileWith]
      cases hbody : body source f with
      | error e =>
        rw [hbody] at hverdict
        obtain ⟨b', hcompile, hsame⟩ :=
          compileWith_of_refuses hnodes hname hreg (hagrees.refuses hbody)
        rw [hcompile]
        exact .refused hverdict hsame
      | ok ds =>
        obtain rfl : ds = Rule.drafts ⟨name, source, f.items⟩ := body_eq_ok hbody
        rw [hbody] at hverdict
        obtain ⟨b', hcompile, hsame⟩ :=
          compileWith_of_gives hnodes hname hreg (hagrees.gives hbody)
        rw [hcompile]
        exact .accepted hverdict hreg hsame

theorem InCode.compile_eq_ok (h : b.InCode) {p : Placed}
    (hcompile : b.compile source f = (.ok p, b')) :
    ∃ r names, verdict b.names source f = .ok r ∧
      b.names.register r.name b.buffer.size = .ok names ∧
      p = ⟨r.name, b.buffer.size, b.buffer.size + r.drafts.length⟩ ∧
      (b.place r names).Alike b' := by
  have hcompiled : b.Compiled source f (b.compile source f) := h.compiled
  rw [hcompile] at hcompiled
  cases hcompiled with
  | accepted rule registered same => exact ⟨_, _, rule, registered, rfl, same⟩

theorem InCode.compile_eq_error (h : b.InCode) {e : CompileError}
    (hcompile : b.compile source f = (.error e, b')) :
    verdict b.names source f = .error e ∧ b.Alike b' := by
  have hcompiled : b.Compiled source f (b.compile source f) := h.compiled
  rw [hcompile] at hcompiled
  cases hcompiled with
  | refused reason same => exact ⟨reason, same⟩

theorem InCode.exists_compile (h : b.InCode) {r : Rule}
    (hverdict : verdict b.names source f = .ok r) :
    ∃ p b', b.compile source f = (.ok p, b') := by
  have hcompiled : b.Compiled source f (b.compile source f) := h.compiled
  generalize b.compile source f = result at hcompiled
  cases hcompiled with
  | refused reason => simp [hverdict] at reason
  | accepted => exact ⟨_, _, rfl⟩

namespace Alike

variable {b'' : Batch}

theorem refl (b : Batch) : b.Alike b := ⟨rfl, rfl, rfl, rfl⟩

theorem symm (h : b.Alike b') : b'.Alike b :=
  ⟨h.code.symm, h.names.symm, h.fixups.symm, h.origin.symm⟩

theorem trans (h : b.Alike b') (h' : b'.Alike b'') : b.Alike b'' :=
  ⟨h'.code.trans h.code, h'.names.trans h.names, h'.fixups.trans h.fixups,
    h'.origin.trans h.origin⟩

theorem size_buffer (h : b.Alike b') : b'.buffer.size = b.buffer.size := congrArg Array.size h.code

theorem withOrigin (h : b.Alike b') (n : Nat) : (b.withOrigin n).Alike (b'.withOrigin n) :=
  ⟨h.code, h.names, h.fixups, rfl⟩

theorem place (h : b.Alike b') (r : Rule) (names : NameTable) :
    (b.place r names).Alike (b'.place r names) where
  code := by
    have hcode : b'.buffer.code = b.buffer.code := h.code
    simp only [Batch.code, Batch.place, CodeBuffer.append, hcode]
  names := rfl
  fixups := by
    simp only [Batch.place, h.fixups, h.origin, h.size_buffer]
  origin := h.origin

theorem inCode (h : b.Alike b') (hb : b.InCode) : b'.InCode := by
  unfold InCode
  rw [h.fixups, h.size_buffer]
  exact hb

theorem finish_eq (h : b.Alike b') (strict : Bool) : b'.finish strict = b.finish strict := by
  simp only [finish, h.code, h.names, h.fixups]

end Alike

theorem inCode_place (h : b.InCode) (r : Rule) (names : NameTable) : (b.place r names).InCode := by
  intro f hf
  have hsize : (b.place r names).buffer.size = b.buffer.size + r.drafts.length := by
    simp [place]
  rw [hsize]
  rcases Array.mem_append.1 hf with hf | hf
  · exact Nat.lt_add_right _ (h f hf)
  · exact (Draft.index_mem_fixups (List.mem_toArray.1 hf)).2

theorem define_eq (b : Batch) (source : String) (f : Forest) :
    b.define source f = (b.compile source f).1.map fun p => (p, (b.compile source f).2) := by
  unfold Batch.define
  rcases b.compile source f with ⟨e | p, b'⟩ <;> rfl

theorem define_eq_ok {p : Placed} :
    b.define source f = .ok (p, b') ↔ b.compile source f = (.ok p, b') := by
  rw [define_eq]
  rcases b.compile source f with ⟨e | p', b''⟩ <;> simp [Except.map]

variable {result result' : Except CompileError Placed × Batch}

theorem Compiled.inCode (h : b.Compiled source f result) (hb : b.InCode) : result.2.InCode := by
  cases h with
  | refused reason same => exact same.inCode hb
  | accepted rule registered same => exact same.inCode (inCode_place hb _ _)

/-- Batches that hold the same answer alike, and then hold the same. -/
theorem Compiled.alike (h : b.Compiled source f result) (h' : b'.Compiled source f result')
    (hsame : b.Alike b') : result'.1 = result.1 ∧ result.2.Alike result'.2 := by
  cases h with
  | refused reason same =>
    cases h' with
    | refused reason' same' =>
      rw [hsame.names, reason] at reason'
      obtain rfl := Except.error.inj reason'
      exact ⟨rfl, same.symm.trans (hsame.trans same')⟩
    | accepted rule' =>
      rw [hsame.names, reason] at rule'
      cases rule'
  | accepted rule registered same =>
    cases h' with
    | refused reason' =>
      rw [hsame.names, rule] at reason'
      cases reason'
    | accepted rule' registered' same' =>
      rw [hsame.names, rule] at rule'
      obtain rfl := Except.ok.inj rule'
      rw [hsame.names, hsame.size_buffer, registered] at registered'
      obtain rfl := Except.ok.inj registered'
      exact ⟨by rw [hsame.size_buffer], same.symm.trans ((hsame.place _ _).trans same')⟩

end Batch
end LexicalPatterns
