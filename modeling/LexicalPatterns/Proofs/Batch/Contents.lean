import LexicalPatterns.Proofs.Batch.Compile
import LexicalPatterns.Proofs.NameTable.Lookup

/-!
# The contents of batches

What a batch holds after it has accepted definitions: their layouts one after the other, each with
a terminal behind it, the references in them, and the names with the places where their layouts
start. Finishing the batch resolves each reference in its place and changes nothing else.
-/

namespace LexicalPatterns

namespace Grammar

/-- The patterns that definitions, each over its source, define. -/
def ofDefinitions (ds : List (String × Forest)) : Grammar :=
  ds.filterMap fun d => Rule.ofForest? d.1 d.2

/-- The patterns that a source defines. -/
def ofSource (source : String) : Grammar :=
  match Batch.definitions source with
  | .ok fs => ofDefinitions (fs.map fun f => (source, f))
  | .error _ => []

def drafts (g : Grammar) : List Draft := g.flatMap Rule.drafts

/-- The names with the indices where their layouts start, the first one at `start`. -/
def entriesFrom (start : Nat) : Grammar → List Entry
  | [] => []
  | r :: g => ⟨r.name, start⟩ :: entriesFrom (start + r.drafts.length) g

theorem drafts_append (g g' : Grammar) : drafts (g ++ g') = g.drafts ++ g'.drafts :=
  List.flatMap_append

theorem drafts_singleton (r : Rule) : drafts [r] = r.drafts := by
  simp [drafts]

theorem entriesFrom_append (start : Nat) (g g' : Grammar) :
    entriesFrom start (g ++ g') =
      entriesFrom start g ++ entriesFrom (start + g.drafts.length) g' := by
  induction g generalizing start with
  | nil => rfl
  | cons r g ih =>
    rw [List.cons_append, entriesFrom, ih, entriesFrom, List.cons_append]
    simp [drafts, Nat.add_assoc]

theorem map_name_entriesFrom (start : Nat) (g : Grammar) :
    (entriesFrom start g).map (·.name) = g.map (·.name) := by
  induction g generalizing start with
  | nil => rfl
  | cons r g ih => rw [entriesFrom, List.map_cons, ih, List.map_cons]

end Grammar

namespace Batch

/-- A reference without the source that it comes from. -/
def anonymous (f : Fixup) : Fixup := { f with origin := 0 }

theorem map_anonymous_fixups (origin start : Nat) (ds : List Draft) :
    (Draft.fixups origin start ds).map anonymous = Draft.fixups 0 start ds := by
  induction ds generalizing start with
  | nil => rfl
  | cons d ds ih =>
    rw [Draft.fixups_cons, Draft.fixups_cons, List.map_append, ih]
    cases d <;> rfl

/-- Whether a batch holds the patterns of a grammar, in order. -/
structure Holds (b : Batch) (g : Grammar) : Prop where
  code : b.code.toList = g.drafts.map Draft.instruction
  fixups : b.fixups.toList.map anonymous = Draft.fixups 0 0 g.drafts
  ordered : b.names.Ordered
  entries : b.names.entries.toList.Perm (g.entriesFrom 0)

theorem holds_empty : empty.Holds [] where
  code := rfl
  fixups := rfl
  ordered := NameTable.ordered_empty
  entries := .refl _

variable {b b' : Batch} {g : Grammar} {source : String}

theorem Holds.size_buffer (h : b.Holds g) : b.buffer.size = g.drafts.length := by
  have hlength := congrArg List.length h.code
  simpa [Batch.code, CodeBuffer.size] using hlength

theorem Holds.getElem?_code (h : b.Holds g) (i : Nat) :
    b.code[i]? = (g.drafts[i]?).map Draft.instruction := by
  rw [← Array.getElem?_toList, h.code, List.getElem?_map]

theorem Holds.use_of_mem_fixups (h : b.Holds g) {f : Fixup} (hf : f ∈ b.fixups) :
    g.drafts[f.index]? = some (.use f.name f.span) := by
  have hmem : anonymous f ∈ Draft.fixups 0 0 g.drafts := by
    rw [← h.fixups]
    exact List.mem_map_of_mem hf.val
  obtain ⟨k, hd, hindex, -⟩ := Draft.mem_fixups_iff.1 hmem
  obtain rfl : f.index = k := hindex.trans (Nat.zero_add k)
  exact hd

theorem Holds.exists_fixup (h : b.Holds g) {i : Nat} {name : String} {span : Span}
    (hd : g.drafts[i]? = some (.use name span)) : ∃ f ∈ b.fixups, f.index = i ∧ f.name = name := by
  have hmem : (⟨i, name, span, 0⟩ : Fixup) ∈ Draft.fixups 0 0 g.drafts :=
    Draft.mem_fixups_iff.2 ⟨i, hd, (Nat.zero_add i).symm, rfl⟩
  rw [← h.fixups] at hmem
  obtain ⟨f, hf, hanonymous⟩ := List.mem_map.1 hmem
  exact ⟨f, .mk hf, congrArg Fixup.index hanonymous, congrArg Fixup.name hanonymous⟩

/-- The code of a batch is the layouts of its patterns, with no target in a reference. -/
theorem Holds.code_eq (h : b.Holds g) :
    b.code.toList = g.drafts.map (Draft.resolve fun _ => none) := by
  rw [h.code]
  exact List.map_congr_left fun d _ => d.resolve_none.symm

theorem Holds.draftsAt (h : b.Holds g) :
    Machine.DraftsAt ⟨b.code, 0⟩ (fun _ => none) 0 g.drafts :=
  @Machine.draftsAt_of_toList _ _ _ [] (by rw [h.code_eq, List.append_nil])

theorem Holds.inCode (h : b.Holds g) : b.InCode := by
  intro f hf
  rw [h.size_buffer]
  exact (List.getElem?_eq_some_iff.1 (h.use_of_mem_fixups hf)).1

theorem Holds.alike (h : b.Holds g) (hsame : b.Alike b') : b'.Holds g where
  code := hsame.code ▸ h.code
  fixups := hsame.fixups ▸ h.fixups
  ordered := hsame.names ▸ h.ordered
  entries := hsame.names ▸ h.entries

theorem Holds.place (h : b.Holds g) {r : Rule} {names : NameTable}
    (hreg : b.names.register r.name b.buffer.size = .ok names) :
    (b.place r names).Holds (g ++ [r]) := by
  obtain ⟨hordered, hperm⟩ := h.ordered.register hreg
  refine ⟨?_, ?_, hordered, ?_⟩
  · have hcode := h.code
    unfold Batch.code at hcode
    rw [Grammar.drafts_append, Grammar.drafts_singleton, List.map_append, ← hcode]
    simp [Batch.place, Batch.code, CodeBuffer.append]
  · rw [Batch.place, Array.toList_append, List.map_append, h.fixups, map_anonymous_fixups,
      Grammar.drafts_append, Grammar.drafts_singleton, Draft.fixups_append, h.size_buffer,
      Nat.zero_add]
  · rw [Grammar.entriesFrom_append, Nat.zero_add, ← h.size_buffer]
    exact hperm.trans ((h.entries.cons _).trans (List.perm_append_singleton _ _).symm)

/-- A batch that accepts a definition holds its pattern behind the others. -/
theorem Holds.compile (h : b.Holds g) {f : Forest} {p : Placed}
    (hcompile : b.compile source f = (.ok p, b')) :
    ∃ r, verdict b.names source f = .ok r ∧ p.name = r.name ∧ b'.Holds (g ++ [r]) := by
  obtain ⟨r, names, hverdict, hreg, rfl, hsame⟩ := h.inCode.compile_eq_ok hcompile
  exact ⟨r, hverdict, rfl, (h.place hreg).alike hsame⟩

def defineEach (b : Batch) : List (String × Forest) → Except CompileError Batch
  | [] => .ok b
  | (source, f) :: ds => do
    let (_, b) ← b.define source f
    b.defineEach ds

theorem Holds.defineEach {ds : List (String × Forest)} (h : b.Holds g)
    (hds : b.defineEach ds = .ok b') : b'.Holds (g ++ Grammar.ofDefinitions ds) := by
  induction ds generalizing b g with
  | nil =>
    obtain rfl : b = b' := Except.ok.inj hds
    simpa [Grammar.ofDefinitions] using h
  | cons d ds ih =>
    obtain ⟨⟨p, b₁⟩, hdefine, hds⟩ := bind_eq_ok.1 hds
    obtain ⟨r, hverdict, -, h₁⟩ := h.compile (define_eq_ok.1 hdefine)
    have hr := (verdict_eq_ok.1 hverdict).1
    have hcons : Grammar.ofDefinitions (d :: ds) = r :: Grammar.ofDefinitions ds :=
      List.filterMap_cons_some hr
    rw [hcons, List.append_cons]
    exact ih h₁ hds

theorem Holds.defineAll {fs : List Forest} {placed : List Placed} (h : b.Holds g)
    (hfs : defineAll source fs b = (.ok placed, b')) :
    b'.Holds (g ++ Grammar.ofDefinitions (fs.map fun f => (source, f))) ∧
      placed.map (·.name) = (Grammar.ofDefinitions (fs.map fun f => (source, f))).map (·.name) := by
  induction fs generalizing b g placed with
  | nil =>
    obtain ⟨⟨⟩, rfl⟩ := Prod.mk.inj hfs
    simpa [Grammar.ofDefinitions] using h
  | cons f fs ih =>
    unfold Batch.defineAll at hfs
    rcases hcompile : b.compile source f with ⟨e | p, b₁⟩
    · simp [hcompile] at hfs
    · obtain ⟨r, hverdict, hname, h₁⟩ := h.compile hcompile
      have hr := (verdict_eq_ok.1 hverdict).1
      rcases hrest : Batch.defineAll source fs b₁ with ⟨e | others, b₂⟩
      · simp [hcompile, hrest, Except.map] at hfs
      · obtain ⟨rfl, rfl⟩ : p :: others = placed ∧ b₂ = b' := by
          simpa [hcompile, hrest, Except.map] using hfs
        obtain ⟨h₂, hnames⟩ := ih h₁ hrest
        have hcons : Grammar.ofDefinitions ((f :: fs).map fun f => (source, f)) =
            r :: Grammar.ofDefinitions (fs.map fun f => (source, f)) := List.filterMap_cons_some hr
        rw [hcons, List.append_cons]
        exact ⟨h₂, by rw [List.map_cons, hnames, hname, List.map_cons]⟩

/-- A batch that accepts a source holds the patterns of the source behind the others. -/
theorem Holds.defineSource {placed : List Placed} (h : b.Holds g)
    (hsource : b.defineSource source = (.ok placed, b')) :
    b'.Holds (g ++ Grammar.ofSource source) ∧
      placed.map (·.name) = (Grammar.ofSource source).map (·.name) := by
  unfold Batch.defineSource at hsource
  unfold Grammar.ofSource
  rcases hfs : definitions source with e | fs
  · simp [hfs] at hsource
  · rcases hall : Batch.defineAll source fs b with ⟨e | placed', b''⟩
    · simp [hfs, hall, Except.mapError] at hsource
    · obtain ⟨rfl, rfl⟩ : placed' = placed ∧ b'' = b' := by
        simpa [hfs, hall, Except.mapError] using hsource
      exact h.defineAll hall

def Compiles (d : String × Forest) : Prop :=
  ∃ r, Rule.ofForest? d.1 d.2 = some r ∧ body d.1 d.2 = .ok r.drafts

theorem Holds.lookup_eq_some_iff (h : b.Holds g) {name : String} {start : Nat} :
    b.names.lookup name = some start ↔ ⟨name, start⟩ ∈ g.entriesFrom 0 := by
  rw [h.ordered.lookup_eq_some_iff, h.entries.mem_iff]

theorem Holds.nodup (h : b.Holds g) : (g.map (·.name)).Nodup := by
  rw [← g.map_name_entriesFrom 0, ← (h.entries.map _).nodup_iff]
  exact h.ordered.nodup

theorem Holds.exists_register (h : b.Holds g) {r : Rule} (hnew : r.name ∉ g.map (·.name)) :
    ∃ names, b.names.register r.name b.buffer.size = .ok names := by
  apply h.ordered.exists_register
  intro e he hname
  apply hnew
  rw [← g.map_name_entriesFrom 0, ← hname]
  exact List.mem_map_of_mem (h.entries.mem_iff.1 he)

/-- Definitions are accepted one after the other when each can be drafted and their names differ
from each other and from those before, in whatever order they come. -/
theorem Holds.exists_defineEach_iff (h : b.Holds g) {ds : List (String × Forest)} :
    (∃ b', b.defineEach ds = .ok b') ↔
      (∀ d ∈ ds, Compiles d) ∧ ((g ++ Grammar.ofDefinitions ds).map (·.name)).Nodup := by
  induction ds generalizing b g with
  | nil =>
    constructor
    · rintro -
      exact ⟨by simp, by simpa [Grammar.ofDefinitions] using h.nodup⟩
    · rintro -
      exact ⟨b, rfl⟩
  | cons d ds ih =>
    constructor
    · rintro ⟨b', hds⟩
      refine ⟨?_, (h.defineEach hds).nodup⟩
      obtain ⟨⟨p, b₁⟩, hdefine, hrest⟩ := bind_eq_ok.1 hds
      obtain ⟨r, hverdict, -, h₁⟩ := h.compile (define_eq_ok.1 hdefine)
      obtain ⟨hr, -, hbody⟩ := verdict_eq_ok.1 hverdict
      rintro e (_ | ⟨_, he⟩)
      · exact ⟨r, hr, hbody⟩
      · exact ((ih h₁).1 ⟨b', hrest⟩).1 e he
    · rintro ⟨hcompiles, hnodup⟩
      obtain ⟨r, hr, hbody⟩ := hcompiles d (by simp)
      have hcons : Grammar.ofDefinitions (d :: ds) = r :: Grammar.ofDefinitions ds :=
        List.filterMap_cons_some hr
      rw [hcons, List.append_cons] at hnodup
      have hnew : r.name ∉ g.map (·.name) := by
        rw [List.map_append, List.map_append, List.nodup_append, List.nodup_append] at hnodup
        intro hmem
        exact hnodup.1.2.2 r.name hmem r.name (by simp) rfl
      obtain ⟨names, hreg⟩ := h.exists_register hnew
      have hverdict := verdict_eq_ok.2 ⟨hr, NameTable.lookup_eq_none_of_register hreg, hbody⟩
      obtain ⟨p, b₁, hcompile⟩ := h.inCode.exists_compile hverdict
      obtain ⟨r', hverdict', -, h₁⟩ := h.compile hcompile
      obtain rfl : r' = r := Except.ok.inj (hverdict'.symm.trans hverdict)
      obtain ⟨b', hrest⟩ := (ih h₁).2 ⟨fun e he => hcompiles e (by simp [he]), hnodup⟩
      exact ⟨b', bind_eq_ok.2 ⟨_, define_eq_ok.2 hcompile, hrest⟩⟩

theorem foldl_resolve_anonymous (names : NameTable) (code : Array Instruction) (fs : List Fixup) :
    (fs.map anonymous).foldl (resolve names) code = fs.foldl (resolve names) code := by
  rw [List.foldl_map]
  rfl

/-- Resolving the references of drafts gives each its target. -/
theorem foldl_resolve_fixups (names : NameTable) (pre : List Instruction) (ds : List Draft) :
    (Draft.fixups 0 pre.length ds).foldl (resolve names)
        (pre ++ ds.map Draft.instruction).toArray =
      (pre ++ ds.map (Draft.resolve names.lookup)).toArray := by
  -- `pre` has the instructions that are resolved already.
  induction ds generalizing pre with
  | nil => rfl
  | cons d ds ih =>
    have hstep : (d.fixup? 0 pre.length).toList.foldl (resolve names)
        (pre ++ d.instruction :: ds.map Draft.instruction).toArray =
          ((pre ++ [d.resolve names.lookup]) ++ ds.map Draft.instruction).toArray := by
      cases d with
      | code i => simp [Draft.fixup?, Draft.resolve, Draft.instruction]
      | use name span =>
        simp only [Draft.fixup?, Option.toList_some, List.foldl_cons, List.foldl_nil, resolve]
        cases hname : names.lookup name with
        | none => simp [Draft.resolve, Draft.instruction, hname]
        | some target =>
          simp [modify_length_append, Draft.resolve, Draft.instruction, hname, Instruction.next]
    have hlength : pre.length + 1 = (pre ++ [d.resolve names.lookup]).length := by simp
    rw [Draft.fixups_cons, List.foldl_append, List.map_cons, hstep, hlength, ih]
    simp

/-- A strict batch that is finished is the one that is finished without refusing references. -/
theorem finish_false {strict : Bool} {p : Program} (h : b.finish strict = .ok p) :
    b.finish false = .ok p := by
  unfold Batch.finish at h
  split at h
  · cases h
  · exact h

/-- The code of a finished batch is the layouts of its patterns with the references resolved. -/
theorem Holds.finish (h : b.Holds g) {p : Program} (hfinish : b.finish false = .ok p) :
    p.code.toList = g.drafts.map (Draft.resolve b.names.lookup) ∧ p.names = b.names := by
  have hp : p.code = b.fixups.foldl (resolve b.names) b.code ∧ p.names = b.names := by
    unfold Batch.finish at hfinish
    obtain rfl := Except.ok.inj hfinish
    exact ⟨rfl, rfl⟩
  refine ⟨?_, hp.2⟩
  have hcode : b.code = (g.drafts.map Draft.instruction).toArray := by rw [← h.code]
  have hresolve := foldl_resolve_fixups b.names [] g.drafts
  rw [hp.1, ← Array.foldl_toList, ← foldl_resolve_anonymous, h.fixups, hcode]
  simpa using congrArg Array.toList hresolve

end Batch
end LexicalPatterns
