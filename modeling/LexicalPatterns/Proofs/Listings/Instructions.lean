import LexicalPatterns.Proofs.Batch.Identifiers
import LexicalPatterns.Proofs.Batch.References
import LexicalPatterns.Proofs.Batch.Tiling
import LexicalPatterns.Proofs.Listings.Display

/-!
# Listings of programs

The listing of a program that comes from sources has one line for each instruction, in order, and
one line for each name, right before that of the instruction where its pattern starts. An arrow in
it leads to an instruction of the same pattern, and a reference is shown with the name that stands
in its source.
-/

namespace LexicalPatterns

namespace Instruction

/-- The line of an instruction, before its note. -/
def head (index : Nat) (i : Instruction) : String :=
  padLeft 6 (toString index) ++ "  " ++ i.display

def line (names : NameTable) (index : Nat) (i : Instruction) : String :=
  i.head index ++ i.note names index

/-- Whether an instruction leads elsewhere than to the next one, for which the listing has an
arrow. -/
def Jumps (i : Instruction) : Prop :=
  i.action ≠ .terminal ∧ (∀ count, i.action ≠ .branch count) ∧
    (∀ target, i.action ≠ .reference target) ∧ i.movement ≠ 1

variable {names : NameTable} {index : Nat} {i : Instruction} {before after : String}

theorem lines_eq (names : NameTable) (index : Nat) (i : Instruction) :
    i.lines names index =
      ((names.nameAt index).map (· ++ ":")).toList ++ [i.line names index] := by
  unfold lines
  cases names.nameAt index <;> rfl

theorem note_of_jumps (h : i.Jumps) :
    i.note names index = "  -> " ++ toString (index + i.movement) := by
  obtain ⟨action, movement⟩ := i
  obtain ⟨hterminal, hbranch, hreference, hmovement⟩ := h
  cases action with
  | terminal => exact absurd rfl hterminal
  | branch count => exact absurd rfl (hbranch count)
  | reference target => exact absurd rfl (hreference target)
  | _ => exact if_neg hmovement

theorem note_of_not_jumps (h : ¬ i.Jumps) : i.note names index = "" ∨
    ∃ target name, names.nameAt target = some name ∧
      i.note names index = "  (" ++ name ++ ")" := by
  obtain ⟨action, movement⟩ := i
  have hplain (hterminal : action ≠ .terminal) (hbranch : ∀ count, action ≠ .branch count)
      (hreference : ∀ target, action ≠ .reference target) : movement = 1 :=
    by_contra fun hmovement => h ⟨hterminal, hbranch, hreference, hmovement⟩
  cases action with
  | terminal | branch => exact .inl rfl
  | reference target =>
    cases target with
    | none => exact .inl rfl
    | some target =>
      cases hname : names.nameAt target with
      | none => exact .inl (by simp [note, hname])
      | some name => exact .inr ⟨target, name, hname, by simp [note, hname]⟩
  | _ => exact .inl (if_pos (hplain nofun nofun nofun))

theorem plain_head (index : Nat) (i : Instruction) : Plain (i.head index).toList := by
  have hfront (c : Char) (hspace : c ≠ ' ') (hdigit : c.isDigit = false) :
      c ∉ (padLeft 6 (toString index) ++ "  ").toList := by
    rw [String.toList_append, toList_padLeft, List.mem_append, List.mem_append, not_or, not_or]
    refine ⟨⟨fun h => hspace (List.eq_of_mem_replicate h), notMem_toString hdigit index⟩, ?_⟩
    simpa using hspace
  rw [head, String.toList_append]
  constructor
  · rw [List.mem_append, not_or]
    exact ⟨hfront '\n' (by decide) rfl, i.plain_display.lineFeed⟩
  · exact .append_of_notMem_dash (hfront '-' (by decide) rfl) i.plain_display.arrowless

section Names

variable (hnames : ∀ index name, names.nameAt index = some name → IsIdentifier name)

include hnames

theorem lineFeed_notMem_line (index : Nat) (i : Instruction) :
    '\n' ∉ (i.line names index).toList := by
  rw [line, String.toList_append, List.mem_append, not_or]
  refine ⟨(i.plain_head index).lineFeed, ?_⟩
  by_cases h : i.Jumps
  · rw [note_of_jumps h, String.toList_append, List.mem_append, not_or]
    exact ⟨by decide, notMem_toString_int rfl (by decide) _⟩
  · rcases note_of_not_jumps h with hnote | ⟨target, name, hname, hnote⟩ <;> rw [hnote]
    · decide
    · have hfeed := (hnames target name hname).notMem (show isNameChar '\n' = false by decide)
      simp [hfeed]

/-- An arrow in the line of an instruction tells where the instruction leads. -/
theorem arrow_of_line (h : i.line names index = before ++ "->" ++ after) :
    i.Jumps ∧ after = " " ++ toString (index + i.movement) := by
  have hplain := i.plain_head index
  have hchars := congrArg String.toList h
  rw [line, String.toList_append, String.toList_append, String.toList_append,
    List.append_assoc] at hchars
  by_cases hjumps : i.Jumps
  · refine ⟨hjumps, ?_⟩
    rw [note_of_jumps hjumps, String.toList_append] at hchars
    -- the arrow is that of the note, which stands between two texts without one
    have hfront : Arrowless ((i.head index).toList ++ [' ', ' '] ++ ['-']) := by
      rw [List.append_assoc]
      exact hplain.arrowless.append_of_notMem_tip (by decide)
    have hback : '>' ∉ ' ' :: (toString (index + i.movement)).toList := by
      rw [List.mem_cons, not_or]
      exact ⟨by decide, notMem_toString_int rfl (by decide) _⟩
    have hafter := (hfront.eq_of_append hback (by simpa using hchars)).2
    exact String.toList_inj.1 (by simpa using hafter)
  · have htip : '>' ∉ (i.note names index).toList := by
      rcases note_of_not_jumps hjumps with hnote | ⟨target, name, hname, hnote⟩ <;> rw [hnote]
      · decide
      · have htip := (hnames target name hname).notMem (show isNameChar '>' = false by decide)
        simp [htip]
    exact absurd hchars (hplain.arrowless.append_of_notMem_tip htip).ne_append

end Names

end Instruction

namespace Program

def line (p : Program) (index : Nat) : String :=
  ((p.code[index]?).map (·.line p.names index)).getD ""

theorem line_eq {p : Program} {index : Nat} {i : Instruction} (code : p.code[index]? = some i) :
    p.line index = i.line p.names index := by
  rw [line, code]
  rfl

theorem listing_eq (p : Program) : p.listing = unlines ((List.range p.code.size).flatMap
    fun index => ((p.names.nameAt index).map (· ++ ":")).toList ++ [p.line index]) := by
  have hlines : p.code.toList.zipIdx.map (fun q => q.1.lines p.names q.2) =
      (List.range p.code.size).map
        fun index => ((p.names.nameAt index).map (· ++ ":")).toList ++ [p.line index] := by
    apply List.ext_getElem
    · simp
    · intro k hk _
      have hsize : k < p.code.size := by simpa using hk
      simp [Instruction.lines_eq, line_eq (Array.getElem?_eq_getElem hsize)]
  change unlines (p.code.toList.zipIdx.flatMap fun q => q.1.lines p.names q.2) = _
  rw [List.flatMap_def, hlines, ← List.flatMap_def]

end Program

namespace Placed

def indices (p : Placed) : List Nat := List.range' p.start (p.stop - p.start)

variable {p : Placed} {ps : List Placed} {start stop index : Nat}

theorem mem_indices : index ∈ p.indices ↔ p.start ≤ index ∧ index < p.stop := by
  rw [indices, List.mem_range'_1]
  omega

theorem indices_eq_cons (h : p.start < p.stop) :
    ∃ rest, p.indices = p.start :: rest ∧ ∀ index ∈ rest, p.start < index ∧ index < p.stop := by
  refine ⟨List.range' (p.start + 1) (p.stop - p.start - 1), ?_, fun index hindex => ?_⟩
  · rw [indices, ← List.range'_succ, Nat.sub_add_cancel (by omega)]
  · rw [List.mem_range'_1] at hindex
    omega

theorem Tile.flatMap_indices (h : Tile start ps stop) :
    start ≤ stop ∧ ps.flatMap indices = List.range' start (stop - start) := by
  induction ps generalizing start with
  | nil =>
    obtain rfl : start = stop := h
    simp
  | cons p ps ih =>
    obtain ⟨rfl, hlt, hrest⟩ := h
    obtain ⟨hle, hindices⟩ := ih hrest
    have hlength : stop - p.start = (p.stop - p.start) + (stop - p.stop) := by omega
    have hstop : p.stop = p.start + (p.stop - p.start) := by omega
    refine ⟨by omega, ?_⟩
    rw [List.flatMap_cons, hindices, indices, hlength, ← List.range'_append_1, ← hstop]

end Placed

namespace Session

variable {s : Session} {p : Program} {a c : Accepted} {index : Nat} {i : Instruction}

theorem Sound.eq_of_mem_indices (h : s.Sound) (ha : a ∈ s.accepted) (hc : c ∈ s.accepted)
    (hindex : index ∈ a.placed.indices) (hindex' : index ∈ c.placed.indices) : a = c := by
  obtain ⟨before, after, hsplit⟩ := List.append_of_mem ha
  have hpairwise := h.pairwise
  rw [hsplit, List.pairwise_append, List.pairwise_cons] at hpairwise
  obtain ⟨-, ⟨hafter, -⟩, hbefore⟩ := hpairwise
  rw [Placed.mem_indices] at hindex hindex'
  rw [hsplit, List.mem_append, List.mem_cons] at hc
  rcases hc with hc | rfl | hc
  · have := hbefore c hc a List.mem_cons_self
    omega
  · rfl
  · have := hafter c hc
    omega

theorem Sound.nameAt_eq_none (h : s.Sound) (ha : a ∈ s.accepted) (hstart : a.placed.start < index)
    (hstop : index < a.placed.stop) : s.batch.names.nameAt index = none := by
  rw [NameTable.nameAt, ← Array.find?_toList, Option.map_eq_none_iff, List.find?_eq_none]
  intro e he hindex
  rw [h.holds.entries.mem_iff, h.entriesFrom_eq, List.mem_map] at he
  obtain ⟨c, hc, rfl⟩ := he
  obtain rfl : c.placed.start = index := by simpa [Placed.entry] using hindex
  -- a definition starts within its own code
  have hlt := (h.tile.of_mem (List.mem_map_of_mem hc)).2
  obtain rfl := h.eq_of_mem_indices ha hc (Placed.mem_indices.2 ⟨Nat.le_of_lt hstart, hstop⟩)
    (Placed.mem_indices.2 ⟨Nat.le_refl _, hlt⟩)
  exact Nat.lt_irrefl _ hstart

/-- The lines of the code of a definition are its name and one for each of its instructions. -/
theorem Sound.lines_eq (h : s.Sound) (hp : p.names = s.batch.names) (ha : a ∈ s.accepted) :
    (a.placed.indices.flatMap
      fun index => ((p.names.nameAt index).map (· ++ ":")).toList ++ [p.line index]) =
        (a.placed.name ++ ":") :: a.placed.indices.map p.line := by
  have hlt := (h.tile.of_mem (List.mem_map_of_mem ha)).2
  obtain ⟨rest, hindices, hrest⟩ := Placed.indices_eq_cons hlt
  have hlines : rest.flatMap
      (fun index => ((p.names.nameAt index).map (· ++ ":")).toList ++ [p.line index]) =
        rest.map p.line := by
    rw [← List.flatMap_pure_eq_map]
    refine List.flatMap_congr fun index hindex => ?_
    rw [hp, h.nameAt_eq_none ha (hrest index hindex).1 (hrest index hindex).2]
    rfl
  rw [hindices, List.flatMap_cons, hlines, hp, h.nameAt_eq ha]
  rfl

theorem Sound.exists_of_jumps (h : s.Sound) (hp : s.batch.Resolves p) (ha : a ∈ s.accepted)
    (hindex : index ∈ a.placed.indices) (code : p.code[index]? = some i) (hjumps : i.Jumps) :
    ∃ j ∈ a.placed.indices, (j : Int) = index + i.movement := by
  have hunresolved : ∀ f ∈ s.batch.fixups, f.index ≠ index := by
    intro f hf hindex
    obtain ⟨movement, hreference⟩ := (hp.target_iff index _).2 ⟨f, hf, hindex, rfl⟩
    rw [code] at hreference
    exact hjumps.2.2.1 _ (congrArg Instruction.action (Option.some.inj hreference))
  rw [hp.unchanged index hunresolved] at code
  rw [Placed.mem_indices] at hindex
  obtain ⟨hstart, hstop⟩ := (h.closed ha).followed index i.action i.movement hindex.1 hindex.2 code
    hjumps.1 hjumps.2.1
  refine ⟨(index + i.movement).toNat, Placed.mem_indices.2 ⟨?_, ?_⟩, ?_⟩ <;> omega

theorem Sound.exists_written (h : s.Sound) (hp : s.batch.Resolves p) (ha : a ∈ s.accepted)
    (hindex : index ∈ a.placed.indices) {target : Nat} {movement : Int}
    (code : p.code[index]? = some ⟨.reference (some target), movement⟩) :
    ∃ f ∈ s.batch.fixups, f.index = index ∧ p.names.nameAt target = some f.name ∧
      ∃ item ∈ a.forest.items, ∃ t, Tree.Subtree t item ∧ t.kind = .reference ∧
        f.tag = t.tag a.source a.origin := by
  obtain ⟨f, hf, rfl, hlookup⟩ := (hp.target_iff index (some target)).1 ⟨movement, code⟩
  obtain ⟨c, hc, hname, rfl⟩ := h.lookup_eq_some_iff.1 hlookup
  obtain ⟨a', ha', hcovers, horigin⟩ := h.tracked.origin f hf
  obtain rfl := h.eq_of_mem_indices ha ha' hindex (Placed.mem_indices.2 hcovers)
  refine ⟨f, hf, rfl, ?_, horigin⟩
  rw [hp.names, h.nameAt_eq hc, hname]

/-- What the line of the instruction at an index of a definition tells. It starts with the index and
shows the instruction. An arrow stands in it where the instruction leads elsewhere than to the next
one, and only there, and is followed by the index of an instruction of the definition. Behind a
resolved reference stands the name of the reference node that it comes from. -/
structure TellsInstruction (s : Session) (p : Program) (a : Accepted) (index : Nat)
    (line : String) : Prop where
  shown : ∃ i note, p.code[index]? = some i ∧
    line = padLeft 6 (toString index) ++ "  " ++ i.display ++ note
  arrow : ∀ before after, line = before ++ "->" ++ after →
    ∃ i, p.code[index]? = some i ∧ i.Jumps ∧
      ∃ j ∈ a.placed.indices, (j : Int) = index + i.movement ∧ after = " " ++ toString j
  jumps : ∀ i, p.code[index]? = some i → i.Jumps → ∃ before after, line = before ++ "->" ++ after
  written : ∀ target movement, p.code[index]? = some ⟨.reference (some target), movement⟩ →
    ∃ f ∈ s.batch.fixups, f.index = index ∧ (∃ item ∈ a.forest.items, ∃ t,
      Tree.Subtree t item ∧ t.kind = .reference ∧ f.tag = t.tag a.source a.origin) ∧
        ∃ before, line = before ++ "  (" ++ f.name ++ ")"

/-- Whether the listing of a program is that of the definitions of a session. They tile the code
under the names of the program, which are identifiers. For each of them the listing has a line with
its name and behind it one for each of its instructions, and no other lines. -/
structure ListsProgram (s : Session) (p : Program) : Prop where
  names : p.names.names = s.accepted.map (·.placed.name)
  identifiers : ∀ a ∈ s.accepted, IsIdentifier a.placed.name
  tile : Placed.Tile 0 (s.accepted.map (·.placed)) p.code.size
  lines : IsLines p.listing (s.accepted.flatMap
    fun a => (a.placed.name ++ ":") :: a.placed.indices.map p.line)
  tells : ∀ a ∈ s.accepted, ∀ index ∈ a.placed.indices,
    s.TellsInstruction p a index (p.line index)

theorem Sound.isIdentifier_of_nameAt (h : s.Sound)
    (hnames : ∀ a ∈ s.accepted, IsIdentifier a.placed.name) {name : String}
    (hname : s.batch.names.nameAt index = some name) : IsIdentifier name := by
  rw [NameTable.nameAt, ← Array.find?_toList] at hname
  obtain ⟨e, he, rfl⟩ := Option.map_eq_some_iff.1 hname
  have hmem := List.mem_of_find?_eq_some he
  rw [h.holds.entries.mem_iff, h.entriesFrom_eq] at hmem
  obtain ⟨a, ha, rfl⟩ := List.mem_map.1 hmem
  exact hnames a ha

theorem Sound.tellsInstruction (h : s.Sound) (hp : s.batch.Resolves p)
    (hnames : ∀ index name, p.names.nameAt index = some name → IsIdentifier name)
    (ha : a ∈ s.accepted) (hindex : index ∈ a.placed.indices)
    (code : p.code[index]? = some i) : s.TellsInstruction p a index (p.line index) := by
  rw [Program.line_eq code]
  constructor
  case shown => exact ⟨i, i.note p.names index, code, rfl⟩
  case arrow =>
    intro before after hline
    obtain ⟨hjumps, rfl⟩ := Instruction.arrow_of_line hnames hline
    obtain ⟨j, hj, heq⟩ := h.exists_of_jumps hp ha hindex code hjumps
    refine ⟨i, code, hjumps, j, hj, heq, ?_⟩
    rw [← heq]
    rfl
  case jumps =>
    intro i' code' hjumps
    obtain rfl : i = i' := Option.some.inj (code.symm.trans code')
    refine ⟨i.head index ++ "  ", " " ++ toString (index + i.movement), ?_⟩
    rw [Instruction.line, Instruction.note_of_jumps hjumps]
    apply String.toList_inj.1
    simp
  case written =>
    intro target movement code'
    obtain rfl := Option.some.inj (code.symm.trans code')
    obtain ⟨f, hf, hat, hname, hnode⟩ := h.exists_written hp ha hindex code
    refine ⟨f, hf, hat, hnode, Instruction.head index ⟨.reference (some target), movement⟩, ?_⟩
    simp [Instruction.line, Instruction.note, hname, String.append_assoc]

/-- The program of a session has a listing of its definitions, if their names are identifiers. -/
theorem Sound.listsProgram (h : s.Sound) (hfinish : s.batch.finish false = .ok p)
    (hidentifiers : ∀ a ∈ s.accepted, IsIdentifier a.placed.name) : s.ListsProgram p := by
  have hp := h.holds.resolves hfinish
  have hnames : ∀ index name, p.names.nameAt index = some name → IsIdentifier name := by
    intro index name hname
    rw [hp.names] at hname
    exact h.isIdentifier_of_nameAt hidentifiers hname
  have htile : Placed.Tile 0 (s.accepted.map (·.placed)) p.code.size := by
    have hsize : p.code.size = s.batch.code.size := by
      rw [← Array.length_toList, (h.holds.finish hfinish).1, List.length_map]
      exact h.holds.size_buffer.symm
    rw [hsize]
    exact h.tile
  have hrange : List.range p.code.size = s.accepted.flatMap fun a => a.placed.indices := by
    rw [List.range_eq_range', ← Nat.sub_zero p.code.size, ← htile.flatMap_indices.2,
      List.flatMap_map]
  have hcode {a : Accepted} (ha : a ∈ s.accepted) {index : Nat}
      (hindex : index ∈ a.placed.indices) : ∃ i, p.code[index]? = some i := by
    have hmem : index ∈ List.range p.code.size := by
      rw [hrange]
      exact List.mem_flatMap.2 ⟨a, ha, hindex⟩
    exact ⟨_, Array.getElem?_eq_getElem (List.mem_range.1 hmem)⟩
  constructor
  case names => rw [hp.names, h.names_eq]
  case identifiers => exact hidentifiers
  case tile => exact htile
  case lines =>
    constructor
    · rw [Program.listing_eq, hrange, List.flatMap_assoc]
      exact congrArg unlines (List.flatMap_congr fun a ha => h.lines_eq hp.names ha)
    · intro l hl
      obtain ⟨a, ha, hl⟩ := List.mem_flatMap.1 hl
      rcases List.mem_cons.1 hl with rfl | hl
      · have hfeed := (hidentifiers a ha).notMem (show isNameChar '\n' = false by decide)
        simp [hfeed]
      · obtain ⟨index, hindex, rfl⟩ := List.mem_map.1 hl
        obtain ⟨i, code⟩ := hcode ha hindex
        rw [Program.line_eq code]
        exact Instruction.lineFeed_notMem_line hnames index i
  case tells =>
    intro a ha index hindex
    obtain ⟨i, code⟩ := hcode ha hindex
    exact h.tellsInstruction hp hnames ha hindex code

/-- The program of a session that is asked for nothing but sources has a listing of all its
definitions, with one line for each instruction. -/
theorem listsProgram_after {rs : List Request} (hrs : ∀ r ∈ rs, r.IsOfSource) :
    ∃ p, (after rs).batch.finish false = .ok p ∧ (after rs).ListsProgram p :=
  ⟨_, rfl, (sound_after rs).listsProgram rfl (isIdentifier_after hrs)⟩

/-- Bytes that look like an arrow, a loop, and a reference to another source. The second definition
of the first source is refused and leaves no line. -/
theorem listsProgram_after_looped :
    let rs : List Request := [.source "x='-'..'>' x=y", .origin 1, .source "y=['>'x]*"]
    (∀ r ∈ rs, r.IsOfSource) ∧ ∃ p, (after rs).batch.finish false = .ok p ∧
      p.names.names = ["x", "y"] ∧ p.code.size = 9 ∧
      p.line 0 = "     0  range '-'..'>'           +1" ∧
      p.line 6 = "     6  reference @0             +1  (x)" ∧
      p.line 7 = "     7  empty                    -5  -> 2" ∧
      (after rs).ListsProgram p := by
  intro rs
  have hrs : ∀ r ∈ rs, r.IsOfSource := by simp [rs, Request.IsOfSource]
  have hshown : ((after rs).batch.finish false).map
      (fun p => (p.names.names, p.code.size, p.line 0, p.line 6, p.line 7)) =
        .ok (["x", "y"], 9, "     0  range '-'..'>'           +1",
          "     6  reference @0             +1  (x)",
          "     7  empty                    -5  -> 2") := by cbv
  obtain ⟨p, hfinish, hlists⟩ := listsProgram_after hrs
  rw [hfinish] at hshown
  simp only [Except.map, Except.ok.injEq, Prod.mk.injEq] at hshown
  obtain ⟨hnames, hsize, hrange, hreference, hloop⟩ := hshown
  exact ⟨hrs, p, hfinish, hnames, hsize, hrange, hreference, hloop, hlists⟩

end Session
end LexicalPatterns
