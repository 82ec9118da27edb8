import LexicalPatterns.Proofs.Batch.Contents
import LexicalPatterns.Proofs.Meaning.Forks

/-!
# Patterns of a batch

The layouts of the patterns stand one after the other and tile the code, so each index of the code
belongs to one pattern and has one position in its layout. The code of a pattern ends with its only
terminal and never leads out of its layout.
-/

namespace LexicalPatterns

namespace Placed

def entry (p : Placed) : Entry := ⟨p.name, p.start⟩

/-- Whether places follow each other without a gap from `start` to `stop`, and none is empty. -/
def Tile : (start : Nat) → List Placed → (stop : Nat) → Prop
  | start, [], stop => start = stop
  | start, p :: ps, stop => p.start = start ∧ p.start < p.stop ∧ Tile p.stop ps stop

variable {start stop : Nat} {ps : List Placed}

theorem Tile.of_mem (h : Tile start ps stop) {p : Placed} (hp : p ∈ ps) :
    start ≤ p.start ∧ p.start < p.stop := by
  induction ps generalizing start with
  | nil => cases hp
  | cons q ps ih =>
    obtain ⟨rfl, hlt, hrest⟩ := h
    rcases List.mem_cons.1 hp with rfl | hp
    · exact ⟨Nat.le_refl _, hlt⟩
    · have := ih hrest hp
      omega

theorem Tile.pairwise (h : Tile start ps stop) : ps.Pairwise fun p q => p.stop ≤ q.start := by
  induction ps generalizing start with
  | nil => exact .nil
  | cons p ps ih => exact .cons (fun q hq => (h.2.2.of_mem hq).1) (ih h.2.2)

end Placed

namespace Rule

theorem stays_drafts (r : Rule) : Draft.Stays 1 r.drafts := by
  apply Draft.Stays.terminal
  apply Draft.stays_flatten
  intro ds hds
  rw [Tree.draftsAll_eq_map] at hds
  obtain ⟨t, -, rfl⟩ := List.mem_map.1 hds
  exact t.stays_drafts r.source

theorem length_drafts_pos (r : Rule) : 0 < r.drafts.length := by
  rw [drafts, List.length_append, List.length_singleton]
  exact Nat.succ_pos _

theorem laid_items (r : Rule) : Draft.Laid (Tree.draftsAll r.source r.items).flatten := by
  apply Draft.of_flatten .nil .append
  intro ds hds
  rw [Tree.draftsAll_eq_map] at hds
  obtain ⟨t, -, rfl⟩ := List.mem_map.1 hds
  exact t.laid_drafts r.source

/-- Behind a branch in the code of a pattern stand its jumps. -/
theorem forks_drafts (r : Rule) : Draft.Forks r.drafts :=
  r.laid_items.forks.append (Draft.forks_singleton nofun)

/-- The code of a pattern ends with its only terminal. -/
theorem action_eq_terminal_iff (r : Rule) {k : Nat} {d : Draft} (hd : r.drafts[k]? = some d) :
    d.instruction.action = .terminal ↔ k + 1 = r.drafts.length := by
  have hlength : r.drafts.length = (Tree.draftsAll r.source r.items).flatten.length + 1 := by
    rw [drafts, List.length_append, List.length_singleton]
  rw [drafts] at hd
  rcases Nat.lt_or_ge k (Tree.draftsAll r.source r.items).flatten.length with hk | hk
  · rw [List.getElem?_append_left hk] at hd
    have hne := r.laid_items.action_ne_terminal (List.mem_of_getElem? hd)
    exact iff_of_false hne (by omega)
  · rw [List.getElem?_append_right hk] at hd
    have hlt := (List.getElem?_eq_some_iff.1 hd).1
    rw [List.length_singleton] at hlt
    obtain ⟨hsub, rfl⟩ : k - (Tree.draftsAll r.source r.items).flatten.length = 0 ∧
        d = .emit .terminal := by
      have hzero : k - (Tree.draftsAll r.source r.items).flatten.length = 0 := by omega
      rw [hzero] at hd
      exact ⟨hzero, (Option.some.inj hd).symm⟩
    exact iff_of_true rfl (by omega)

end Rule

namespace Grammar

variable {g g' : Grammar} {r : Rule}

theorem drafts_cons (r : Rule) (g : Grammar) : drafts (r :: g) = r.drafts ++ drafts g :=
  List.flatMap_cons

theorem stays_drafts (g : Grammar) : Draft.Stays 1 g.drafts := by
  induction g with
  | nil => exact Draft.stays_nil
  | cons r g ih =>
    rw [drafts_cons]
    exact r.stays_drafts.append ih

/-- In the code of a grammar a reference is a use in a layout. -/
theorem exists_use_of_reference {code : Array Instruction} {lookup : String → Option Nat}
    (hcode : code.toList = g.drafts.map (Draft.resolve lookup)) {i : Nat} {target : Option Nat}
    {movement : Int} (hi : code[i]? = some ⟨.reference target, movement⟩) :
    ∃ name span, g.drafts[i]? = some (.use name span) ∧ lookup name = target := by
  have hlt := (Array.getElem?_eq_some_iff.1 hi).1
  rw [← Array.length_toList, hcode, List.length_map] at hlt
  have hat : Machine.DraftsAt ⟨code, 0⟩ lookup 0 g.drafts :=
    @Machine.draftsAt_of_toList _ _ _ [] (by rw [hcode, List.append_nil])
  rw [← Nat.zero_add i] at hi
  exact Machine.exists_use_of_reference hat g.stays_drafts hlt hi

theorem length_drafts_eq_of_perm (h : g.Perm g') : g.drafts.length = g'.drafts.length :=
  (h.flatMap_right Rule.drafts).length_eq

theorem exists_of_mem_entriesFrom {start : Nat} {e : Entry} (h : e ∈ g.entriesFrom start) :
    ∃ (before : Grammar) (r : Rule) (after : Grammar), g = before ++ r :: after ∧
      r.name = e.name ∧ e.start = start + before.drafts.length := by
  induction g generalizing start with
  | nil => simp [entriesFrom] at h
  | cons r g ih =>
    rcases List.mem_cons.1 h with rfl | h
    · exact ⟨[], r, g, rfl, rfl, rfl⟩
    · obtain ⟨before, r', after, rfl, hname, hstart⟩ := ih h
      refine ⟨r :: before, r', after, rfl, hname, ?_⟩
      simpa [drafts, Nat.add_assoc] using hstart

theorem mem_entriesFrom_append (start : Nat) (before after : Grammar) (r : Rule) :
    ⟨r.name, start + before.drafts.length⟩ ∈ entriesFrom start (before ++ r :: after) := by
  rw [entriesFrom_append]
  exact List.mem_append_right _ List.mem_cons_self

theorem lt_of_mem_entriesFrom {e : Entry} (h : e ∈ g.entriesFrom 0) :
    e.start < g.drafts.length := by
  obtain ⟨before, r, after, rfl, -, hstart⟩ := exists_of_mem_entriesFrom h
  have hpos := r.length_drafts_pos
  rw [hstart, Nat.zero_add, drafts_append, drafts_cons, List.length_append, List.length_append]
  omega

def placedFrom (start : Nat) : Grammar → List Placed
  | [] => []
  | r :: g => ⟨r.name, start, start + r.drafts.length⟩ :: placedFrom (start + r.drafts.length) g

theorem placedFrom_append (start : Nat) (g g' : Grammar) :
    placedFrom start (g ++ g') =
      placedFrom start g ++ placedFrom (start + g.drafts.length) g' := by
  induction g generalizing start with
  | nil => rfl
  | cons r g ih =>
    rw [List.cons_append, placedFrom, ih, placedFrom, List.cons_append, drafts_cons,
      List.length_append, Nat.add_assoc]

theorem length_placedFrom (start : Nat) (g : Grammar) : (placedFrom start g).length = g.length := by
  induction g generalizing start with
  | nil => rfl
  | cons r g ih => rw [placedFrom, List.length_cons, ih, List.length_cons]

theorem entriesFrom_eq_map (start : Nat) (g : Grammar) :
    entriesFrom start g = (placedFrom start g).map Placed.entry := by
  induction g generalizing start with
  | nil => rfl
  | cons r g ih => rw [entriesFrom, ih, placedFrom, List.map_cons, Placed.entry]

theorem tile_placedFrom (start : Nat) (g : Grammar) :
    Placed.Tile start (placedFrom start g) (start + (drafts g).length) := by
  induction g generalizing start with
  | nil => exact (Nat.add_zero start).symm
  | cons r g ih =>
    rw [drafts_cons, List.length_append, ← Nat.add_assoc]
    exact ⟨rfl, Nat.lt_add_of_pos_right r.length_drafts_pos, ih _⟩

theorem pairwise_entriesFrom (start : Nat) (g : Grammar) :
    (entriesFrom start g).Pairwise fun e f => e.start < f.start := by
  have htile := tile_placedFrom start g
  rw [entriesFrom_eq_map, List.pairwise_map]
  exact htile.pairwise.imp_of_mem fun hp _ hle => Nat.lt_of_lt_of_le (htile.of_mem hp).2 hle

/-- The pattern in whose layout the instruction at an index stands, and its position there. -/
def locate : Grammar → Nat → Option (Rule × Nat)
  | [], _ => none
  | r :: g, i => if i < r.drafts.length then some (r, i) else locate g (i - r.drafts.length)

theorem locate_append {before after : Grammar} {k : Nat} (hk : k < r.drafts.length) :
    locate (before ++ r :: after) (before.drafts.length + k) = some (r, k) := by
  induction before with
  | nil =>
    have hindex : (drafts []).length + k = k := Nat.zero_add k
    rw [List.nil_append, locate, hindex, if_pos hk]
  | cons r' before ih =>
    have hindex : (drafts (r' :: before)).length + k - r'.drafts.length =
        (drafts before).length + k := by
      rw [drafts_cons, List.length_append]
      omega
    have hlt : ¬ (drafts (r' :: before)).length + k < r'.drafts.length := by
      rw [drafts_cons, List.length_append]
      omega
    rw [List.cons_append, locate, if_neg hlt, hindex, ih]

theorem exists_of_lt_length {i : Nat} (h : i < g.drafts.length) :
    ∃ (before : Grammar) (r : Rule) (after : Grammar) (k : Nat), g = before ++ r :: after ∧
      i = before.drafts.length + k ∧ k < r.drafts.length := by
  induction g generalizing i with
  | nil => exact absurd h (Nat.not_lt_zero i)
  | cons r g ih =>
    rw [drafts_cons, List.length_append] at h
    by_cases hi : i < r.drafts.length
    · exact ⟨[], r, g, i, rfl, (Nat.zero_add i).symm, hi⟩
    · have hrest : i - r.drafts.length < (drafts g).length := by omega
      obtain ⟨before, r', after, k, rfl, hk, hlt⟩ := ih hrest
      refine ⟨r :: before, r', after, k, rfl, ?_, hlt⟩
      rw [drafts_cons, List.length_append]
      omega

end Grammar
end LexicalPatterns
