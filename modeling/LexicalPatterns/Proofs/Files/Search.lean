import LexicalPatterns.Files.Search
import LexicalPatterns.Proofs.Files.Reached

/-!
# Searches as walks

A search joins the path of a directory with the names of its entries on the way down, so what it
comes to is told as a walk has to tell it.
-/

namespace LexicalPatterns.Search

variable (s : Search)

mutual

theorem exists_leads_of_mem_entriesOf (levels : List IgnoreLevel) (path : String) (t : FileTree)
    {entry : WalkEntry} (h : entry ∈ s.entriesOf levels path t) :
    ∃ names u, t.Leads names u ∧ entry.isFile = u.isFile ∧
      entry.path = names.foldl Path.join path := by
  match t with
  | .file content =>
    rw [entriesOf] at h
    obtain rfl := List.mem_singleton.1 h
    exact ⟨[], _, .here _, rfl, rfl⟩
  | .directory entries =>
    rw [entriesOf] at h
    rcases List.mem_cons.1 h with rfl | h
    · exact ⟨[], _, .here _, rfl, rfl⟩
    · obtain ⟨name, child, names, u, hmem, hleads, hfile, hpath⟩ :=
        exists_leads_of_mem_entriesIn _ path entries h
      exact ⟨name :: names, u, .into hmem hleads, hfile, hpath⟩

theorem exists_leads_of_mem_entriesIn (levels : List IgnoreLevel) (path : String)
    (entries : List (String × FileTree)) {entry : WalkEntry}
    (h : entry ∈ s.entriesIn levels path entries) :
    ∃ name child names u, (name, child) ∈ entries ∧ child.Leads names u ∧
      entry.isFile = u.isFile ∧ entry.path = names.foldl Path.join (Path.join path name) := by
  match entries with
  | [] =>
    rw [entriesIn] at h
    exact absurd h List.not_mem_nil
  | (name, child) :: entries =>
    rw [entriesIn, List.mem_append] at h
    rcases h with h | h
    · split_ifs at h
      · exact absurd h List.not_mem_nil
      · obtain ⟨names, u, hleads, hfile, hpath⟩ := exists_leads_of_mem_entriesOf _ _ child h
        exact ⟨name, child, names, u, List.mem_cons_self, hleads, hfile, hpath⟩
    · obtain ⟨name', child', names, u, hmem, hrest⟩ := exists_leads_of_mem_entriesIn _ _ entries h
      exact ⟨name', child', names, u, List.mem_cons_of_mem _ hmem, hrest⟩

end

theorem joins_walker (fs : FileSystem) : walker.Joins fs := by
  intro rules root place entry hplace h
  simp only [walker, walk, hplace] at h
  split_ifs at h
  · exact absurd h List.not_mem_nil
  · rw [run] at h
    split at h
    · obtain ⟨entry', hmem, heq⟩ := List.mem_map.1 h
      obtain rfl := Except.ok.inj heq
      exact exists_leads_of_mem_entriesOf _ _ _ _ hmem
    · exact absurd (List.mem_singleton.1 h) nofun

end LexicalPatterns.Search
