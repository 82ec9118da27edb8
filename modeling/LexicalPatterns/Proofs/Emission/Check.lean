import LexicalPatterns.Proofs.Meaning.Drafts

/-!
# What a tree is refused for

A tree is refused for its size, or for the first of its nodes that is not valid, among those that
are written. A repetition of no copies writes nothing of its operand, so whatever stands there is
never looked at. Apart from the size it does not matter where the tree is to stand.
-/

namespace LexicalPatterns

namespace NodeKind

/-- Refuses a range or a repetition whose bounds are the wrong way round, and a repetition whose
bound is too large. -/
def check (span : Span) : NodeKind → Except CompileError Unit
  | range low high => if low > high then .error (.invertedRange low high span) else .ok ()
  | exactly count => checkRepeat count span
  | between min max => do
    if min > max then throw (.malformedRepetition min max span)
    checkRepeat max span
  | atLeast min => checkRepeat min span
  | _ => .ok ()

/-- Those of the children that are written for a node. -/
def written {α : Type} (children : List α) : NodeKind → List α
  | definition | group | choice => children
  | exactly count => if count = 0 then [] else children.take 1
  | between _ max => if max = 0 then [] else children.take 1
  | atLeast _ => children.take 1
  | _ => []

/-- Whether the bounds of a range or a repetition are the right way round, and small enough. -/
def Valid : NodeKind → Prop
  | range low high => low ≤ high
  | exactly count => count ≤ maxRepeat
  | between min max => min ≤ max ∧ max ≤ maxRepeat
  | atLeast min => min ≤ maxRepeat
  | _ => True

theorem checkRepeat_eq_ok_iff (count : Nat) (span : Span) :
    checkRepeat count span = .ok () ↔ count ≤ maxRepeat := by
  unfold checkRepeat
  split <;> simp <;> omega

theorem check_eq_ok_iff {kind : NodeKind} {span : Span} :
    kind.check span = .ok () ↔ kind.Valid := by
  cases kind with
  | range low high => simp [check, Valid]
  | exactly count => exact checkRepeat_eq_ok_iff _ span
  | between min max =>
    rw [check, Valid, ← checkRepeat_eq_ok_iff max span]
    split
    · next h => exact ⟨nofun, fun hv => absurd hv.1 (Nat.not_le.2 h)⟩
    · next h => exact ⟨fun hc => ⟨Nat.not_lt.1 h, hc⟩, fun hv => hv.2⟩
  | atLeast min => exact checkRepeat_eq_ok_iff _ span
  | _ => exact ⟨fun _ => trivial, fun _ => rfl⟩

theorem written_map {α β : Type} (f : α → β) (children : List α) (kind : NodeKind) :
    kind.written (children.map f) = (kind.written children).map f := by
  cases kind with
  | exactly count =>
    rw [written, written]
    split
    · rfl
    · exact List.map_take.symm
  | between min max =>
    rw [written, written]
    split
    · rfl
    · exact List.map_take.symm
  | atLeast min => exact List.map_take.symm
  | _ => rfl

theorem written_subset {α : Type} (children : List α) (kind : NodeKind) :
    kind.written children ⊆ children := by
  cases kind with
  | definition => exact List.Subset.refl _
  | group => exact List.Subset.refl _
  | choice => exact List.Subset.refl _
  | exactly count =>
    rw [written]
    split
    · exact List.nil_subset _
    · exact List.take_subset 1 _
  | between min max =>
    rw [written]
    split
    · exact List.nil_subset _
    · exact List.take_subset 1 _
  | atLeast min => exact List.take_subset 1 _
  | _ => exact List.nil_subset _

end NodeKind

namespace Tree

def checkAll : List (Except CompileError Unit) → Except CompileError Unit
  | [] => .ok ()
  | c :: cs => do
    c
    checkAll cs

mutual

/-- Refuses a tree for the first node that is written for it and not valid. -/
def check : Tree → Except CompileError Unit
  | .node kind span children => do
    kind.check span
    checkAll (kind.written (checks children))

def checks : List Tree → List (Except CompileError Unit)
  | [] => []
  | t :: ts => check t :: checks ts

end

theorem checks_eq_map (ts : List Tree) : checks ts = ts.map check := by
  induction ts with
  | nil => rfl
  | cons t ts ih => rw [checks, ih, List.map_cons]

theorem checkAll_take_one (t : Tree) (ts : List Tree) :
    checkAll ((checks (t :: ts)).take 1) = t.check := by
  rw [checks, List.take_succ_cons, List.take_zero, checkAll]
  cases t.check <;> rfl

/-- Whether a node is written for a tree: its root, or a node that is written for one of the
children that are written. -/
inductive Writes : Tree → Tree → Prop
  | self {t : Tree} : Writes t t
  | child {kind : NodeKind} {span : Span} {children : List Tree} {t s : Tree}
      (mem : t ∈ kind.written children) (writes : Writes t s) : Writes (.node kind span children) s

theorem checkAll_eq_ok_iff {cs : List (Except CompileError Unit)} :
    checkAll cs = .ok () ↔ ∀ c ∈ cs, c = .ok () := by
  induction cs with
  | nil => simp [checkAll]
  | cons c cs ih =>
    rw [List.forall_mem_cons, ← ih, checkAll]
    cases c <;> simp [bind, Except.bind]

theorem exists_of_checkAll {cs : List (Except CompileError Unit)} {e : CompileError}
    (h : checkAll cs = .error e) : .error e ∈ cs := by
  induction cs with
  | nil => cases h
  | cons c cs ih =>
    rcases bind_eq_error.1 h with rfl | ⟨_, -, h⟩
    · exact List.mem_cons_self
    · exact List.mem_cons_of_mem c (ih h)

theorem check_node {kind : NodeKind} {span : Span} {children : List Tree} :
    check (.node kind span children) =
      kind.check span >>= fun _ => checkAll ((kind.written children).map check) := by
  rw [check, checks_eq_map, NodeKind.written_map]

/-- A tree passes the check if and only if all nodes that are written for it are valid. -/
theorem check_eq_ok_iff {t : Tree} : t.check = .ok () ↔ ∀ s, t.Writes s → s.kind.Valid := by
  constructor
  · intro h s hs
    induction hs with
    | @self t =>
      obtain ⟨kind, span, children⟩ := t
      rw [check_node, bind_eq_ok] at h
      obtain ⟨_, hkind, -⟩ := h
      exact NodeKind.check_eq_ok_iff.1 hkind
    | child mem _ ih =>
      rw [check_node, bind_eq_ok] at h
      obtain ⟨_, -, hall⟩ := h
      exact ih (checkAll_eq_ok_iff.1 hall _ (List.mem_map_of_mem mem))
  · intro h
    induction t using Tree.induction with
    | node kind span children ih =>
      rw [check_node, bind_eq_ok]
      refine ⟨(), NodeKind.check_eq_ok_iff.2 (h _ .self), checkAll_eq_ok_iff.2 fun c hc => ?_⟩
      obtain ⟨t, ht, rfl⟩ := List.mem_map.1 hc
      exact ih t (kind.written_subset children ht) fun s hs => h s (.child ht hs)

/-- The reason for which a tree is refused is that of a node that is written for it. -/
theorem exists_of_check {t : Tree} {e : CompileError} (h : t.check = .error e) :
    ∃ s, t.Writes s ∧ s.kind.check s.span = .error e := by
  induction t using Tree.induction with
  | node kind span children ih =>
    rw [check_node] at h
    rcases bind_eq_error.1 h with hkind | ⟨_, -, hall⟩
    · exact ⟨_, .self, hkind⟩
    · obtain ⟨t, ht, hcheck⟩ := List.mem_map.1 (exists_of_checkAll hall)
      obtain ⟨s, hs, hkind⟩ := ih t (kind.written_subset children ht) hcheck
      exact ⟨s, .child ht hs, hkind⟩

end Tree

namespace Draft

/-- Whether a result is refused for the reason for which a check refuses, or for its size, and is
not refused where the check does not. -/
def Heeds {α : Type} (r : Except CompileError α) (c : Except CompileError Unit) : Prop :=
  match r with
  | .ok _ => c = .ok ()
  | .error e => c = .error e ∨ ∃ span, e = .patternTooLarge span

section Heeds

variable {α β : Type} {r : Except CompileError α} {c c' : Except CompileError Unit}
  {f : α → Except CompileError β}

theorem heeds_self (c : Except CompileError Unit) : Heeds c c := by
  cases c with
  | error e => exact .inl rfl
  | ok u => exact rfl

theorem Heeds.bind (h : Heeds r c) (hf : ∀ a, r = .ok a → Heeds (f a) c') :
    Heeds (r >>= f) (do c; c') := by
  cases r with
  | error e =>
    rcases h with rfl | hlarge
    · exact .inl rfl
    · exact .inr hlarge
  | ok a =>
    obtain rfl : c = .ok () := h
    exact hf a rfl

theorem Heeds.bind_ok (h : Heeds r c) (hf : ∀ a, Heeds (f a) (.ok ())) : Heeds (r >>= f) c := by
  cases r with
  | error e => exact h
  | ok a =>
    obtain rfl : c = .ok () := h
    exact hf a

theorem heeds_checkSize (copies stop : Nat) (span : Span) :
    Heeds (checkSize copies stop span) (.ok ()) := by
  unfold checkSize
  split
  · exact .inr ⟨span, rfl⟩
  · exact rfl

end Heeds

variable {source : String} {ts : List Tree}

theorem heeds_ofTrees (h : ∀ t ∈ ts, ∀ start, Heeds (ofTree source start t) t.check)
    (start : Nat) : Heeds (ofTrees source start ts) (Tree.checkAll (Tree.checks ts)) := by
  induction ts generalizing start with
  | nil => exact rfl
  | cons t ts ih =>
    obtain ⟨ht, hts⟩ := List.forall_mem_cons.1 h
    rw [ofTrees, Tree.checks, Tree.checkAll]
    exact (ht start).bind fun first _ => (ih hts _).bind_ok fun _ => rfl

theorem heeds_ofBranches (h : ∀ t ∈ ts, ∀ start, Heeds (ofTree source start t) t.check)
    (start : Nat) : Heeds (ofBranches source start ts) (Tree.checkAll (Tree.checks ts)) := by
  induction ts generalizing start with
  | nil => exact rfl
  | cons t ts ih =>
    obtain ⟨ht, hts⟩ := List.forall_mem_cons.1 h
    rw [ofBranches, Tree.checks, Tree.checkAll]
    exact (ht start).bind fun first _ => (ih hts _).bind_ok fun _ => rfl

theorem heeds_ofOperand (h : ∀ t ∈ ts, ∀ start, Heeds (ofTree source start t) t.check)
    (start : Nat) :
    Heeds (ofOperand source start ts) (Tree.checkAll ((Tree.checks ts).take 1)) := by
  cases ts with
  | nil => exact rfl
  | cons t ts =>
    rw [Tree.checkAll_take_one]
    exact h t List.mem_cons_self start

/-- A tree that is drafted is checked, wherever it is to stand. -/
theorem heeds_ofTree (source : String) (start : Nat) (t : Tree) :
    Heeds (ofTree source start t) t.check := by
  induction t using Tree.induction generalizing start with
  | node kind span children ih =>
    have hoperand := heeds_ofOperand fun t ht start => ih t ht start
    rw [Tree.check]
    cases kind with
    | definition => exact heeds_ofTrees (fun t ht start => ih t ht start) start
    | group => exact heeds_ofTrees (fun t ht start => ih t ht start) start
    | declaration => exact rfl
    | reference => exact rfl
    | character b => exact rfl
    | string bs => exact rfl
    | wildcard => exact rfl
    | range low high =>
      rw [ofTree, NodeKind.check]
      split
      · exact .inl rfl
      · exact rfl
    | choice => exact (heeds_ofBranches (fun t ht start => ih t ht start) _).bind_ok fun _ => rfl
    | exactly count =>
      refine (heeds_self (checkRepeat count span)).bind fun _ _ => ?_
      rw [NodeKind.written]
      split
      · exact rfl
      · exact (hoperand start).bind_ok fun body => (heeds_checkSize _ _ _).bind_ok fun _ => rfl
    | between min max =>
      rw [ofTree, NodeKind.check]
      split
      · exact .inl rfl
      · refine (heeds_self (checkRepeat max span)).bind fun _ _ => ?_
        rw [NodeKind.written]
        split
        · exact rfl
        · exact (hoperand _).bind_ok fun body => (heeds_checkSize _ _ _).bind_ok fun _ => rfl
    | atLeast min =>
      refine (heeds_self (checkRepeat min span)).bind fun _ _ => ?_
      exact (hoperand _).bind_ok fun body => (heeds_checkSize _ _ _).bind_ok fun _ => rfl

end Draft
end LexicalPatterns
