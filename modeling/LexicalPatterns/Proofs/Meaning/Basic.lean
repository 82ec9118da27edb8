import LexicalPatterns.Proofs.Machine.Backtrack
import LexicalPatterns.Proofs.Syntax.Preorder

/-!
# The meaning of syntax trees

What patterns match, said of their trees alone. A pattern matches several prefixes of a text, in
the order in which backtracking tries them; only the first match of a reference counts. A choice
prefers its earlier branches, and a repetition prefers one more copy to going on.
-/

namespace LexicalPatterns

/-- The lengths that a pattern matches at the start of a text, the preferred one first. An error
stands where references nest too deep. -/
abbrev Meaning := List UInt8 → List (Except MatchError Nat)

namespace Meaning

def empty : Meaning := fun _ => [.ok 0]

def never : Meaning := fun _ => []

def byte (accepts : UInt8 → Bool) : Meaning
  | b :: _ => if accepts b then [.ok 1] else []
  | [] => []

/-- One pattern and then another. For every match of the first, all matches of the second are
tried. -/
def seq (μ ν : Meaning) : Meaning := fun rest =>
  (μ rest).flatMap fun
    | .error e => [.error e]
    | .ok n => (ν (rest.drop n)).map (Except.map (n + ·))

def or (μ ν : Meaning) : Meaning := fun rest => μ rest ++ ν rest

def sequence (μs : List Meaning) : Meaning := μs.foldr seq empty

def choice (μs : List Meaning) : Meaning := μs.foldr or never

def copies (μ : Meaning) : (count : Nat) → Meaning
  | 0 => empty
  | count + 1 => seq μ (copies μ count)

def upTo (μ : Meaning) : (count : Nat) → Meaning
  | 0 => empty
  | count + 1 => or (seq μ (upTo μ count)) empty

/-- Any number of copies, more of them preferred. Each copy is to consume a byte, so that no copy
can match when there are as many as bytes. -/
def many (μ : Meaning) : Meaning := fun rest => upTo μ (rest.length + 1) rest

/-- The match that `result` gives, and no other. -/
def atomic (result : List UInt8 → MatchResult) : Meaning := fun rest =>
  match result rest with
  | .error e => [.error e]
  | .ok none => []
  | .ok (some n) => [.ok n]

def result (μ : Meaning) (rest : List UInt8) : MatchResult :=
  match μ rest with
  | [] => .ok none
  | o :: _ => o.map some

/-- What is found behind a pattern, for its matches one after the other. -/
def find (μ : Meaning) (rest : List UInt8) (next : Nat → MatchResult) : MatchResult :=
  .first ((μ rest).map fun o => o.bind next)

variable {μ ν : Meaning} {rest : List UInt8} {next : Nat → MatchResult}

theorem result_eq_find (μ : Meaning) (rest : List UInt8) :
    μ.result rest = μ.find rest fun n => .ok (some n) := by
  unfold result find
  rcases μ rest with _ | ⟨e | n, os⟩ <;> rfl

@[simp] theorem find_empty : empty.find rest next = next 0 := by
  simp [find, empty, Except.bind]

@[simp] theorem find_or :
    (or μ ν).find rest next = (μ.find rest next).orElse (ν.find rest next) := by
  rw [find, or, List.map_append, MatchResult.first_append, find, find]

theorem first_map_bind_map (os : List (Except MatchError Nat)) (n : Nat) :
    MatchResult.first ((os.map (Except.map (n + ·))).map fun o => o.bind next) =
      MatchResult.first (os.map fun o => o.bind fun k => next (n + k)) := by
  rw [List.map_map]
  congr 1
  apply List.map_congr_left
  intro o _
  rcases o with e | k <;> rfl

@[simp] theorem find_seq : (seq μ ν).find rest next =
    μ.find rest fun n => ν.find (rest.drop n) fun k => next (n + k) := by
  simp only [find, seq]
  induction μ rest with
  | nil => rfl
  | cons o os ih =>
    rw [List.flatMap_cons, List.map_append, MatchResult.first_append, ih, List.map_cons,
      MatchResult.first_cons]
    rcases o with e | n
    · rfl
    · rw [first_map_bind_map]
      rfl

theorem mem_seq {k : Nat} : .ok k ∈ seq μ ν rest ↔
    ∃ n, .ok n ∈ μ rest ∧ ∃ l, .ok l ∈ ν (rest.drop n) ∧ n + l = k := by
  rw [seq, List.mem_flatMap]
  constructor
  · rintro ⟨e | n, hn, hk⟩
    · simp at hk
    · obtain ⟨e | l, hl, hkl⟩ := List.mem_map.1 hk
      · cases hkl
      · exact ⟨n, hn, l, hl, by simpa [Except.map] using hkl⟩
  · rintro ⟨n, hn, l, hl, rfl⟩
    exact ⟨.ok n, hn, List.mem_map.2 ⟨.ok l, hl, rfl⟩⟩

theorem find_choice (μs : List Meaning) :
    (choice μs).find rest next = .first (μs.map fun μ => μ.find rest next) := by
  induction μs with
  | nil => rfl
  | cons μ μs ih => rw [choice, List.foldr_cons, find_or, ← choice, ih, List.map_cons,
      MatchResult.first_cons]

theorem mem_choice {μs : List Meaning} {o : Except MatchError Nat} :
    o ∈ choice μs rest ↔ ∃ μ ∈ μs, o ∈ μ rest := by
  induction μs with
  | nil => simp [choice, never]
  | cons μ μs ih =>
    unfold choice
    rw [List.foldr_cons, ← choice, or, List.mem_append, ih]
    simp

theorem mem_atomic {result : List UInt8 → MatchResult} {n : Nat} :
    .ok n ∈ atomic result rest ↔ result rest = .ok (some n) := by
  unfold atomic
  rcases result rest with e | _ | k <;> simp [eq_comm]

theorem mem_of_result {n : Nat} (h : μ.result rest = .ok (some n)) : .ok n ∈ μ rest := by
  unfold result at h
  rcases hos : μ rest with _ | ⟨e | k, os⟩
  · simp [hos] at h
  · simp [hos, Except.map] at h
  · obtain rfl : k = n := by simpa [hos, Except.map] using h
    simp

end Meaning

namespace Tree

mutual

/-- The meaning of a tree over `source`, where `ref` gives the match of the pattern of a name. The
operand of a repetition is its only child. -/
def meaning (source : String) (ref : String → List UInt8 → MatchResult) : Tree → Meaning
  | .node kind span children =>
    let inner := meanings source ref children
    let operand := inner.headD .empty
    match kind with
    | .character b => .byte fun c => c == b
    | .string bs => .sequence (bs.map fun b => .byte fun c => c == b)
    | .range low high => .byte fun c => low ≤ c && c ≤ high
    | .wildcard => .byte fun _ => true
    | .reference => .atomic (ref (span.text source))
    | .declaration => .empty
    | .definition | .group => .sequence inner
    | .choice => .choice inner
    | .exactly count => operand.copies count
    | .between min max => .seq (operand.copies min) (operand.upTo (max - min))
    | .atLeast min => .seq (operand.copies min) operand.many

/-- The meanings of several trees. -/
def meanings (source : String) (ref : String → List UInt8 → MatchResult) :
    List Tree → List Meaning
  | [] => []
  | t :: ts => meaning source ref t :: meanings source ref ts

end

theorem meanings_eq_map (source : String) (ref : String → List UInt8 → MatchResult)
    (ts : List Tree) : meanings source ref ts = ts.map (meaning source ref) := by
  induction ts with
  | nil => rfl
  | cons t ts ih => rw [meanings, ih, List.map_cons]

end Tree

/-- A pattern: its name and the items of its body, over a source. -/
structure Rule where
  name : String
  source : String
  items : List Tree

abbrev Grammar := List Rule

namespace Grammar

def rule? (g : Grammar) (name : String) : Option Rule := g.find? (·.name == name)

/-- The match of the pattern of a name, where references nest `levels` deep at most. A name that is
not defined never matches. The error names `limit`. -/
def result (g : Grammar) (limit : Nat) : (levels : Nat) → String → List UInt8 → MatchResult
  | 0, name, _ => if (g.rule? name).isSome then .error (.recursionLimit limit) else .ok none
  | levels + 1, name, rest =>
    match g.rule? name with
    | some rule =>
      (Meaning.sequence (Tree.meanings rule.source (result g limit levels) rule.items)).result rest
    | none => .ok none

variable {g : Grammar} {limit levels : Nat} {name : String} {rest : List UInt8}

theorem result_zero_of_some {rule : Rule} (h : g.rule? name = some rule) :
    g.result limit 0 name rest = .error (.recursionLimit limit) := by
  unfold result
  rw [h]
  rfl

theorem result_succ_of_some {rule : Rule} (h : g.rule? name = some rule) :
    g.result limit (levels + 1) name rest =
      (Meaning.sequence (Tree.meanings rule.source (g.result limit levels) rule.items)).result
        rest := by
  unfold result
  rw [h]

theorem result_of_none (h : g.rule? name = none) : g.result limit levels name rest = .ok none := by
  cases levels with
  | zero =>
    unfold result
    rw [h]
    rfl
  | succ levels => rw [result, h]

end Grammar
end LexicalPatterns
