import LexicalPatterns.Proofs.Listings.Lines
import Mathlib.Data.List.Chain

/-!
# How instructions are displayed

Neither a line feed nor an arrow stands in what an instruction is displayed as, whatever bytes it
tells. So in a line that shows one arrow behind it, what follows an arrow is what follows that one.
-/

namespace LexicalPatterns

/-- Whether no arrow `->` stands in a text. -/
def Arrowless (cs : List Char) : Prop := cs.IsChain fun c d => ¬ (c = '-' ∧ d = '>')

instance (cs : List Char) : Decidable (Arrowless cs) :=
  inferInstanceAs (Decidable (List.IsChain _ _))

section Arrows

variable {as bs before after : List Char}

theorem arrowless_of_notMem_dash (h : '-' ∉ as) : Arrowless as := by
  have hnone : ∀ c ∈ as, ∀ d ∈ as, ¬ (c = '-' ∧ d = '>') := by
    rintro c hc d - ⟨rfl, -⟩
    exact h hc
  exact (List.pairwise_of_forall_mem_list hnone).isChain

theorem arrowless_of_notMem_tip (h : '>' ∉ as) : Arrowless as := by
  have hnone : ∀ c ∈ as, ∀ d ∈ as, ¬ (c = '-' ∧ d = '>') := by
    rintro c - d hd ⟨-, rfl⟩
    exact h hd
  exact (List.pairwise_of_forall_mem_list hnone).isChain

/-- An arrow does not come about where the second of two texts does not start with its tip. -/
theorem Arrowless.append (ha : Arrowless as) (hb : Arrowless bs) (hhead : bs.head? ≠ some '>') :
    Arrowless (as ++ bs) := by
  rw [Arrowless, List.isChain_append]
  refine ⟨ha, hb, fun c _ d hd harrow => hhead ?_⟩
  rw [Option.mem_def.1 hd, harrow.2]

theorem Arrowless.append_of_notMem_tip (ha : Arrowless as) (h : '>' ∉ bs) : Arrowless (as ++ bs) :=
  ha.append (arrowless_of_notMem_tip h) fun hhead => h (List.mem_of_head? hhead)

theorem Arrowless.append_of_notMem_dash (h : '-' ∉ as) (hb : Arrowless bs) :
    Arrowless (as ++ bs) := by
  rw [Arrowless, List.isChain_append]
  refine ⟨arrowless_of_notMem_dash h, hb, fun c hc d _ harrow => h ?_⟩
  rw [← harrow.1]
  exact List.mem_of_mem_getLast? hc

theorem Arrowless.ne_append (h : Arrowless as) : as ≠ before ++ '-' :: '>' :: after := by
  rintro rfl
  exact (List.isChain_append_cons_cons.1 h).2.1 ⟨rfl, rfl⟩

/-- Between two texts without one an arrow stands once. -/
theorem Arrowless.eq_of_append (ha : Arrowless (as ++ ['-'])) (hb : '>' ∉ bs)
    (h : as ++ '-' :: '>' :: bs = before ++ '-' :: '>' :: after) : before = as ∧ after = bs := by
  have hsplit : (as ++ ['-']) ++ '>' :: bs = (before ++ ['-']) ++ '>' :: after := by simpa using h
  rcases List.append_eq_append_iff.1 hsplit with ⟨cs, hbefore, hrest⟩ | ⟨cs, has, hrest⟩
  · cases cs with
    | nil =>
      rw [List.append_nil] at hbefore
      exact ⟨(List.append_left_injective _ hbefore), (List.cons.inj hrest).2.symm⟩
    | cons c cs =>
      -- the arrow would stand in the second text
      refine absurd ?_ hb
      rw [(List.cons.inj hrest).2]
      simp
  · cases cs with
    | nil =>
      rw [List.append_nil] at has
      exact ⟨(List.append_left_injective _ has.symm), (List.cons.inj hrest).2⟩
    | cons c cs =>
      -- the arrow would stand in the first text
      obtain ⟨rfl, -⟩ := List.cons.inj hrest
      rw [List.append_assoc] at has
      exact absurd has ha.ne_append

end Arrows

/-- Whether a text has no line feed and no arrow. -/
structure Plain (cs : List Char) : Prop where
  lineFeed : '\n' ∉ cs
  arrowless : Arrowless cs

section Pieces

variable {as bs : List Char} {c : Char}

theorem Plain.append (ha : Plain as) (hb : Plain bs) (hhead : bs.head? ≠ some '>') :
    Plain (as ++ bs) :=
  ⟨by simp [ha.lineFeed, hb.lineFeed], ha.arrowless.append hb.arrowless hhead⟩

theorem Plain.append_of_notMem_tip (ha : Plain as) (hfeed : '\n' ∉ bs) (htip : '>' ∉ bs) :
    Plain (as ++ bs) :=
  ⟨by simp [ha.lineFeed, hfeed], ha.arrowless.append_of_notMem_tip htip⟩

theorem notMem_toString (hdigit : c.isDigit = false) (n : Nat) : c ∉ (toString n).toList := by
  intro h
  simp [isDigit_of_mem_toString h] at hdigit

theorem notMem_toString_int (hdigit : c.isDigit = false) (hdash : c ≠ '-') (n : Int) :
    c ∉ (toString n).toList := by
  have hrepr : toString n = if 0 ≤ n then toString n.toNat else "-" ++ toString (-n).toNat :=
    Int.repr_eq_if
  rw [hrepr]
  split
  · exact notMem_toString hdigit _
  · rw [String.toList_append, List.mem_append, not_or]
    exact ⟨by simpa using hdash, notMem_toString hdigit _⟩

theorem notMem_signed (hdigit : c.isDigit = false) (hdash : c ≠ '-') (hplus : c ≠ '+') (n : Int) :
    c ∉ (signed n).toList := by
  unfold signed
  split
  · exact notMem_toString_int hdigit hdash n
  · rw [String.toList_append, List.mem_append, not_or]
    exact ⟨by simpa using hplus, notMem_toString_int hdigit hdash n⟩

theorem plain_quoteByte (b : UInt8) : Plain (quoteByte b).toList := by
  have hall : ∀ n < 256, '\n' ∉ (quoteByte (UInt8.ofNat n)).toList ∧
      Arrowless (quoteByte (UInt8.ofNat n)).toList := by decide +kernel
  have hb := hall b.toNat b.toNat_lt
  rw [UInt8.ofNat_toNat] at hb
  exact ⟨hb.1, hb.2⟩

theorem head?_quoteByte (b : UInt8) : (quoteByte b).toList.head? = some '\'' := by
  simp [quoteByte]

end Pieces

theorem Action.plain_display (a : Action) : Plain a.display.toList := by
  have hquote (b : UInt8) : (quoteByte b).toList.head? ≠ some '>' := by simp [head?_quoteByte]
  have hword {s : String} (hs : '\n' ∉ s.toList ∧ Arrowless s.toList) (n : Nat) :
      Plain (s ++ toString n).toList := by
    rw [String.toList_append]
    exact Plain.append_of_notMem_tip ⟨hs.1, hs.2⟩ (notMem_toString rfl n) (notMem_toString rfl n)
  cases a with
  | empty => exact ⟨by decide, by decide⟩
  | literal b =>
    rw [display, String.toList_append]
    exact Plain.append ⟨by decide, by decide⟩ (plain_quoteByte b) (hquote b)
  | range low high =>
    simp only [display, String.toList_append]
    have hlow : Plain ("range ".toList ++ (quoteByte low).toList) :=
      Plain.append ⟨by decide, by decide⟩ (plain_quoteByte low) (hquote low)
    have hdots : Plain ("range ".toList ++ (quoteByte low).toList ++ "..".toList) :=
      hlow.append_of_notMem_tip (by decide) (by decide)
    exact hdots.append (plain_quoteByte high) (hquote high)
  | reference target =>
    cases target with
    | none => exact ⟨by decide, by decide⟩
    | some target => exact hword (by decide) target
  | branch count => exact hword (by decide) count
  | terminal => exact ⟨by decide, by decide⟩

namespace Instruction

theorem plain_display (i : Instruction) : Plain i.display.toList := by
  have hspaces (c : Char) (hc : c ≠ ' ') (n : Nat) : c ∉ List.replicate n ' ' :=
    fun h => hc (List.eq_of_mem_replicate h)
  have haction := i.action.plain_display
  unfold display
  split
  · exact haction
  · simp only [String.toList_append, toList_padRight]
    have hpad : Plain (i.action.display.toList ++
        List.replicate (24 - i.action.display.length) ' ' ++ " ".toList) :=
      (haction.append_of_notMem_tip (hspaces '\n' (by decide) _)
        (hspaces '>' (by decide) _)).append_of_notMem_tip (by decide) (by decide)
    exact hpad.append_of_notMem_tip (notMem_signed rfl (by decide) (by decide) i.movement)
      (notMem_signed rfl (by decide) (by decide) i.movement)

end Instruction

end LexicalPatterns
