import BorderPatrol.Trace.Protocol.Https

/-!
# The text of HTTP messages

The head of a message is a block of lines, none of them empty and each ended by a carriage return
and a line feed, and an empty line behind them. In such a block `strstr` finds the end of a header
at the end of the block and nowhere before it (`strstr_headerBlock`).
-/

namespace BorderPatrol.Trace

open Foundations

/-- The text of a line: no zero and no line break. -/
def LineText (l : List Byte) : Prop := ∀ b ∈ l, b ≠ 0 ∧ b ≠ 10 ∧ b ≠ 13

instance (l : List Byte) : Decidable (LineText l) :=
  List.decidableBAll (fun b => b ≠ 0 ∧ b ≠ 10 ∧ b ≠ 13) l

/-- Text with no blank in it has no delimiter in it. -/
theorem LineText.not_delim {l : List Byte} (h : LineText l) (hb : 32 ∉ l) :
    ∀ b ∈ l, b ∉ headerDelim ∧ b ≠ 0 := by
  intro b hmem
  obtain ⟨h0, -, h13⟩ := h b hmem
  have h32 : b ≠ 32 := fun heq => hb (heq ▸ hmem)
  exact ⟨by simp [headerDelim, h13, h32], h0⟩

/-- Lines, each with its end, and an empty line. -/
def headerBlock (lines : List (List Byte)) : List Byte := lines.flatMap (· ++ [13, 10]) ++ [13, 10]

@[simp] theorem headerBlock_cons (l : List Byte) (lines : List (List Byte)) :
    headerBlock (l :: lines) = l ++ 13 :: 10 :: headerBlock lines := by
  simp [headerBlock]

theorem two_le_length_headerBlock (lines : List (List Byte)) : 2 ≤ (headerBlock lines).length := by
  rw [headerBlock, List.length_append]
  exact Nat.le_add_left ..

/-- The end of a header is not at a line end with a line behind it. -/
theorem strstr_lineEnd {b : Byte} {m : List Byte} (hb : b ≠ 13) :
    strstr headerEnd (13 :: 10 :: b :: m) = (strstr headerEnd (b :: m)).map (· + 2) := by
  have h₁ : ¬ headerEnd.isPrefixOf (13 :: 10 :: b :: m) := by
    simp [headerEnd, List.isPrefixOf, Ne.symm hb]
  have h₂ : ¬ headerEnd.isPrefixOf (10 :: b :: m) := by
    simp [headerEnd, List.isPrefixOf]
  rw [strstr, if_neg h₁, if_neg (by decide), strstr, if_neg h₂, if_neg (by decide), Option.map_map]
  rfl

/-- **The end of a header** is found at the end of the block. -/
theorem strstr_headerBlock {lines : List (List Byte)} (hne : lines ≠ [])
    (ht : ∀ l ∈ lines, l ≠ [] ∧ LineText l) (c : List Byte) :
    strstr headerEnd (headerBlock lines ++ c) = some ((headerBlock lines).length - 4) := by
  induction lines with
  | nil => exact absurd rfl hne
  | cons l lines ih =>
    obtain ⟨⟨-, hl⟩, ht⟩ := List.forall_mem_cons.1 ht
    have hskip : ∀ b ∈ l, b ≠ 0 ∧ b ≠ 13 := fun b hb => ⟨(hl b hb).1, (hl b hb).2.2⟩
    rw [headerBlock_cons, List.append_assoc, headerEnd, strstr_append hskip, ← headerEnd]
    rcases lines with _ | ⟨l', lines⟩
    · -- the last line
      have hend : strstr headerEnd (13 :: 10 :: headerBlock [] ++ c) = some 0 := by
        rw [headerBlock, List.flatMap_nil, List.nil_append, List.cons_append, strstr,
          if_pos (by simp [headerEnd, List.isPrefixOf])]
      rw [hend]
      simp [headerBlock]
    · obtain ⟨⟨hne', hl'⟩, -⟩ := List.forall_mem_cons.1 ht
      obtain ⟨b, t, rfl⟩ := List.exists_cons_of_ne_nil hne'
      have hb := (hl' b List.mem_cons_self).2.2
      have hrest := ih (by simp) ht
      have hlen : 4 ≤ (headerBlock ((b :: t) :: lines)).length := by
        have := two_le_length_headerBlock lines
        simp only [headerBlock_cons, List.length_append, List.length_cons]
        omega
      rw [headerBlock_cons] at hrest hlen ⊢
      simp only [List.cons_append] at hrest ⊢
      rw [strstr_lineEnd hb, hrest]
      simp only [Option.map_some, Option.some.injEq, List.length_append, List.length_cons] at hlen ⊢
      omega

end BorderPatrol.Trace
