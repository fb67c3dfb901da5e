import Mathlib.Data.List.Basic
import Mathlib.Tactic.Common

/-!
# Self-delimiting codes

A code is self-delimiting when a code word tells where it ends: no code word begins with another.
A sequence of code words, and a rest in front of which there is no whole code word, can then be
told apart in one way only (`flatMap_append_inj`).
-/

namespace Foundations

variable {α β : Type*} {enc : α → List β}

/-- No code word begins with another, and none is empty. -/
structure SelfDelimiting (enc : α → List β) : Prop where
  ne_nil : ∀ a, enc a ≠ []
  inj : ∀ {a b x y}, enc a ++ x = enc b ++ y → a = b

/-- There is no whole code word in front of `rest`. -/
def Unfinished (enc : α → List β) (rest : List β) : Prop := ∀ a x, rest ≠ enc a ++ x

/-- The items are the beginning of a sequence of code words. -/
def Clean (enc : α → List β) (b : List β) : Prop :=
  ∃ (d : List β) (l : List α), b ++ d = l.flatMap enc

theorem unfinished_nil (h : SelfDelimiting enc) : Unfinished enc [] := by
  intro a x hx
  exact h.ne_nil a (List.append_eq_nil_iff.1 hx.symm).1

theorem clean_nil : Clean enc [] := ⟨[], [], rfl⟩

theorem clean_flatMap (l : List α) : Clean enc (l.flatMap enc) := ⟨[], l, List.append_nil _⟩

theorem Clean.of_append {b c : List β} (h : Clean enc c) (hb : b <+: c) : Clean enc b := by
  obtain ⟨d, l, hd⟩ := h
  obtain ⟨e, rfl⟩ := hb
  exact ⟨e ++ d, l, by rw [← hd, List.append_assoc]⟩

/-- **A sequence of code words with an unfinished rest** is told apart in one way only. -/
theorem flatMap_append_inj (h : SelfDelimiting enc) {l l' : List α} {x x' : List β}
    (hx : Unfinished enc x) (hx' : Unfinished enc x')
    (heq : l.flatMap enc ++ x = l'.flatMap enc ++ x') : l = l' ∧ x = x' := by
  induction l generalizing l' with
  | nil =>
    rcases l' with _ | ⟨b, l'⟩
    · exact ⟨rfl, heq⟩
    · rw [List.flatMap_cons, List.append_assoc] at heq
      exact absurd heq (hx b _)
  | cons a l ih =>
    rcases l' with _ | ⟨b, l'⟩
    · rw [List.flatMap_cons, List.append_assoc] at heq
      exact absurd heq.symm (hx' a _)
    · rw [List.flatMap_cons, List.flatMap_cons, List.append_assoc, List.append_assoc] at heq
      obtain rfl := h.inj heq
      obtain ⟨rfl, rfl⟩ := ih (List.append_cancel_left heq)
      exact ⟨rfl, rfl⟩

/-- What is left of a clean sequence behind some of its code words is clean. -/
theorem Clean.rest (h : SelfDelimiting enc) {l : List α} {x : List β}
    (hc : Clean enc (l.flatMap enc ++ x)) : Clean enc x := by
  induction l with
  | nil => exact hc
  | cons a l ih =>
    apply ih
    obtain ⟨d, l', hd⟩ := hc
    rw [List.flatMap_cons, List.append_assoc, List.append_assoc] at hd
    rcases l' with _ | ⟨b, l'⟩
    · exact absurd (List.append_eq_nil_iff.1 hd).1 (h.ne_nil a)
    · rw [List.flatMap_cons] at hd
      obtain rfl := h.inj hd
      exact ⟨d, l', by rw [List.append_assoc, List.append_cancel_left hd]⟩

end Foundations
