import Mathlib.Data.Option.Basic
import Mathlib.Logic.Function.Basic
import Mathlib.Tactic.Common

/-!
# Labels and tags of the same points

Points have labels, and somebody who cannot see the labels has put tags on the points. The tags
agree with the labels when two points that are labelled have the same tag exactly if they have the
same label. Some labels and tags are names, which stand for the same in both; the others may be
anything. The tags go on agreeing when a point is given the label and the tag of another
(`Agrees.pull`), a label and a tag that are both new (`Agrees.bind`), or when one label and its tag
are changed to a name wherever they are (`Agrees.rename`).
-/

namespace Foundations

variable {X A B N : Type*} {α : N → A} {β : N → B} {lab lab' : X → Option A}
  {tag tag' : X → Option B}

/-- The tags identify the points that are labelled as the labels do, where `α` and `β` are the names
among the labels and the tags. -/
structure Agrees (α : N → A) (β : N → B) (lab : X → Option A) (tag : X → Option B) : Prop where
  tagged : ∀ x, (lab x).isSome → (tag x).isSome
  named : ∀ x n, (lab x).isSome → (tag x = some (β n) ↔ lab x = some (α n))
  same : ∀ x y, (lab x).isSome → (lab y).isSome → (tag x = tag y ↔ lab x = lab y)

/-- Points that have their label and their tag from points that agree. -/
theorem Agrees.pull (h : Agrees α β lab tag)
    (hfrom : ∀ x, (lab' x).isSome → ∃ y, lab' x = lab y ∧ tag' x = tag y) :
    Agrees α β lab' tag' where
  tagged x hx := by
    obtain ⟨y, hlab, htag⟩ := hfrom x hx
    rw [htag]
    rw [hlab] at hx
    exact h.tagged y hx
  named x n hx := by
    obtain ⟨y, hlab, htag⟩ := hfrom x hx
    rw [hlab] at hx ⊢
    rw [htag]
    exact h.named y n hx
  same x x' hx hx' := by
    obtain ⟨y, hlab, htag⟩ := hfrom x hx
    obtain ⟨y', hlab', htag'⟩ := hfrom x' hx'
    rw [hlab] at hx ⊢
    rw [hlab'] at hx' ⊢
    rw [htag, htag']
    exact h.same y y' hx hx'

/-- One point is given a label and a tag that the other points have together or not at all. -/
theorem Agrees.bind [DecidableEq X] (h : Agrees α β lab tag) {x₀ : X} {a : A} {b : B}
    (hname : ∀ n, b = β n ↔ a = α n)
    (hsame : ∀ x, (lab x).isSome → (tag x = some b ↔ lab x = some a)) :
    Agrees α β (Function.update lab x₀ (some a)) (Function.update tag x₀ (some b)) where
  tagged x hx := by
    by_cases hx₀ : x = x₀
    · rw [hx₀, Function.update_self]
      rfl
    · rw [Function.update_of_ne hx₀] at hx ⊢
      exact h.tagged x hx
  named x n hx := by
    by_cases hx₀ : x = x₀
    · rw [hx₀, Function.update_self, Function.update_self, Option.some_inj, Option.some_inj]
      exact hname n
    · rw [Function.update_of_ne hx₀] at hx ⊢
      rw [Function.update_of_ne hx₀]
      exact h.named x n hx
  same x y hx hy := by
    by_cases hx₀ : x = x₀ <;> by_cases hy₀ : y = x₀
    · rw [hx₀, hy₀]
      exact iff_of_true rfl rfl
    · rw [Function.update_of_ne hy₀] at hy
      rw [hx₀, Function.update_self, Function.update_self, Function.update_of_ne hy₀,
        Function.update_of_ne hy₀, eq_comm, hsame y hy]
      exact eq_comm
    · rw [Function.update_of_ne hx₀] at hx
      rw [hy₀, Function.update_self, Function.update_self, Function.update_of_ne hx₀,
        Function.update_of_ne hx₀]
      exact hsame x hx
    · rw [Function.update_of_ne hx₀] at hx
      rw [Function.update_of_ne hy₀] at hy
      rw [Function.update_of_ne hx₀, Function.update_of_ne hx₀, Function.update_of_ne hy₀,
        Function.update_of_ne hy₀]
      exact h.same x y hx hy

/-- The label of a point and its tag are changed to a name wherever they are. -/
theorem Agrees.rename [DecidableEq A] [DecidableEq B] (h : Agrees α β lab tag)
    (hα : Function.Injective α) (hβ : Function.Injective β) {x₀ : X} {a : A} {b : B}
    (ha : lab x₀ = some a) (hb : tag x₀ = some b) (n : N) :
    Agrees α β (fun x => if lab x = some a then some (α n) else lab x)
      (fun x => if tag x = some b then some (β n) else tag x) := by
  have hlabelled : ∀ x, (if lab x = some a then some (α n) else lab x).isSome → (lab x).isSome := by
    intro x hx
    by_cases hxa : lab x = some a
    · rw [hxa]
      rfl
    · rwa [if_neg hxa] at hx
  have hiff : ∀ x, (lab x).isSome → (tag x = some b ↔ lab x = some a) := by
    intro x hx
    rw [← ha, ← hb]
    exact h.same x x₀ hx (by rw [ha]; rfl)
  refine ⟨fun x hx => ?_, fun x m hx => ?_, fun x y hx hy => ?_⟩
  · have hx := hlabelled x hx
    by_cases hxa : lab x = some a
    · rw [if_pos ((hiff x hx).2 hxa)]
      rfl
    · rw [if_neg (mt (hiff x hx).1 hxa)]
      exact h.tagged x hx
  · have hx := hlabelled x hx
    by_cases hxa : lab x = some a
    · rw [if_pos ((hiff x hx).2 hxa), if_pos hxa, Option.some_inj, Option.some_inj, hα.eq_iff,
        hβ.eq_iff]
    · rw [if_neg (mt (hiff x hx).1 hxa), if_neg hxa]
      exact h.named x m hx
  · have hx := hlabelled x hx
    have hy := hlabelled y hy
    by_cases hxa : lab x = some a <;> by_cases hya : lab y = some a
    · rw [if_pos ((hiff x hx).2 hxa), if_pos ((hiff y hy).2 hya), if_pos hxa, if_pos hya]
      exact iff_of_true rfl rfl
    · rw [if_pos ((hiff x hx).2 hxa), if_neg (mt (hiff y hy).1 hya), if_pos hxa, if_neg hya,
        eq_comm, h.named y n hy]
      exact eq_comm
    · rw [if_neg (mt (hiff x hx).1 hxa), if_pos ((hiff y hy).2 hya), if_neg hxa, if_pos hya]
      exact h.named x n hx
    · rw [if_neg (mt (hiff x hx).1 hxa), if_neg (mt (hiff y hy).1 hya), if_neg hxa, if_neg hya]
      exact h.same x y hx hy

end Foundations
