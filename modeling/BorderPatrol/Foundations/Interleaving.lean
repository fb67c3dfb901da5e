import Mathlib.Data.List.Forall2
import Mathlib.Data.List.Perm.Subperm
import Mathlib.Logic.Function.Basic
import Mathlib.Tactic.Common

/-!
# Interleavings

A sequence of tagged items is an interleaving of its projections, the items of one tag in their
order. When each projection of a sequence is related, item by item, to a given sequence, then the
whole is related to an interleaving of the given sequences (`exists_interleaving`).
-/

namespace Foundations

variable {κ α β : Type*} [DecidableEq κ] {R : α → β → Prop}

/-- The items with tag `k`. -/
def proj (k : κ) (l : List (κ × α)) : List α := (l.filter (·.1 = k)).map (·.2)

@[simp] theorem proj_nil (k : κ) : proj k ([] : List (κ × α)) = [] := rfl

theorem proj_cons (k : κ) (x : κ × α) (l : List (κ × α)) :
    proj k (x :: l) = if x.1 = k then x.2 :: proj k l else proj k l := by
  unfold proj
  rw [List.filter_cons]
  by_cases h : x.1 = k <;> simp [h]

theorem proj_append (k : κ) (l l' : List (κ × α)) : proj k (l ++ l') = proj k l ++ proj k l' := by
  simp [proj]

/-- Items that all have one tag. -/
theorem proj_map (k k' : κ) (l : List α) :
    proj k' (l.map (k, ·)) = if k = k' then l else [] := by
  induction l with
  | nil => simp
  | cons a l ih =>
    rw [List.map_cons, proj_cons, ih]
    split <;> rfl

theorem count_proj [DecidableEq α] (x : κ × α) (l : List (κ × α)) :
    (proj x.1 l).count x.2 = l.count x := by
  induction l with
  | nil => rfl
  | cons y l ih =>
    rw [proj_cons, List.count_cons]
    by_cases h : y.1 = x.1
    · rw [if_pos h, List.count_cons, ih]
      simp [Prod.ext_iff, h]
    · have hne : ¬ (y = x) := fun heq => h (congrArg Prod.fst heq)
      rw [if_neg h, ih]
      simp [hne]

/-- Nothing comes more often in `l` than in `l'` when that is so of the items of each tag. -/
theorem subperm_of_proj {l l' : List (κ × α)} (h : ∀ k, (proj k l).Sublist (proj k l')) :
    l.Subperm l' := by
  classical
  rw [List.subperm_ext_iff]
  intro x _
  rw [← count_proj, ← count_proj]
  exact (h x.1).count_le x.2

/-- **Interleaving.** Sequences related to the projections have an interleaving related to the
whole. -/
theorem exists_interleaving (T : κ → Prop) (l : List (κ × β)) (as : κ → List α)
    (hT : ∀ x ∈ l, T x.1) (h : ∀ k, T k → List.Forall₂ R (as k) (proj k l)) :
    ∃ items : List (κ × α), List.Forall₂ (fun a b => a.1 = b.1 ∧ R a.2 b.2) items l ∧
      (∀ a ∈ items, T a.1) ∧ ∀ k, T k → proj k items = as k := by
  induction l generalizing as with
  | nil =>
    exact ⟨[], .nil, by simp, fun k hk => (List.forall₂_nil_right_iff.1 (h k hk)).symm⟩
  | cons b l ih =>
    have hb := h b.1 (hT b (by simp))
    rw [proj_cons, if_pos rfl] at hb
    obtain ⟨a, as', hab, has', heq⟩ := List.forall₂_cons_right_iff.1 hb
    obtain ⟨items, hitems, htags, hproj⟩ := ih (Function.update as b.1 as')
      (fun x hx => hT x (by simp [hx])) fun k hk => by
        by_cases hkb : k = b.1
        · subst hkb
          rwa [Function.update_self]
        · have := h k hk
          rwa [proj_cons, if_neg (Ne.symm hkb), ← Function.update_of_ne hkb as' as] at this
    refine ⟨(b.1, a) :: items, .cons ⟨rfl, hab⟩ hitems, ?_, fun k hk => ?_⟩
    · exact List.forall_mem_cons.2 ⟨hT b (by simp), htags⟩
    rw [proj_cons, hproj k hk]
    by_cases hkb : k = b.1
    · subst hkb
      rw [if_pos rfl, Function.update_self, heq]
    · rw [if_neg (Ne.symm hkb), Function.update_of_ne hkb]

/-- Items with two tags. -/
theorem proj_pair {κ' : Type*} [DecidableEq κ'] (f : α → β) (k : κ) (p : κ')
    (l : List (κ × (κ' × α))) : proj (k, p) (l.map fun a => ((a.1, a.2.1), f a.2.2)) =
      (proj p (proj k l)).map f := by
  induction l with
  | nil => rfl
  | cons a l ih =>
    obtain ⟨k', p', x⟩ := a
    rw [List.map_cons, proj_cons, proj_cons, ih]
    by_cases hk : k' = k
    · by_cases hp : p' = p
      · simp [hk, hp, proj_cons]
      · simp [hk, hp, proj_cons]
    · simp [hk]

/-- Sequences with the same tags, related item by item. -/
theorem forall₂_proj {l : List (κ × α)} {l' : List (κ × β)}
    (h : List.Forall₂ (fun a b => a.1 = b.1 ∧ R a.2 b.2) l l') (k : κ) :
    List.Forall₂ R (proj k l) (proj k l') := by
  induction h with
  | nil => exact .nil
  | cons hab _ ih =>
    rw [proj_cons, proj_cons, ← hab.1]
    split
    · exact .cons hab.2 ih
    · exact ih

theorem map_eq_of_forall₂ {γ : Type*} {f : α → γ} {g : β → γ} {l : List α} {l' : List β}
    (h : List.Forall₂ (fun a b => f a = g b) l l') : l.map f = l'.map g := by
  rw [← List.forall₂_eq_eq_eq, List.forall₂_map_left_iff, List.forall₂_map_right_iff]
  exact h

omit [DecidableEq κ] in
/-- The tags of one sequence are put on another. -/
theorem exists_tagged {l : List (κ × α)} {bs : List β}
    (h : List.Forall₂ (fun a b => R a.2 b) l bs) : ∃ l' : List (κ × β), l'.map (·.2) = bs ∧
      List.Forall₂ (fun a b => a.1 = b.1 ∧ R a.2 b.2) l l' := by
  induction h with
  | nil => exact ⟨[], rfl, .nil⟩
  | @cons a b l bs hab _ ih =>
    obtain ⟨l', hl', hrel⟩ := ih
    exact ⟨(a.1, b) :: l', by rw [List.map_cons, hl'], .cons ⟨rfl, hab⟩ hrel⟩

end Foundations
