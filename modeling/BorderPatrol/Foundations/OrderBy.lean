import Mathlib.Data.List.Sort
import Mathlib.Data.List.Perm.Basic

/-!
# Rows in the order of a key

A query with `ORDER BY` gives the rows of a table in the order of a key. It says nothing about rows
with equal keys: `OrderedBy` is any outcome, and `KeepsTies` says of one that it leaves such rows
in the order of the table. A row with a smaller key comes first in every outcome
(`OrderedBy.before_of_lt`), and of two rows with the same key either may
(`exists_orderedBy_before`). That `x` is in front of `y` is written `[x, y] <+ l`.
-/

namespace Foundations

open scoped List

variable {α κ : Type*} [LinearOrder κ] {key : α → κ} {l l' : List α} {x y : α}

/-- The rows `l` in an order of the key. -/
structure OrderedBy (key : α → κ) (l l' : List α) : Prop where
  perm : l' ~ l
  sorted : l'.Pairwise fun a b => key a ≤ key b

/-- Rows with equal keys are left in their order. -/
def KeepsTies (key : α → κ) (l l' : List α) : Prop :=
  ∀ x y, key x = key y → [x, y] <+ l → [x, y] <+ l'

/-- Of two rows one is in front of the other. -/
theorem before_total (hx : x ∈ l) (hy : y ∈ l) (hne : x ≠ y) : [x, y] <+ l ∨ [y, x] <+ l := by
  induction l with
  | nil => cases hx
  | cons a l ih =>
    rcases List.mem_cons.1 hx with rfl | hxl
    · have hyl : y ∈ l := (List.mem_cons.1 hy).resolve_left hne.symm
      exact .inl ((List.singleton_sublist.2 hyl).cons_cons x)
    · rcases List.mem_cons.1 hy with rfl | hyl
      · exact .inr ((List.singleton_sublist.2 hxl).cons_cons y)
      · exact (ih hxl hyl).imp (·.cons a) (·.cons a)

/-- A row with a smaller key comes first. -/
theorem OrderedBy.before_of_lt (h : OrderedBy key l l') (hx : x ∈ l) (hy : y ∈ l)
    (hlt : key x < key y) : [x, y] <+ l' := by
  have hne : x ≠ y := by
    rintro rfl
    exact lt_irrefl _ hlt
  apply (before_total (h.perm.mem_iff.2 hx) (h.perm.mem_iff.2 hy) hne).resolve_right
  intro hyx
  exact absurd hlt (not_lt_of_ge (h.sorted.forall_sublist hyx))

/-- Sorting by merging is an outcome that keeps the ties. -/
theorem orderedBy_mergeSort (key : α → κ) (l : List α) :
    OrderedBy key l (l.mergeSort fun a b => key a ≤ key b) where
  perm := List.mergeSort_perm _ _
  sorted := by
    have hsorted : (l.mergeSort fun a b => decide (key a ≤ key b)).Pairwise
        fun a b => decide (key a ≤ key b) = true :=
      List.pairwise_mergeSort (fun a b c => by simpa using le_trans)
        (fun a b => by simpa using le_total _ _) l
    simpa using hsorted

/-- Merging leaves what is in order in order. -/
theorem before_mergeSort (hle : key x ≤ key y) (h : [x, y] <+ l) :
    [x, y] <+ l.mergeSort fun a b => key a ≤ key b :=
  List.pair_sublist_mergeSort (fun a b c => by simpa using le_trans)
    (fun a b => by simpa using le_total _ _) (by simpa using hle) h

theorem keepsTies_mergeSort (key : α → κ) (l : List α) :
    KeepsTies key l (l.mergeSort fun a b => key a ≤ key b) :=
  fun _ _ heq h => before_mergeSort heq.le h

/-- Two rows that may be in one order are in it in some outcome. -/
theorem exists_orderedBy_before (key : α → κ) (hx : x ∈ l) (hy : y ∈ l) (hne : x ≠ y)
    (hle : key x ≤ key y) : ∃ l', OrderedBy key l l' ∧ [x, y] <+ l' := by
  rcases before_total hx hy hne with h | h
  · exact ⟨_, orderedBy_mergeSort key l, before_mergeSort hle h⟩
  · -- the table could have been stored the other way round
    have hrev : [x, y] <+ l.reverse := by simpa using h.reverse
    have hmerge := orderedBy_mergeSort key l.reverse
    exact ⟨_, ⟨hmerge.perm.trans l.reverse_perm, hmerge.sorted⟩, before_mergeSort hle hrev⟩

/-- Rows that are in the order of different keys have only that order. -/
theorem OrderedBy.eq_of_lt (h : OrderedBy key l l') (hl : l.Pairwise fun a b => key a < key b) :
    l' = l := by
  have hinj : ∀ a b, a ∈ l → b ∈ l → key a = key b → a = b := by
    intro a b ha hb hab
    by_contra hne
    rcases before_total ha hb hne with h | h
    · exact absurd hab (hl.forall_sublist h).ne
    · exact absurd hab (hl.forall_sublist h).ne'
  refine List.Perm.eq_of_pairwise (fun a b ha hb hab hba => ?_) h.sorted
    (hl.imp fun h => h.le) h.perm
  exact hinj a b (h.perm.mem_iff.1 ha) hb (le_antisymm hab hba)

/-! ## Outcomes that keep the ties -/

/-- What is in front of something else is not behind it. -/
theorem not_before_of_before (hl : l.Nodup) (h : [x, y] <+ l) : ¬ [y, x] <+ l := by
  intro h'
  induction l with
  | nil => cases h
  | cons a l ih =>
    obtain ⟨ha, hl⟩ := List.nodup_cons.1 hl
    cases h with
    | cons _ h =>
      cases h' with
      | cons _ h' => exact ih hl h h'
      | cons_cons _ h' => exact ha (h.subset (List.mem_cons_of_mem _ List.mem_cons_self))
    | cons_cons _ h =>
      cases h' with
      | cons _ h' => exact ha (h'.subset (List.mem_cons_of_mem _ List.mem_cons_self))
      | cons_cons _ h' => exact ha (h.subset List.mem_cons_self)

/-- Of two rows the one with the smaller key comes first, and of two with equal keys the one that
is first in the table. -/
theorem OrderedBy.pairwise_of_keepsTies (h : OrderedBy key l l') (hties : KeepsTies key l l')
    (hl : l.Nodup) :
    l'.Pairwise fun a b => key a < key b ∨ key a = key b ∧ [a, b] <+ l := by
  have hl' : l'.Nodup := h.perm.nodup_iff.2 hl
  rw [List.pairwise_iff_forall_sublist]
  intro a b hab
  refine (h.sorted.forall_sublist hab).lt_or_eq.imp_right fun heq => ⟨heq, ?_⟩
  have ha : a ∈ l := h.perm.mem_iff.1 (hab.subset List.mem_cons_self)
  have hb : b ∈ l := h.perm.mem_iff.1 (hab.subset (List.mem_cons_of_mem _ List.mem_cons_self))
  have hne : a ≠ b := by
    rintro rfl
    exact not_before_of_before hl' hab hab
  refine (before_total ha hb hne).resolve_right fun hba => ?_
  exact not_before_of_before hl' hab (hties b a heq.symm hba)

/-- **There is one outcome** that keeps the ties: what sorting by merging gives. -/
theorem OrderedBy.eq_mergeSort (h : OrderedBy key l l') (hties : KeepsTies key l l')
    (hl : l.Nodup) : l' = l.mergeSort fun a b => key a ≤ key b := by
  have hmerge := orderedBy_mergeSort key l
  refine List.Perm.eq_of_pairwise (fun a b _ _ hab hba => ?_) (h.pairwise_of_keepsTies hties hl)
    (hmerge.pairwise_of_keepsTies (keepsTies_mergeSort key l) hl) (h.perm.trans hmerge.perm.symm)
  rcases hab with hlt | ⟨heq, hab⟩
  · exact absurd hlt (hba.elim (fun hlt' => lt_asymm hlt') fun h => h.1.not_gt)
  · rcases hba with hlt | ⟨-, hba⟩
    · exact absurd heq.symm hlt.ne
    · exact absurd hba (not_before_of_before hl hab)

/-- The rows of a table whose columns are computed from others. -/
theorem OrderedBy.map_iff {β : Type*} {key : β → κ} (f : α → β) {l' : List β} :
    OrderedBy key (l.map f) l' ↔ ∃ m, OrderedBy (key ∘ f) l m ∧ l' = m.map f := by
  constructor
  · intro h
    have hrel : List.Forall₂ (fun a b => f a = b) l (l.map f) :=
      List.forall₂_map_right_iff.2 (List.forall₂_same.2 fun _ _ => rfl)
    have hcomp : Relation.Comp (List.Forall₂ fun a b => f a = b) List.Perm l l' :=
      ⟨_, hrel, h.perm.symm⟩
    rw [List.forall₂_comp_perm_eq_perm_comp_forall₂] at hcomp
    obtain ⟨m, hperm, hm⟩ := hcomp
    have hmap : l' = m.map f := by
      rw [← List.forall₂_eq_eq_eq, List.forall₂_map_right_iff]
      exact hm.flip.imp fun _ _ h => h.symm
    subst hmap
    exact ⟨m, ⟨hperm.symm, (List.pairwise_map (R := fun a b => key a ≤ key b)).1 h.sorted⟩, rfl⟩
  · rintro ⟨m, h, rfl⟩
    exact ⟨h.perm.map f, (List.pairwise_map (R := fun a b => key a ≤ key b)).2 h.sorted⟩

/-! ## Numbered rows -/

/-- A numbered list is in the order of its numbers. -/
theorem zipIdx_pairwise_lt (l : List α) (n : ℕ) : (l.zipIdx n).Pairwise fun a b => a.2 < b.2 := by
  induction l generalizing n with
  | nil => exact .nil
  | cons a l ih =>
    refine .cons (fun b hb => ?_) (ih (n + 1))
    exact List.le_snd_of_mem_zipIdx hb

/-- What is in front of something else has a smaller number. -/
theorem before_zipIdx (h : [x, y] <+ l) (n : ℕ) : ∃ i j, [(x, i), (y, j)] <+ l.zipIdx n := by
  rw [← List.zipIdx_map_fst n l, List.sublist_map_iff] at h
  obtain ⟨p, hp, heq⟩ := h
  match p, heq with
  | [(a, i), (b, j)], heq =>
    simp only [List.map_cons, List.map_nil, List.cons.injEq, and_true] at heq
    obtain ⟨rfl, rfl⟩ := heq
    exact ⟨i, j, hp⟩

end Foundations
