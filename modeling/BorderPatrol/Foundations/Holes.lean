import Mathlib.Data.List.Forall2
import Mathlib.Tactic.Common

/-!
# Sequences with holes

A sequence of places, some of which are holes: a hole takes any item, and every other place the one
it names. A sequence can be continued to one that fills all places exactly when it fills as many of
them as it has items (`exists_filled_iff`). When one sequence fills the places, another does exactly
when it differs from the first only in holes (`filled_iff`).
-/

namespace Foundations

variable {α β : Type*}

/-- The item `a` fills the place `o`: a hole, or the item `a`. -/
def Fills (o : Option α) (a : α) : Prop := ∀ b, o = some b → a = b

theorem fills_none (a : α) : Fills none a := by
  intro b hb
  cases hb

theorem fills_some_iff {a b : α} : Fills (some b) a ↔ a = b := by
  constructor
  · intro h
    exact h b rfl
  · rintro rfl c hc
    exact Option.some.inj hc

/-- The items fill the places, one each. -/
def FillsAll (F : List (Option α)) (l : List α) : Prop := List.Forall₂ Fills F l

theorem FillsAll.length_eq {F : List (Option α)} {l : List α} (h : FillsAll F l) :
    F.length = l.length := List.Forall₂.length_eq h

theorem FillsAll.append {F F' : List (Option α)} {l l' : List α} (h : FillsAll F l)
    (h' : FillsAll F' l') : FillsAll (F ++ F') (l ++ l') := List.rel_append h h'

theorem FillsAll.take {F : List (Option α)} {l : List α} (h : FillsAll F l) (n : ℕ) :
    FillsAll (F.take n) (l.take n) := List.forall₂_take n h

theorem FillsAll.drop {F : List (Option α)} {l : List α} (h : FillsAll F l) (n : ℕ) :
    FillsAll (F.drop n) (l.drop n) := List.forall₂_drop n h

/-- Places of two parts are filled by the items of two parts. -/
theorem filled_append_iff {F F' : List (Option α)} {l l' : List α} (hlen : F.length = l.length) :
    FillsAll (F ++ F') (l ++ l') ↔ FillsAll F l ∧ FillsAll F' l' := by
  constructor
  · intro h
    have htake := h.take F.length
    have hdrop := h.drop F.length
    rw [List.take_left, List.take_left' hlen.symm] at htake
    rw [List.drop_left, List.drop_left' hlen.symm] at hdrop
    exact ⟨htake, hdrop⟩
  · rintro ⟨h, h'⟩
    exact h.append h'

/-- What fills the places of two parts has two parts. -/
theorem FillsAll.exists_append {F F' : List (Option α)} {l : List α} (h : FillsAll (F ++ F') l) :
    ∃ x y, l = x ++ y ∧ FillsAll F x ∧ FillsAll F' y := by
  have hlen : F.length ≤ l.length := by
    have := h.length_eq
    rw [List.length_append] at this
    omega
  refine ⟨l.take F.length, l.drop F.length, (List.take_append_drop ..).symm, ?_⟩
  rwa [← filled_append_iff (by rw [List.length_take]; omega), List.take_append_drop]

/-- Places without holes. -/
theorem filled_map_some_iff {l l' : List α} : FillsAll (l.map some) l' ↔ l' = l := by
  rw [FillsAll, List.forall₂_map_left_iff]
  have hfills : (fun b a : α => Fills (some b) a) = fun b a => b = a := by
    funext b a
    exact propext (fills_some_iff.trans eq_comm)
  rw [hfills, List.forall₂_eq_eq_eq, eq_comm]

/-- Places that are all holes. -/
theorem filled_replicate_none_iff {n : ℕ} {l : List α} :
    FillsAll (List.replicate n none) l ↔ l.length = n := by
  constructor
  · intro h
    rw [← h.length_eq, List.length_replicate]
  · rintro rfl
    induction l with
    | nil => exact .nil
    | cons a l ih => exact .cons (fills_none a) ih

/-- What fills the places of a sequence of codes is a sequence of fillings. -/
theorem exists_fillings_iff {f : β → List (Option α)} {bs : List β} {l : List α} :
    (∃ ws, List.Forall₂ (fun b w => FillsAll (f b) w) bs ws ∧ ws.flatten = l) ↔
      FillsAll (bs.flatMap f) l := by
  induction bs generalizing l with
  | nil =>
    constructor
    · rintro ⟨ws, hws, rfl⟩
      cases hws
      exact .nil
    · intro h
      cases h
      exact ⟨[], .nil, rfl⟩
  | cons b bs ih =>
    constructor
    · rintro ⟨ws, hws, rfl⟩
      cases hws with
      | cons hw hws => exact hw.append (ih.1 ⟨_, hws, rfl⟩)
    · intro h
      rw [List.flatMap_cons] at h
      obtain ⟨x, y, rfl, hx, hy⟩ := h.exists_append
      obtain ⟨ws, hws, rfl⟩ := ih.2 hy
      exact ⟨x :: ws, .cons hx hws, List.flatten_cons⟩

/-- Places can be filled. -/
theorem exists_filled [Inhabited α] (F : List (Option α)) : ∃ l, FillsAll F l := by
  induction F with
  | nil => exact ⟨[], .nil⟩
  | cons o F ih =>
    obtain ⟨l, hl⟩ := ih
    rcases o with _ | a
    · exact ⟨default :: l, .cons (fills_none _) hl⟩
    · exact ⟨a :: l, .cons (fills_some_iff.2 rfl) hl⟩

/-- **A beginning** of what fills the places is what fills their beginning. -/
theorem exists_filled_iff [Inhabited α] {F : List (Option α)} {l : List α} :
    (∃ z, FillsAll F z ∧ l <+: z) ↔ FillsAll (F.take l.length) l := by
  constructor
  · rintro ⟨z, hz, y, rfl⟩
    have htake := hz.take l.length
    rwa [List.take_left] at htake
  · intro h
    obtain ⟨y, hy⟩ := exists_filled (F.drop l.length)
    refine ⟨l ++ y, ?_, List.prefix_append ..⟩
    rw [← List.take_append_drop l.length F]
    exact h.append hy

/-- **Another filling** differs from one that is known only in holes. -/
theorem filled_iff {F : List (Option α)} {l l' : List α} (h : FillsAll F l)
    (hlen : l'.length = l.length) :
    FillsAll F l' ↔ ∀ i : ℕ, l'[i]? ≠ l[i]? → F[i]? = some none := by
  induction h generalizing l' with
  | nil =>
    rw [List.length_nil, List.length_eq_zero_iff] at hlen
    subst hlen
    exact iff_of_true .nil fun i hi => absurd rfl hi
  | @cons o a F l ho h ih =>
    rcases l' with _ | ⟨a', l'⟩
    · rw [List.length_nil, List.length_cons] at hlen
      omega
    have hlen : l'.length = l.length := by simpa using hlen
    constructor
    · intro h' i hi
      cases h' with
      | cons ho' h' =>
        rcases i with _ | i
        · rcases o with _ | b
          · rfl
          · rw [fills_some_iff] at ho ho'
            exact absurd (by rw [List.getElem?_cons_zero, List.getElem?_cons_zero, ho, ho']) hi
        · exact (ih hlen).1 h' i hi
    · intro hall
      refine .cons ?_ ((ih hlen).2 fun i hi => hall (i + 1) hi)
      rcases o with _ | b
      · exact fills_none a'
      · rw [fills_some_iff] at ho ⊢
        by_contra hne
        have hzero := hall 0 (by
          rw [List.getElem?_cons_zero, List.getElem?_cons_zero, ho]
          exact fun heq => hne (Option.some.inj heq))
        cases hzero

end Foundations
