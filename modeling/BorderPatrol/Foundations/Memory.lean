import Mathlib.Data.List.Basic
import Mathlib.Data.Nat.Notation
import Mathlib.Tactic.Common

/-!
# Flat memory

A memory is a total map from addresses to cells. The three operations a buffer program needs
are reading a range (`slice`), storing a list at an address (`store`) and moving a range inside
one memory (`move`, which like `memmove` reads its source before it writes). Two ranges compose
(`slice_add`), a range just stored reads back (`slice_store_self`), a range away from the store
is unchanged (`slice_store_of_disjoint`), and a range of what was moved is the same range of the
source (`slice_move`).
-/

namespace Foundations

variable {α : Type*}

/-- A memory: a cell at every address. -/
abbrev Mem (α : Type*) := ℕ → α

namespace Mem

/-- The `n` cells from address `a` on. -/
def slice (m : Mem α) (a n : ℕ) : List α := (List.range' a n).map m

/-- Store a list of cells at address `a`. -/
def store (m : Mem α) (a : ℕ) (l : List α) : Mem α :=
  fun i => if a ≤ i then (l[i - a]?).getD (m i) else m i

/-- Move `n` cells from `src` to `dst`. -/
def move (m : Mem α) (dst src n : ℕ) : Mem α := m.store dst (m.slice src n)

/-- Apply `f` to each of `n` cells from `a` on, in place. -/
def update (m : Mem α) (a n : ℕ) (f : α → α) : Mem α := m.store a ((m.slice a n).map f)

/-- The loop that copies `n` cells from `t` down to the start, one after the other. -/
def copyDown (m : Mem α) (t : ℕ) : ℕ → Mem α
  | 0 => m
  | n + 1 => (copyDown m t n).store n [copyDown m t n (t + n)]

@[simp] theorem length_slice (m : Mem α) (a n : ℕ) : (m.slice a n).length = n := by
  simp [slice]

@[simp] theorem slice_zero (m : Mem α) (a : ℕ) : m.slice a 0 = [] := rfl

theorem getElem_slice (m : Mem α) (a n i : ℕ) (h : i < (m.slice a n).length) :
    (m.slice a n)[i] = m (a + i) := by
  simp [slice]

/-- Consecutive ranges compose. -/
theorem slice_add (m : Mem α) (a n k : ℕ) :
    m.slice a (n + k) = m.slice a n ++ m.slice (a + n) k := by
  rw [slice, slice, slice, ← List.map_append]
  simp

theorem take_slice (m : Mem α) (a : ℕ) {k n : ℕ} (h : k ≤ n) :
    (m.slice a n).take k = m.slice a k := by
  obtain ⟨j, rfl⟩ := Nat.exists_eq_add_of_le h
  rw [slice_add, List.take_left' (length_slice ..)]

theorem drop_slice (m : Mem α) (a : ℕ) {k n : ℕ} (h : k ≤ n) :
    (m.slice a n).drop k = m.slice (a + k) (n - k) := by
  obtain ⟨j, rfl⟩ := Nat.exists_eq_add_of_le h
  rw [slice_add, List.drop_left' (length_slice ..), Nat.add_sub_cancel_left]

theorem store_of_lt (m : Mem α) {a i : ℕ} (l : List α) (h : i < a) : m.store a l i = m i := by
  simp [store, Nat.not_le.2 h]

theorem store_of_ge (m : Mem α) {a i : ℕ} (l : List α) (h : a + l.length ≤ i) :
    m.store a l i = m i := by
  simp [store, List.getElem?_eq_none (show l.length ≤ i - a by omega)]

theorem store_add (m : Mem α) (a : ℕ) (l : List α) {i : ℕ} (h : i < l.length) :
    m.store a l (a + i) = l[i] := by
  simp [store, List.getElem?_eq_getElem h]

/-- What was stored is read back. -/
theorem slice_store_self (m : Mem α) (a : ℕ) (l : List α) :
    (m.store a l).slice a l.length = l := by
  apply List.ext_getElem (length_slice ..)
  intro i _ h
  rw [getElem_slice, store_add m a l h]

theorem slice_store_eq (m : Mem α) (a : ℕ) {l : List α} {n : ℕ} (h : l.length = n) :
    (m.store a l).slice a n = l := by
  rw [← h, slice_store_self]

/-- Two stores next to each other are one. -/
theorem store_store (m : Mem α) {a b : ℕ} (l l' : List α) (h : b = a + l.length) :
    (m.store a l).store b l' = m.store a (l ++ l') := by
  subst h
  funext i
  by_cases h₁ : a + l.length ≤ i
  · obtain ⟨j, rfl⟩ := Nat.exists_eq_add_of_le h₁
    simp only [store, h₁, if_true, Nat.add_sub_cancel_left]
    rw [if_pos (by omega), if_pos (by omega), show a + l.length + j - a = l.length + j by omega,
      List.getElem?_append_right (by omega), Nat.add_sub_cancel_left,
      List.getElem?_eq_none (by omega : l.length ≤ l.length + j), Option.getD_none]
  · simp only [store, h₁, if_false]
    split
    · rw [List.getElem?_append_left (by omega)]
    · rfl

/-- A range away from the store is unchanged. -/
theorem slice_store_of_disjoint (m : Mem α) {a b n : ℕ} (l : List α)
    (h : b + n ≤ a ∨ a + l.length ≤ b) : (m.store a l).slice b n = m.slice b n := by
  apply List.ext_getElem (by simp)
  intro i hi _
  rw [length_slice] at hi
  rw [getElem_slice, getElem_slice]
  rcases h with h | h
  · exact store_of_lt m l (by omega)
  · exact store_of_ge m l (by omega)

/-- Reading on past the end of a store made at `a`, from a point before it. -/
theorem slice_store_append (m : Mem α) {a b : ℕ} (l : List α) (h : b ≤ a) :
    (m.store a l).slice b (a - b + l.length) = m.slice b (a - b) ++ l := by
  rw [slice_add, slice_store_of_disjoint m l (Or.inl (by omega)),
    show b + (a - b) = a by omega, slice_store_self]

/-- A range of the destination of a move is the same range of its source. -/
theorem slice_move (m : Mem α) (dst src : ℕ) {n i k : ℕ} (h : i + k ≤ n) :
    (m.move dst src n).slice (dst + i) k = m.slice (src + i) k := by
  apply List.ext_getElem (by simp)
  intro j hj _
  rw [length_slice] at hj
  rw [getElem_slice, getElem_slice, move, Nat.add_assoc,
    store_add _ _ _ (by rw [length_slice]; omega), getElem_slice, Nat.add_assoc]

theorem slice_update (m : Mem α) (a n : ℕ) (f : α → α) :
    (m.update a n f).slice a n = (m.slice a n).map f := by
  have h := slice_store_self m a ((m.slice a n).map f)
  rwa [List.length_map, length_slice] at h

theorem slice_update_of_disjoint (m : Mem α) {a n b k : ℕ} (f : α → α)
    (h : b + k ≤ a ∨ a + n ≤ b) : (m.update a n f).slice b k = m.slice b k :=
  slice_store_of_disjoint m _ (by simpa using h)

theorem copyDown_apply (m : Mem α) (t n i : ℕ) :
    copyDown m t n i = if i < n then m (t + i) else m i := by
  induction n generalizing i with
  | zero => rfl
  | succ n ih =>
    rw [copyDown]
    rcases Nat.lt_trichotomy i n with hi | rfl | hi
    · rw [store_of_lt _ _ hi, ih, if_pos hi, if_pos (by omega)]
    · have h := store_add (copyDown m t i) i [copyDown m t i (t + i)] (i := 0) (by simp)
      rw [Nat.add_zero] at h
      rw [h, if_pos (by omega), List.getElem_cons_zero, ih, if_neg (by omega)]
    · rw [store_of_ge _ _ (by rw [List.length_singleton]; omega), ih, if_neg (by omega),
        if_neg (by omega)]

/-- The loop reads each cell before it writes it: it moves the range. -/
theorem slice_copyDown (m : Mem α) (t n : ℕ) : (copyDown m t n).slice 0 n = m.slice t n := by
  apply List.ext_getElem (by simp)
  intro i hi _
  rw [length_slice] at hi
  rw [getElem_slice, getElem_slice, copyDown_apply, Nat.zero_add, if_pos hi]

/-- What lies behind the cells copied stays. -/
theorem slice_copyDown_of_le (m : Mem α) (t : ℕ) {n a : ℕ} (h : n ≤ a) (k : ℕ) :
    (copyDown m t n).slice a k = m.slice a k := by
  apply List.ext_getElem (by simp)
  intro i _ _
  rw [getElem_slice, getElem_slice, copyDown_apply, if_neg (by omega)]

/-- When the cells behind the `t` first are to move down by `t`, but the loop leaves out as many as
`z`, they are where they belong exactly when the last `z` cells repeat themselves every `t`. -/
theorem slice_copyDown_eq_drop_iff {m : Mem α} {x : List α} {t z : ℕ}
    (hm : m.slice 0 x.length = x) (htz : t ≤ z) (hz : z ≤ x.length) :
    (m.copyDown t (x.length - z)).slice 0 (x.length - t) = x.drop t ↔
      m.slice (x.length - z) (z - t) = m.slice (x.length - z + t) (z - t) := by
  have hlen : x.length - t = (x.length - z) + (z - t) := by omega
  have hdrop : x.drop t = m.slice t (x.length - z) ++ m.slice (x.length - z + t) (z - t) := by
    have htake := congrArg (List.drop t) hm
    rw [drop_slice _ _ (by omega), Nat.zero_add, hlen, slice_add, Nat.add_comm t] at htake
    exact htake.symm
  rw [hdrop, hlen, slice_add, slice_copyDown, Nat.zero_add,
    slice_copyDown_of_le _ _ (Nat.le_refl _), List.append_cancel_left_eq]

end Mem

end Foundations
