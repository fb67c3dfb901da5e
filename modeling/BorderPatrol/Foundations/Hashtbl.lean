import Mathlib.Data.List.Basic
import Mathlib.Tactic.Common

/-!
# Hash tables whose bindings shadow

In a hash table of OCaml a key may have several bindings. The last one added is found, and it hides
the others until it is removed. A table is kept here as the list of its bindings, the most recent
first, and what it means is the stack of the bindings of each key (`stack`). `fold` visits the
bindings in an order that is not specified except for the bindings of one key, which come most
recent first: a `Traversal` is any such order.
-/

namespace Foundations

/-- A hash table: its bindings, the most recent first. -/
@[ext] structure Hashtbl (κ α : Type*) where
  bindings : List (κ × α)

namespace Hashtbl

variable {κ α : Type*}

/-- `Hashtbl.create` -/
def create : Hashtbl κ α := ⟨[]⟩

/-- `Hashtbl.add` -/
def add (t : Hashtbl κ α) (k : κ) (a : α) : Hashtbl κ α := ⟨(k, a) :: t.bindings⟩

/-- All values bound, hidden ones too. -/
def vals (t : Hashtbl κ α) : List α := t.bindings.map Prod.snd

@[simp] theorem vals_add (t : Hashtbl κ α) (k : κ) (a : α) : (t.add k a).vals = a :: t.vals := rfl

variable [DecidableEq κ]

/-- The values bound to a key in a list of bindings. -/
def stackOf (l : List (κ × α)) (k : κ) : List α :=
  l.filterMap fun b => if b.1 = k then some b.2 else none

/-- The values bound to a key, the visible one first. -/
def stack (t : Hashtbl κ α) (k : κ) : List α := stackOf t.bindings k

/-- `Hashtbl.find`, or nothing when it raises `Not_found`. -/
def find? (t : Hashtbl κ α) (k : κ) : Option α := (t.bindings.find? fun b => b.1 = k).map Prod.snd

/-- `Hashtbl.remove` -/
def remove (t : Hashtbl κ α) (k : κ) : Hashtbl κ α := ⟨t.bindings.eraseP fun b => b.1 = k⟩

/-- The visible binding of `k` is changed in place. -/
def replaceIn (k : κ) (a : α) : List (κ × α) → List (κ × α)
  | [] => []
  | b :: l => if b.1 = k then (k, a) :: l else b :: replaceIn k a l

/-- `Hashtbl.replace` -/
def replace (t : Hashtbl κ α) (k : κ) (a : α) : Hashtbl κ α :=
  if (t.find? k).isSome then ⟨replaceIn k a t.bindings⟩ else t.add k a

/-- An order in which `fold` visits the bindings of a table. -/
structure Traversal (κ α : Type*) [DecidableEq κ] where
  visit : Hashtbl κ α → List (κ × α)
  stackOf_visit : ∀ t k, stackOf (visit t) k = t.stack k

/-- The order of the list. -/
def Traversal.listed : Traversal κ α := ⟨bindings, fun _ _ => rfl⟩

variable {t : Hashtbl κ α} {k k' : κ} {a : α}

/-! ## What is found -/

@[simp] theorem stackOf_nil : stackOf ([] : List (κ × α)) k = [] := rfl

@[simp] theorem stackOf_cons (b : κ × α) (l : List (κ × α)) :
    stackOf (b :: l) k = if b.1 = k then b.2 :: stackOf l k else stackOf l k := by
  unfold stackOf
  rw [List.filterMap_cons]
  by_cases h : b.1 = k <;> simp [h]

theorem find?_eq (t : Hashtbl κ α) (k : κ) : t.find? k = (t.stack k).head? := by
  obtain ⟨l⟩ := t
  unfold find? stack
  induction l with
  | nil => rfl
  | cons b l ih =>
    rw [stackOf_cons, List.find?_cons]
    by_cases h : b.1 = k
    · simp [h]
    · simp only [h, decide_false, if_false]
      exact ih

theorem stack_add : (t.add k a).stack k' = if k = k' then a :: t.stack k' else t.stack k' :=
  stackOf_cons ..

theorem stackOf_replaceIn (l : List (κ × α)) : stackOf (replaceIn k a l) k' =
    if k = k' ∧ stackOf l k ≠ [] then a :: (stackOf l k').tail else stackOf l k' := by
  induction l with
  | nil => simp [replaceIn]
  | cons b l ih =>
    rw [replaceIn]
    by_cases hb : b.1 = k
    · by_cases hk : k = k'
      · simp [hb, hk]
      · simp [hb, hk]
    · by_cases hk : k = k'
      · subst hk
        simpa [hb] using ih
      · simp only [hb, if_false, stackOf_cons, hk, false_and, ih]

/-- `remove` uncovers the binding hidden by the visible one. -/
theorem stack_remove :
    (t.remove k).stack k' = if k = k' then (t.stack k').tail else t.stack k' := by
  obtain ⟨l⟩ := t
  unfold remove stack
  induction l with
  | nil => simp
  | cons b l ih =>
    by_cases hb : b.1 = k
    · rw [List.eraseP_cons_of_pos (by simpa using hb), stackOf_cons, hb]
      split <;> rfl
    · rw [List.eraseP_cons_of_neg (by simpa using hb), stackOf_cons, ih, stackOf_cons]
      by_cases hk : k = k'
      · rw [if_pos hk, if_pos hk, if_neg (hk ▸ hb), if_neg (hk ▸ hb)]
      · rw [if_neg hk, if_neg hk]

/-- Bindings that are added are found in the opposite order, in front of those that were there. -/
theorem stack_foldl_add (key : κ × α → κ) (bs : List (κ × α)) (t : Hashtbl κ α) (k : κ) :
    (bs.foldl (fun t b => t.add (key b) b.2) t).stack k =
      (bs.filterMap fun b => if key b = k then some b.2 else none).reverse ++ t.stack k := by
  induction bs generalizing t with
  | nil => rfl
  | cons b bs ih =>
    rw [List.foldl_cons, ih, stack_add, List.filterMap_cons]
    by_cases hb : key b = k
    · rw [if_pos hb, if_pos hb, List.reverse_cons, List.append_assoc]
      rfl
    · rw [if_neg hb, if_neg hb]

theorem find?_add : (t.add k a).find? k' = if k = k' then some a else t.find? k' := by
  rw [find?_eq, find?_eq, stack_add]
  split <;> rfl

/-- A key has as many bindings as it occurs. -/
theorem count_keys [BEq κ] [LawfulBEq κ] (l : List (κ × α)) (k : κ) :
    (l.map Prod.fst).count k = (stackOf l k).length := by
  induction l with
  | nil => rfl
  | cons b l ih =>
    rw [List.map_cons, List.count_cons, stackOf_cons, ih]
    by_cases hb : b.1 = k <;> simp [hb]

/-- `replace` changes the visible binding of its key, or makes one. -/
theorem stack_replace : (t.replace k a).stack k' =
    if k = k' then a :: (t.stack k').tail else t.stack k' := by
  unfold replace
  rw [find?_eq]
  split
  · next h =>
    have hne : stackOf t.bindings k ≠ [] := by
      intro hnil
      simp [stack, hnil] at h
    rw [stack, stackOf_replaceIn]
    simp only [hne, ne_eq, not_false_eq_true, and_true]
    rfl
  · next h =>
    have hnil : t.stack k = [] := by simpa using h
    rw [stack_add]
    by_cases hk : k = k'
    · subst hk
      simp [hnil]
    · simp [hk]

theorem mem_stack_replace {b : α} (h : b ∈ (t.replace k a).stack k') :
    b = a ∧ k' = k ∨ b ∈ t.stack k' := by
  rw [stack_replace] at h
  split_ifs at h with hk
  · rcases List.mem_cons.1 h with h | h
    · exact .inl ⟨h, hk.symm⟩
    · exact .inr (List.mem_of_mem_tail h)
  · exact .inr h

theorem find?_replace : (t.replace k a).find? k' = if k = k' then some a else t.find? k' := by
  rw [find?_eq, find?_eq, stack_replace]
  split <;> rfl

@[simp] theorem find?_replace_self : (t.replace k a).find? k = some a := by
  rw [find?_replace, if_pos rfl]

theorem find?_replace_of_ne (h : k ≠ k') : (t.replace k a).find? k' = t.find? k' := by
  rw [find?_replace, if_neg h]

/-! ## All values -/

theorem mem_stackOf {l : List (κ × α)} : a ∈ stackOf l k ↔ (k, a) ∈ l := by
  induction l with
  | nil => simp
  | cons b l ih =>
    obtain ⟨k', a'⟩ := b
    by_cases hb : k' = k
    · simp [hb, ih]
    · simp [hb, ih, Ne.symm hb]

/-- The values are those bound to some key. -/
theorem mem_vals_iff : a ∈ t.vals ↔ ∃ k, a ∈ t.stack k := by
  constructor
  · intro h
    obtain ⟨⟨k, a⟩, hb, rfl⟩ := List.mem_map.1 h
    exact ⟨k, mem_stackOf.2 hb⟩
  · rintro ⟨k, hk⟩
    exact List.mem_map_of_mem (mem_stackOf.1 hk)

theorem mem_vals_of_find? (h : t.find? k = some a) : a ∈ t.vals := by
  unfold find? at h
  obtain ⟨b, hb, rfl⟩ := Option.map_eq_some_iff.1 h
  exact List.mem_map_of_mem (List.mem_of_find?_eq_some hb)

theorem vals_replaceIn {l : List (κ × α)} {b : κ × α} (h : b ∈ replaceIn k a l) :
    b = (k, a) ∨ b ∈ l := by
  induction l with
  | nil => cases h
  | cons c l ih =>
    rw [replaceIn] at h
    split at h
    · rcases List.mem_cons.1 h with rfl | h
      · exact Or.inl rfl
      · exact Or.inr (List.mem_cons_of_mem _ h)
    · rcases List.mem_cons.1 h with rfl | h
      · exact Or.inr List.mem_cons_self
      · rcases ih h with h | h
        · exact Or.inl h
        · exact Or.inr (List.mem_cons_of_mem _ h)

theorem mem_vals_replace {b : α} (h : b ∈ (t.replace k a).vals) : b = a ∨ b ∈ t.vals := by
  unfold replace at h
  split at h
  · obtain ⟨c, hc, rfl⟩ := List.mem_map.1 h
    rcases vals_replaceIn hc with rfl | hc
    · exact Or.inl rfl
    · exact Or.inr (List.mem_map_of_mem hc)
  · exact List.mem_cons.1 h

theorem mem_vals_foldl_replace {b : α} {ks : List κ}
    (h : b ∈ (ks.foldl (fun t k => t.replace k a) t).vals) : b = a ∨ b ∈ t.vals := by
  induction ks generalizing t with
  | nil => exact .inr h
  | cons k ks ih =>
    rcases ih h with h | h
    · exact .inl h
    · exact mem_vals_replace h

theorem mem_vals_remove {b : α} (h : b ∈ (t.remove k).vals) : b ∈ t.vals := by
  obtain ⟨c, hc, rfl⟩ := List.mem_map.1 h
  exact List.mem_map_of_mem (List.mem_of_mem_eraseP hc)

end Hashtbl

end Foundations
