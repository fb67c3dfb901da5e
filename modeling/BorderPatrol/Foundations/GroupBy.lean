import Mathlib.Data.List.Dedup
import Mathlib.Data.List.SplitBy
import Mathlib.Order.Bounds.Basic
import Mathlib.Order.MinMax

/-!
# Groups of rows and blocks of equal rows

`groupMin` is a query `SELECT key, MIN(val) FROM l GROUP BY key`: one row for each key, with the
least value of its rows (`mem_groupMin_iff`).

Rows in the order of a key that carry a label fall into blocks of equal labels, and each block but
the last has a range: from the first key of the block to the first key of the next. When rows with
different labels have different keys, the ranges are found without the blocks: a range ends at the
least key behind a row that has another label, and begins at the least key of a row with its label
for which it ends there (`mem_blockRanges_iff`).
-/

namespace Foundations

variable {α ι κ ν : Type*}

/-! ## Minima of groups -/

section

variable [DecidableEq κ] [LinearOrder ν] {key : α → κ} {val : α → ν} {l : List α} {k : κ} {m : ν}

/-- `SELECT key, MIN(val) FROM l GROUP BY key`, in some order. -/
def groupMin (key : α → κ) (val : α → ν) (l : List α) : List (κ × ν) :=
  (l.map key).dedup.filterMap fun k =>
    ((l.filter fun x => key x = k).map val).min?.map fun m => (k, m)

/-- The row of a key has the least value of its group. -/
theorem mem_groupMin_iff :
    (k, m) ∈ groupMin key val l ↔ IsLeast {v | ∃ x ∈ l, key x = k ∧ val x = v} m := by
  have hmem : ∀ v, v ∈ (l.filter fun x => key x = k).map val ↔ ∃ x ∈ l, key x = k ∧ val x = v := by
    intro v
    simp only [List.mem_map, List.mem_filter, decide_eq_true_iff, and_assoc]
  have hmin : ((l.filter fun x => key x = k).map val).min? = some m ↔
      IsLeast {v | ∃ x ∈ l, key x = k ∧ val x = v} m := by
    have : Std.LawfulOrderMin ν :=
      { min_eq_or := min_choice, le_min_iff := fun _ _ _ => le_min_iff }
    rw [List.min?_eq_some_iff, hmem]
    exact and_congr_right fun _ => forall_congr' fun v => by rw [hmem]; rfl
  rw [groupMin, List.mem_filterMap, ← hmin]
  constructor
  · rintro ⟨k', -, hk'⟩
    obtain ⟨m', hm', heq⟩ := Option.map_eq_some_iff.1 hk'
    cases heq
    exact hm'
  · intro h
    obtain ⟨x, hx, hkey, -⟩ := (hmin.1 h).1
    refine ⟨k, List.mem_dedup.2 (List.mem_map.2 ⟨x, hx, hkey⟩), ?_⟩
    rw [h]
    rfl

/-- There is one row for each key. -/
theorem nodup_groupMin : (groupMin key val l).Nodup := by
  refine (List.nodup_dedup (l.map key)).filterMap fun k k' p hp hp' => ?_
  obtain ⟨m, -, rfl⟩ := Option.map_eq_some_iff.1 hp
  obtain ⟨m', -, heq⟩ := Option.map_eq_some_iff.1 hp'
  exact (congrArg Prod.fst heq).symm

end

/-! ## Blocks -/

/-- The blocks of a list: the longest pieces of rows with equal labels. -/
def blocks [DecidableEq ι] (label : α → ι) (l : List α) : List (List α) :=
  l.splitBy fun x y => label x = label y

/-- For each block but the last: its label, the key of its first row and that of the first row of
the next block. -/
def blockRanges (label : α → ι) (key : α → κ) : List (List α) → List (ι × κ × κ)
  | (x :: _) :: (y :: B) :: bs =>
    (label x, key x, key y) :: blockRanges label key ((y :: B) :: bs)
  | _ => []

/-- Non-empty blocks in the order of the key, with one label each and others than the neighbours.
Rows with different labels have different keys. -/
structure Blocks [LinearOrder κ] (label : α → ι) (key : α → κ) (bs : List (List α)) : Prop where
  nonempty : ∀ B ∈ bs, B ≠ []
  label_eq : ∀ B ∈ bs, ∀ x ∈ B, ∀ y ∈ B, label x = label y
  adjacent : bs.IsChain fun B B' => ∀ x ∈ B, ∀ y ∈ B', label x ≠ label y
  sorted : bs.flatten.Pairwise fun x y => key x ≤ key y
  apart : ∀ x ∈ bs.flatten, ∀ y ∈ bs.flatten, label x ≠ label y → key x ≠ key y

variable [LinearOrder κ] {label : α → ι} {key : α → κ} {bs P Q : List (List α)} {B B' : List α}
  {x y z : α} {c : ι} {a b : κ}

/-- The blocks of a list are blocks. -/
theorem blocks_blocks [DecidableEq ι] {l : List α}
    (hsorted : l.Pairwise fun x y => key x ≤ key y)
    (hapart : ∀ x ∈ l, ∀ y ∈ l, label x ≠ label y → key x ≠ key y) :
    Blocks label key (blocks label l) := by
  have hflat : (blocks label l).flatten = l := List.flatten_splitBy _ l
  have hlabel : ∀ B ∈ blocks label l, ∀ x ∈ B, ∀ y ∈ B, label x = label y := by
    intro B hB
    have hchain := List.isChain_of_mem_splitBy hB
    simp only [decide_eq_true_iff] at hchain
    have hpair : B.Pairwise fun x y => label x = label y :=
      haveI : IsTrans α fun x y => label x = label y := ⟨fun _ _ _ => Eq.trans⟩
      List.isChain_iff_pairwise.1 hchain
    have : Std.Symm fun x y => label x = label y := ⟨fun _ _ => Eq.symm⟩
    exact hpair.forall_of_forall (R := fun x y => label x = label y) fun _ _ => rfl
  refine ⟨fun B hB => List.ne_nil_of_mem_splitBy hB, hlabel, ?_, by rwa [hflat],
    by rwa [hflat]⟩
  have hchain := List.isChain_getLast_head_splitBy (fun x y => decide (label x = label y)) l
  refine hchain.imp_of_mem_imp fun B B' hB hB' h x hx y hy heq => ?_
  obtain ⟨hne, hne', hdiff⟩ := h
  have hlast := hlabel B hB x hx (B.getLast hne) (List.getLast_mem hne)
  have hhead := hlabel B' hB' y hy (B'.head hne') (List.head_mem hne')
  exact of_decide_eq_false hdiff (hlast.symm.trans (heq.trans hhead))

omit [LinearOrder κ] in
/-- The ranges are those of two blocks next to each other. -/
theorem mem_blockRanges (h : ∀ B ∈ bs, B ≠ []) {r : ι × κ × κ} :
    r ∈ blockRanges label key bs ↔ ∃ P Q x y B B', bs = P ++ (x :: B) :: (y :: B') :: Q ∧
      r = (label x, key x, key y) := by
  induction bs with
  | nil => simp [blockRanges]
  | cons C bs ih =>
    obtain ⟨hC, hbs⟩ := List.forall_mem_cons.1 h
    obtain ⟨x, B, rfl⟩ := List.exists_cons_of_ne_nil hC
    rcases bs with _ | ⟨C', bs⟩
    · simp [blockRanges, List.cons_eq_append_iff]
    · obtain ⟨y, B', rfl⟩ := List.exists_cons_of_ne_nil (hbs C' List.mem_cons_self)
      rw [blockRanges, List.mem_cons, ih hbs]
      constructor
      · rintro (rfl | ⟨P, Q, x', y', D, D', heq, rfl⟩)
        · exact ⟨[], bs, x, y, B, B', rfl, rfl⟩
        · exact ⟨(x :: B) :: P, Q, x', y', D, D', by rw [heq]; rfl, rfl⟩
      · rintro ⟨P, Q, x', y', D, D', heq, rfl⟩
        rcases P with _ | ⟨E, P⟩
        · obtain ⟨hx, hrest⟩ := List.cons.inj heq
          obtain ⟨hy, -⟩ := List.cons.inj hrest
          cases hx
          cases hy
          exact .inl rfl
        · obtain ⟨-, hrest⟩ := List.cons.inj heq
          exact .inr ⟨P, Q, x', y', D, D', hrest, rfl⟩

omit [LinearOrder κ] in
/-- There is a range for each block but the last. -/
theorem length_blockRanges (h : ∀ B ∈ bs, B ≠ []) :
    (blockRanges label key bs).length = bs.length - 1 := by
  induction bs with
  | nil => rfl
  | cons C bs ih =>
    obtain ⟨hC, hbs⟩ := List.forall_mem_cons.1 h
    obtain ⟨x, B, rfl⟩ := List.exists_cons_of_ne_nil hC
    rcases bs with _ | ⟨C', bs⟩
    · rfl
    · obtain ⟨y, B', rfl⟩ := List.exists_cons_of_ne_nil (hbs C' List.mem_cons_self)
      rw [blockRanges, List.length_cons, ih hbs]
      rfl

/-! ## Ranges without the blocks -/

/-- There is a row with label `c` and key `a`, and `b` is the least key behind it of a row with
another label. -/
def Changes (label : α → ι) (key : α → κ) (l : List α) (c : ι) (a b : κ) : Prop :=
  (∃ x ∈ l, label x = c ∧ key x = a) ∧
    IsLeast {k | ∃ y ∈ l, label y ≠ c ∧ a < key y ∧ key y = k} b

namespace Blocks

theorem before (h : Blocks label key (P ++ B :: Q)) (hz : z ∈ P.flatten) (hx : x ∈ B) :
    key z ≤ key x := by
  have hsorted := h.sorted
  rw [List.flatten_append, List.flatten_cons, List.pairwise_append] at hsorted
  exact hsorted.2.2 z hz x (List.mem_append_left _ hx)

theorem behind (h : Blocks label key (P ++ B :: Q)) (hx : x ∈ B) (hz : z ∈ Q.flatten) :
    key x ≤ key z := by
  have hsorted := h.sorted
  rw [List.flatten_append, List.flatten_cons, List.pairwise_append, List.pairwise_append] at hsorted
  exact hsorted.2.1.2.2 x hx z hz

theorem mem_iff : z ∈ (P ++ B :: Q).flatten ↔ z ∈ P.flatten ∨ z ∈ B ∨ z ∈ Q.flatten := by
  rw [List.flatten_append, List.flatten_cons, List.mem_append, List.mem_append]

/-- The first key of a block is its least. -/
theorem head_le (h : Blocks label key (P ++ (x :: B) :: Q)) (hz : z ∈ x :: B) :
    key x ≤ key z := by
  rcases List.mem_cons.1 hz with rfl | hz
  · exact le_rfl
  · have hsorted := h.sorted
    rw [List.flatten_append, List.flatten_cons, List.pairwise_append, List.pairwise_append,
      List.pairwise_cons] at hsorted
    exact hsorted.2.1.1.1 z hz

theorem first_le (h : Blocks label key (P ++ (x :: B) :: Q)) (hz : z ∈ ((x :: B) :: Q).flatten) :
    key x ≤ key z := by
  rw [List.flatten_cons, List.mem_append] at hz
  rcases hz with hz | hz
  · exact h.head_le hz
  · exact h.behind List.mem_cons_self hz

theorem tail (h : Blocks label key (B :: bs)) : Blocks label key bs where
  nonempty := fun C hC => h.nonempty C (List.mem_cons_of_mem B hC)
  label_eq := fun C hC => h.label_eq C (List.mem_cons_of_mem B hC)
  adjacent := h.adjacent.tail
  sorted := (List.pairwise_append.1 h.sorted).2.1
  apart := fun x hx y hy =>
    h.apart x (List.mem_append_right B hx) y (List.mem_append_right B hy)

theorem label_of_mem (h : Blocks label key (P ++ B :: Q)) (hx : x ∈ B) (hz : z ∈ B) :
    label z = label x :=
  h.label_eq B (List.mem_append_right _ List.mem_cons_self) z hz x hx

theorem lt_of_le (h : Blocks label key bs) (hx : x ∈ bs.flatten) (hy : y ∈ bs.flatten)
    (hlabel : label x ≠ label y) (hle : key x ≤ key y) : key x < key y :=
  lt_of_le_of_ne hle (h.apart x hx y hy hlabel)

/-- Between a row and a later block with its label there is a row with another label. -/
theorem between (h : Blocks label key (P ++ B :: Q)) (hz : z ∈ P.flatten) (hx : x ∈ B)
    (hlabel : label z = label x) : ∃ w ∈ P.flatten, label w ≠ label x ∧ key z < key w := by
  rcases P.eq_nil_or_concat' with rfl | ⟨P, C, rfl⟩
  · cases hz
  have hC : C ≠ [] := h.nonempty C (by simp)
  obtain ⟨w, hw⟩ := List.exists_mem_of_ne_nil C hC
  have hadj := h.adjacent
  rw [List.append_assoc, List.singleton_append, List.isChain_append_cons_cons] at hadj
  have hother : ∀ w ∈ C, label w ≠ label x := fun w hw => hadj.2.1 w hw x hx
  have h' : Blocks label key (P ++ C :: (B :: Q)) := by
    rwa [List.append_assoc, List.singleton_append] at h
  rw [List.flatten_append, List.mem_append] at hz
  rcases hz with hz | hz
  · refine ⟨w, by simp [hw], hother w hw, ?_⟩
    refine h'.lt_of_le (mem_iff.2 (.inl hz)) (mem_iff.2 (.inr (.inl hw))) ?_ (h'.before hz hw)
    exact fun heq => hother w hw (heq.symm.trans hlabel)
  · exact absurd hlabel (hother z (by simpa using hz))

/-- The next block has another label and later keys. -/
theorem next (h : Blocks label key (P ++ B :: (y :: B') :: Q)) (hx : x ∈ B) :
    label y ≠ label x ∧ key x < key y := by
  have hadj := (List.isChain_append_cons_cons.1 h.adjacent).2.1
  have hlabel : label x ≠ label y := hadj x hx y List.mem_cons_self
  have hy : y ∈ ((y :: B') :: Q).flatten := by simp
  refine ⟨hlabel.symm, ?_⟩
  exact h.lt_of_le (mem_iff.2 (.inr (.inl hx))) (mem_iff.2 (.inr (.inr hy))) hlabel (h.behind hx hy)

/-- A range ends where the label changes behind the first key of its block. -/
theorem changes (h : Blocks label key (P ++ (x :: B) :: (y :: B') :: Q)) :
    Changes label key (P ++ (x :: B) :: (y :: B') :: Q).flatten (label x) (key x) (key y) := by
  have hx : x ∈ (P ++ (x :: B) :: (y :: B') :: Q).flatten :=
    mem_iff.2 (.inr (.inl List.mem_cons_self))
  have hy : y ∈ (P ++ (x :: B) :: (y :: B') :: Q).flatten := by simp
  obtain ⟨hlabel, hlt⟩ := h.next List.mem_cons_self
  refine ⟨⟨x, hx, rfl, rfl⟩, ⟨y, hy, hlabel, hlt, rfl⟩, ?_⟩
  · rintro k ⟨z, hz, hzlabel, hlt, rfl⟩
    rcases mem_iff.1 hz with hz | hz | hz
    · exact absurd (h.before hz List.mem_cons_self) (not_le.2 hlt)
    · exact absurd (h.label_of_mem List.mem_cons_self hz) hzlabel
    · have h' : Blocks label key ((P ++ [x :: B]) ++ (y :: B') :: Q) := by simpa using h
      exact h'.first_le hz

/-- **A range** begins at the least key from which the label changes where the range ends. -/
theorem isLeast (h : Blocks label key (P ++ (x :: B) :: (y :: B') :: Q)) :
    IsLeast {a | Changes label key (P ++ (x :: B) :: (y :: B') :: Q).flatten (label x) a (key y)}
      (key x) := by
  refine ⟨h.changes, ?_⟩
  rintro a ⟨⟨z, hz, hlabel, rfl⟩, hleast⟩
  rcases mem_iff.1 hz with hz | hz | hz
  · -- a row with another label comes between
    obtain ⟨w, hw, hother, hlt⟩ := h.between hz List.mem_cons_self hlabel
    have hle := hleast.2 ⟨w, mem_iff.2 (.inl hw), hother, hlt, rfl⟩
    have hbefore := h.before hw List.mem_cons_self
    exact absurd (hle.trans hbefore) (not_le.2 (h.next List.mem_cons_self).2)
  · exact h.head_le hz
  · exact h.behind List.mem_cons_self hz

end Blocks

/-- **The ranges of the blocks** are the changes of label with the least beginnings. -/
theorem mem_blockRanges_iff (h : Blocks label key bs) :
    (c, a, b) ∈ blockRanges label key bs ↔
      IsLeast {a' | Changes label key bs.flatten c a' b} a := by
  rw [mem_blockRanges h.nonempty]
  constructor
  · rintro ⟨P, Q, x, y, B, B', rfl, heq⟩
    cases heq
    exact h.isLeast
  · intro hleast
    obtain ⟨⟨z, hz, rfl, rfl⟩, ⟨w, hw, hother, hlt, rfl⟩, hleast'⟩ := hleast.1
    obtain ⟨C, hC, hzC⟩ := List.mem_flatten.1 hz
    obtain ⟨P, Q, rfl⟩ := List.append_of_mem hC
    obtain ⟨x, B, rfl⟩ := List.exists_cons_of_ne_nil (h.nonempty C hC)
    -- the row where the label changes is in a later block
    have hwQ : w ∈ Q.flatten := by
      rcases Blocks.mem_iff.1 hw with hw | hw | hw
      · exact absurd (h.before hw hzC) (not_le.2 hlt)
      · exact absurd (h.label_of_mem hzC hw) hother
      · exact hw
    rcases Q with _ | ⟨D, Q⟩
    · cases hwQ
    obtain ⟨y, B', rfl⟩ := List.exists_cons_of_ne_nil (h.nonempty D (by simp))
    have hlabel : label x = label z := h.label_of_mem hzC List.mem_cons_self
    have hchanges := h.changes
    have hend : key w = key y := by
      obtain ⟨hother', hlt'⟩ := h.next hzC
      refine le_antisymm (hleast' ⟨y, by simp, hother', hlt', rfl⟩)
        (hchanges.2.2 ⟨w, hw, ?_, ?_, rfl⟩)
      · rwa [hlabel]
      · exact (h.head_le hzC).trans_lt hlt
    refine ⟨P, Q, x, y, B, B', rfl, ?_⟩
    have hbegin : key z = key x := by
      refine hleast.unique ?_
      rw [hend, ← hlabel]
      exact h.isLeast
    rw [hlabel, hend, hbegin]

/-- No range is there twice. -/
theorem nodup_blockRanges (h : Blocks label key bs) : (blockRanges label key bs).Nodup := by
  induction bs with
  | nil => exact List.nodup_nil
  | cons C bs ih =>
    obtain ⟨x, B, rfl⟩ := List.exists_cons_of_ne_nil (h.nonempty C List.mem_cons_self)
    rcases bs with _ | ⟨C', bs⟩
    · exact List.nodup_nil
    obtain ⟨y, B', rfl⟩ := List.exists_cons_of_ne_nil (h.nonempty C' (by simp))
    rw [blockRanges, List.nodup_cons]
    refine ⟨fun hr => ?_, ih h.tail⟩
    obtain ⟨P, Q, x', y', D, D', heq, hrow⟩ := (mem_blockRanges h.tail.nonempty).1 hr
    have hx' : x' ∈ ((y :: B') :: bs).flatten := by
      rw [heq]
      simp
    have hlt : key x < key y := (Blocks.next (P := []) h List.mem_cons_self).2
    have hle : key y ≤ key x' := Blocks.first_le (P := []) h.tail hx'
    exact absurd (congrArg (fun r => r.2.1) hrow) (hlt.trans_le hle).ne

end Foundations
