import BorderPatrol.Agg.Designations
import BorderPatrol.Foundations.GroupBy
import BorderPatrol.Foundations.OrderBy

/-!
# The ranges of a thread's requests

`build-ranges.sql` makes of the table `dgn`, which has the request of a thread at the events of the
thread, the table `dgn_ranges`, which has for each stretch of time the request that the thread works
on. It joins `dgn` with itself and takes minima in two groupings. The result is what one would make
by going through the rows of the thread in the order of time: one range for each block of rows with
one request but the last, up to the next block (`dgnRanges_perm`).
-/

namespace BorderPatrol.Vis

open Foundations
open Agg (DgnRow)
open scoped List

/-! ## The query -/

/-- A row of `R3`. -/
structure R3Row where
  pid : ℤ
  tid : ℤ
  rid : ℤ
  eid : ℤ
  tsa : ℤ
  tsb : ℤ
  deriving DecidableEq, Repr

/-- A row of `R4`, and of table `dgn_ranges`. -/
structure DgnRange where
  pid : ℤ
  tid : ℤ
  rid : ℤ
  tsa : ℤ
  tsb : ℤ
  deriving DecidableEq, Repr

/-- `R3`, the rows of `dgn` with the later rows of the same thread that have another request. -/
def r3 (dgn : List DgnRow) : List R3Row :=
  dgn.flatMap fun r₁ =>
    (dgn.filter fun r₂ =>
      r₁.pid = r₂.pid ∧ r₁.tid = r₂.tid ∧ r₁.rid ≠ r₂.rid ∧ r₁.ts < r₂.ts).map fun r₂ =>
        ⟨r₁.pid, r₁.tid, r₁.rid, r₁.eid, r₁.ts, r₂.ts⟩

/-- `R4` -/
def r4 (dgn : List DgnRow) : List DgnRange :=
  (groupMin (fun r => (r.pid, r.tid, r.rid, r.tsa)) R3Row.tsb (r3 dgn)).map
    fun ((pid, tid, rid, tsa), tsb) => ⟨pid, tid, rid, tsa, tsb⟩

/-- Table `dgn_ranges`. -/
def dgnRanges (dgn : List DgnRow) : List DgnRange :=
  (groupMin (fun r => (r.pid, r.tid, r.rid, r.tsb)) DgnRange.tsa (r4 dgn)).map
    fun ((pid, tid, rid, tsb), tsa) => ⟨pid, tid, rid, tsa, tsb⟩

/-! ## The rows of a thread -/

/-- Rows of one thread with different requests have different times. -/
def Apart (dgn : List DgnRow) : Prop :=
  ∀ r ∈ dgn, ∀ r' ∈ dgn, r.pid = r'.pid → r.tid = r'.tid → r.rid ≠ r'.rid → r.ts ≠ r'.ts

/-- The rows of a thread, in an order of time. -/
def RowsOf (dgn : List DgnRow) (pid tid : ℤ) (l : List DgnRow) : Prop :=
  OrderedBy DgnRow.ts (dgn.filter fun r => r.pid = pid ∧ r.tid = tid) l

/-- The ranges of the blocks of rows with one request. -/
def blockRows (pid tid : ℤ) (l : List DgnRow) : List DgnRange :=
  (blockRanges DgnRow.rid DgnRow.ts (blocks DgnRow.rid l)).map
    fun (rid, tsa, tsb) => ⟨pid, tid, rid, tsa, tsb⟩

variable {dgn l : List DgnRow} {pid tid c a b : ℤ}

theorem RowsOf.mem_iff (h : RowsOf dgn pid tid l) {r : DgnRow} :
    r ∈ l ↔ r ∈ dgn ∧ r.pid = pid ∧ r.tid = tid := by
  rw [h.perm.mem_iff, List.mem_filter, decide_eq_true_iff]

/-- The blocks of the rows of a thread. -/
theorem RowsOf.blocks (h : RowsOf dgn pid tid l) (hapart : Apart dgn) :
    Blocks DgnRow.rid DgnRow.ts (blocks DgnRow.rid l) := by
  refine blocks_blocks h.sorted fun x hx y hy hne => ?_
  obtain ⟨hxd, hxp, hxt⟩ := h.mem_iff.1 hx
  obtain ⟨hyd, hyp, hyt⟩ := h.mem_iff.1 hy
  exact hapart x hxd y hyd (hxp.trans hyp.symm) (hxt.trans hyt.symm) hne

/-! ## The ranges -/

/-- A row of `R4` is the row of one group. -/
theorem mem_r4_iff : ⟨pid, tid, c, a, b⟩ ∈ r4 dgn ↔ ((pid, tid, c, a), b) ∈
    groupMin (fun r => (r.pid, r.tid, r.rid, r.tsa)) R3Row.tsb (r3 dgn) := by
  rw [r4, List.mem_map]
  constructor
  · rintro ⟨⟨⟨p, t, c', a'⟩, b'⟩, hmem, heq⟩
    cases heq
    exact hmem
  · exact fun hmem => ⟨_, hmem, rfl⟩

/-- The same of `dgn_ranges`. -/
theorem mem_dgnRanges_iff : ⟨pid, tid, c, a, b⟩ ∈ dgnRanges dgn ↔ ((pid, tid, c, b), a) ∈
    groupMin (fun r => (r.pid, r.tid, r.rid, r.tsb)) DgnRange.tsa (r4 dgn) := by
  rw [dgnRanges, List.mem_map]
  constructor
  · rintro ⟨⟨⟨p, t, c', b'⟩, a'⟩, hmem, heq⟩
    cases heq
    exact hmem
  · exact fun hmem => ⟨_, hmem, rfl⟩

/-- What `R3` has for a thread, a request and a time. -/
theorem r3_iff (h : RowsOf dgn pid tid l) (v : ℤ) :
    (∃ x ∈ r3 dgn, (x.pid, x.tid, x.rid, x.tsa) = (pid, tid, c, a) ∧ x.tsb = v) ↔
      (∃ x ∈ l, x.rid = c ∧ x.ts = a) ∧ ∃ y ∈ l, y.rid ≠ c ∧ a < y.ts ∧ y.ts = v := by
  constructor
  · rintro ⟨x, hx, hkey, rfl⟩
    obtain ⟨r₁, hr₁, hx⟩ := List.mem_flatMap.1 hx
    obtain ⟨r₂, hr₂, rfl⟩ := List.mem_map.1 hx
    rw [List.mem_filter, decide_eq_true_iff] at hr₂
    obtain ⟨hr₂, hpid, htid, hrid, hts⟩ := hr₂
    cases hkey
    exact ⟨⟨r₁, h.mem_iff.2 ⟨hr₁, rfl, rfl⟩, rfl, rfl⟩,
      r₂, h.mem_iff.2 ⟨hr₂, hpid.symm, htid.symm⟩, hrid.symm, hts, rfl⟩
  · rintro ⟨⟨x, hx, rfl, rfl⟩, y, hy, hrid, hts, rfl⟩
    obtain ⟨hxd, rfl, rfl⟩ := h.mem_iff.1 hx
    obtain ⟨hyd, hyp, hyt⟩ := h.mem_iff.1 hy
    refine ⟨⟨x.pid, x.tid, x.rid, x.eid, x.ts, y.ts⟩, ?_, rfl, rfl⟩
    refine List.mem_flatMap.2 ⟨x, hxd, List.mem_map.2 ⟨y, ?_, rfl⟩⟩
    rw [List.mem_filter, decide_eq_true_iff]
    exact ⟨hyd, hyp.symm, hyt.symm, hrid.symm, hts⟩

/-- `R4` has, for a row of a thread, the time when the request changes next. -/
theorem r4_iff (h : RowsOf dgn pid tid l) :
    ⟨pid, tid, c, a, b⟩ ∈ r4 dgn ↔ Changes DgnRow.rid DgnRow.ts l c a b := by
  rw [mem_r4_iff, mem_groupMin_iff, Changes]
  simp only [r3_iff h]
  constructor
  · rintro ⟨⟨hrow, hmem⟩, hleast⟩
    exact ⟨hrow, hmem, fun v hv => hleast ⟨hrow, hv⟩⟩
  · rintro ⟨hrow, hmem, hleast⟩
    exact ⟨⟨hrow, hmem⟩, fun v hv => hleast hv.2⟩

/-- `dgn_ranges` has the changes with the least beginnings. -/
theorem dgnRanges_iff (h : RowsOf dgn pid tid l) : ⟨pid, tid, c, a, b⟩ ∈ dgnRanges dgn ↔
    IsLeast {a' | Changes DgnRow.rid DgnRow.ts l c a' b} a := by
  have hset : {v | ∃ x ∈ r4 dgn, (x.pid, x.tid, x.rid, x.tsb) = (pid, tid, c, b) ∧ x.tsa = v} =
      {a' | Changes DgnRow.rid DgnRow.ts l c a' b} := by
    ext v
    constructor
    · rintro ⟨x, hx, hkey, rfl⟩
      cases hkey
      exact (r4_iff h).1 hx
    · exact fun hv => ⟨_, (r4_iff h).2 hv, rfl, rfl⟩
  rw [mem_dgnRanges_iff, mem_groupMin_iff, hset]

theorem nodup_dgnRanges (dgn : List DgnRow) : (dgnRanges dgn).Nodup := by
  refine nodup_groupMin.map ?_
  rintro ⟨⟨p, t, c, b⟩, a⟩ ⟨⟨p', t', c', b'⟩, a'⟩ heq
  cases heq
  rfl

/-- **The ranges.** When rows of one thread with different requests have different times, the ranges
of a thread are those of the blocks of its rows in the order of time, one for each but the last, and
each is there once. -/
theorem dgnRanges_perm (hapart : Apart dgn) (h : RowsOf dgn pid tid l) :
    (dgnRanges dgn).filter (fun r => r.pid = pid ∧ r.tid = tid) ~ blockRows pid tid l ∧
      (blockRows pid tid l).length = (blocks DgnRow.rid l).length - 1 := by
  have hblocks := h.blocks hapart
  have hflat : (Foundations.blocks DgnRow.rid l).flatten = l := List.flatten_splitBy _ l
  have hmem : ∀ c a b, ⟨pid, tid, c, a, b⟩ ∈ dgnRanges dgn ↔
      (c, a, b) ∈ blockRanges DgnRow.rid DgnRow.ts (Foundations.blocks DgnRow.rid l) := by
    intro c a b
    rw [dgnRanges_iff h, mem_blockRanges_iff hblocks, hflat]
  refine ⟨?_, by rw [blockRows, List.length_map, length_blockRanges hblocks.nonempty]⟩
  refine (List.perm_ext_iff_of_nodup ((nodup_dgnRanges dgn).filter _) ?_).2 ?_
  · refine (nodup_blockRanges hblocks).map ?_
    rintro ⟨c, a, b⟩ ⟨c', a', b'⟩ heq
    cases heq
    rfl
  · rintro ⟨p, t, c, a, b⟩
    rw [List.mem_filter, decide_eq_true_iff, blockRows, List.mem_map]
    constructor
    · rintro ⟨hr, rfl, rfl⟩
      exact ⟨(c, a, b), (hmem c a b).1 hr, rfl⟩
    · rintro ⟨⟨c', a', b'⟩, hr, heq⟩
      cases heq
      exact ⟨(hmem c a b).2 hr, rfl, rfl⟩

/-- A thread works on request 7, on 8 and on 7 again, while another works on 9. -/
def backToSeven : List DgnRow :=
  [⟨10, 1, 7, 0, 1⟩, ⟨10, 1, 7, 1, 2⟩, ⟨10, 2, 9, 2, 2⟩, ⟨10, 1, 8, 3, 3⟩, ⟨10, 1, 7, 4, 4⟩]

/-- The rows of the first. -/
def sevenEightSeven : List DgnRow :=
  [⟨10, 1, 7, 0, 1⟩, ⟨10, 1, 7, 1, 2⟩, ⟨10, 1, 8, 3, 3⟩, ⟨10, 1, 7, 4, 4⟩]

theorem rowsOf_backToSeven : RowsOf backToSeven 10 1 sevenEightSeven := ⟨by decide, by decide⟩

theorem apart_backToSeven : Apart backToSeven := by
  unfold Apart
  decide

theorem dgnRanges_perm_backToSeven :
    (dgnRanges backToSeven).filter (fun r => r.pid = 10 ∧ r.tid = 1) ~
        [⟨10, 1, 7, 1, 3⟩, ⟨10, 1, 8, 3, 4⟩] ∧
      (blockRows 10 1 sevenEightSeven).length = (blocks DgnRow.rid sevenEightSeven).length - 1 :=
  dgnRanges_perm apart_backToSeven rowsOf_backToSeven

end BorderPatrol.Vis
