import BorderPatrol.Agg.Db
import BorderPatrol.Agg.Join

/-!
# The order of the events

The four steps of `agg.ml`: the log is exported, the export is copied into `ev_tmp`, from there into
`ev` in the order of the time, and the rows of `ev` are joined in the order of their numbers. An
`Aggregation` is what may come of a log, where PostgreSQL is free to choose the order of rows with
equal times.

The time of a row is the second of its entry; the microsecond is lost in `binlog_mkts`. Two entries
are joined in the order of their stamps exactly when the seconds differ, or when PostgreSQL keeps
the order of the file and that is the order of the stamps (`joined_in_order_iff`).
-/

namespace BorderPatrol.Agg

open Foundations Logd
open scoped List

/-- A row of `ev`, and the number of the entry it is from. -/
structure Stored where
  entry : ℕ
  eid : ℕ
  row : EvRow
  deriving DecidableEq, Repr

/-- The rows of `ev_tmp`, each with the number of its entry. An exception of the parser ends `agg`,
and what `COPY` refuses leaves the table empty. -/
def evTmp (S : Syscalls) (accepts : List Byte → Bool) (log : List LogentryThaw) :
    List (ℕ × EvRow) :=
  match parse S 0 log with
  | .error _ => []
  | .ok (_, file) => ((exported S 0 log).map Prod.fst).zip ((copyEvTmp accepts file).getD [])

/-- The rows of `ev` when `SELECT` gives those of `ev_tmp` in this order: `ev_seq` numbers them. -/
def insertEv (rows : List (ℕ × EvRow)) : List Stored :=
  (rows.zipIdx 1).map fun e => ⟨e.1.1, e.2, e.1.2⟩

/-- `run`: the rows that `stream_join` is called for, one after the other, until it or the parser
raises an exception. -/
def run (S : Syscalls) (o : Orders) (port : ℤ) : Joiner → List Stored → List Stored
  | _, [] => []
  | j, x :: res =>
    match streamOfDbrow S x.eid x.row with
    | .error _ => []
    | .ok stream =>
      x :: match joinStep o port j stream with
        | .error _ => []
        | .ok j => run S o port j res

/-- What may come of a log: an order of `ev_tmp` by the time, and one of `ev` by the number. -/
structure Aggregation (S : Syscalls) (accepts : List Byte → Bool) (log : List LogentryThaw) where
  sorted : List (ℕ × EvRow)
  res : List Stored
  ordered : OrderedBy (fun e => e.2.ts) (evTmp S accepts log) sorted
  selected : OrderedBy Stored.eid (insertEv sorted) res

variable {S : Syscalls} {accepts : List Byte → Bool} {o : Orders} {port : ℤ}
  {log : List LogentryThaw} {a b : LogentryThaw} {i j : ℕ}

namespace Aggregation

/-- PostgreSQL has kept the order of rows with equal times. -/
def Stable (g : Aggregation S accepts log) : Prop :=
  KeepsTies (fun e => e.2.ts) (evTmp S accepts log) g.sorted

/-- The entries `i` and `j` have rows, that of `i` has the smaller number, and `stream_join` is not
called for `j` before it is called for `i`. -/
structure InOrder (g : Aggregation S accepts log) (o : Orders) (port : ℤ) (i j : ℕ) : Prop where
  eid : ∃ x ∈ insertEv g.sorted, ∃ y ∈ insertEv g.sorted, x.entry = i ∧ y.entry = j ∧ x.eid < y.eid
  joined : ∀ pre y, pre ++ [y] <+: run S o port .start g.res → y.entry = j →
    ∃ x ∈ pre, x.entry = i

end Aggregation

/-- The stamp of `a` is smaller than that of `b`. -/
def Earlier (a b : LogentryThaw) : Prop :=
  a.fz.cycleHigh < b.fz.cycleHigh ∨
    a.fz.cycleHigh = b.fz.cycleHigh ∧ a.fz.cycleLow < b.fz.cycleLow

/-- The log can be loaded: no exception is raised for an entry, and the export is copied. -/
def Loads (S : Syscalls) (accepts : List Byte → Bool) (log : List LogentryThaw) : Prop :=
  ∃ leid file rows, parse S 0 log = .ok (leid, file) ∧ copyEvTmp accepts file = some rows

/-! ## The rows of `ev_tmp` -/

section Zip

variable {κ ε ρ : Type*} {R : ε → ρ → Prop} {es : List (κ × ε)} {rows : List ρ}

theorem map_fst_zip (h : List.Forall₂ R (es.map Prod.snd) rows) :
    ((es.map Prod.fst).zip rows).map Prod.fst = es.map Prod.fst := by
  have hlen := h.length_eq
  rw [List.length_map] at hlen
  exact List.map_fst_zip (by rw [List.length_map, hlen])

theorem exists_of_mem_zip (h : List.Forall₂ R (es.map Prod.snd) rows) {k : κ} {row : ρ}
    (hmem : (k, row) ∈ (es.map Prod.fst).zip rows) : ∃ e, (k, e) ∈ es ∧ R e row := by
  induction es generalizing rows with
  | nil => cases hmem
  | cons e es ih =>
    cases h with
    | cons he hes =>
      rcases List.mem_cons.1 hmem with heq | hmem
      · cases heq
        exact ⟨e.2, List.mem_cons_self, he⟩
      · obtain ⟨e', hmem', he'⟩ := ih hes hmem
        exact ⟨e', List.mem_cons_of_mem _ hmem', he'⟩

theorem mem_zip_of_mem (h : List.Forall₂ R (es.map Prod.snd) rows) {k : κ} {e : ε}
    (hmem : (k, e) ∈ es) : ∃ row, (k, row) ∈ (es.map Prod.fst).zip rows ∧ R e row := by
  induction es generalizing rows with
  | nil => cases hmem
  | cons e' es ih =>
    cases h with
    | cons he hes =>
      rcases List.mem_cons.1 hmem with rfl | hmem
      · exact ⟨_, List.mem_cons_self, he⟩
      · obtain ⟨row, hrow, hR⟩ := ih hes hmem
        exact ⟨row, List.mem_cons_of_mem _ hrow, hR⟩

end Zip

/-- The rows are those of the events exported, or there is none. -/
theorem evTmp_cases (S : Syscalls) (accepts : List Byte → Bool) (log : List LogentryThaw) :
    evTmp S accepts log = [] ∧ ¬ Loads S accepts log ∨ ∃ rows, Loads S accepts log ∧
      evTmp S accepts log = ((exported S 0 log).map Prod.fst).zip rows ∧
        List.Forall₂ (fun ev row => row.Of ev) ((exported S 0 log).map Prod.snd) rows := by
  rcases hparse : parse S 0 log with err | ⟨leid, file⟩
  · refine .inl ⟨by rw [evTmp, hparse], ?_⟩
    rintro ⟨_, _, _, h, -⟩
    rw [hparse] at h
    cases h
  · rcases hcopy : copyEvTmp accepts file with _ | rows
    · refine .inl ⟨by rw [evTmp, hparse]; simp [hcopy], ?_⟩
      rintro ⟨_, _, _, h, h'⟩
      rw [hparse] at h
      cases h
      rw [hcopy] at h'
      cases h'
    · refine .inr ⟨rows, ⟨leid, file, rows, hparse, hcopy⟩, by rw [evTmp, hparse]; simp [hcopy], ?_⟩
      rw [(parse_ok hparse).1] at hcopy
      refine copyEvTmp_rows (fun ev hev => ?_) hcopy
      obtain ⟨⟨i, ev⟩, hmem, rfl⟩ := List.mem_map.1 hev
      obtain ⟨le, -, hle, -⟩ := mem_exported.1 hmem
      exact eventOfLogentry_named hle

/-- A row of `ev_tmp` is one of an entry that is exported, and has its second. -/
theorem mem_evTmp {row : EvRow} (h : (i, row) ∈ evTmp S accepts log) : Loads S accepts log ∧
    ∃ a, log[i]? = some a ∧ ¬ Skipped a.string ∧ row.ts = a.fz.cycleHigh.toNat := by
  rcases evTmp_cases S accepts log with ⟨hnil, -⟩ | ⟨rows, hload, hrows, hof⟩
  · rw [hnil] at h
    cases h
  · rw [hrows] at h
    obtain ⟨ev, hmem, hrow⟩ := exists_of_mem_zip hof h
    obtain ⟨a, ha, hev, hskip⟩ := mem_exported.1 hmem
    obtain ⟨hts, hstr⟩ := eventOfLogentry_ok hev
    rw [hstr] at hskip
    exact ⟨hload, a, ha, hskip, hrow.ts.trans hts⟩

/-- An entry that is exported has a row, when the log can be loaded. -/
theorem exists_row (hload : Loads S accepts log) (ha : log[i]? = some a)
    (hskip : ¬ Skipped a.string) : ∃ row, (i, row) ∈ evTmp S accepts log := by
  rcases evTmp_cases S accepts log with ⟨-, hnot⟩ | ⟨rows, ⟨leid, file, _, hparse, -⟩, hrows, hof⟩
  · exact absurd hload hnot
  · obtain ⟨ev, hev⟩ := (parse_ok hparse).2 a (List.mem_of_getElem? ha)
    rw [← (eventOfLogentry_ok hev).2] at hskip
    obtain ⟨row, hrow, -⟩ := mem_zip_of_mem hof (mem_exported.2 ⟨a, ha, hev, hskip⟩)
    exact ⟨row, hrows ▸ hrow⟩

/-- The rows are in the order of the log. -/
theorem evTmp_pairwise (S : Syscalls) (accepts : List Byte → Bool) (log : List LogentryThaw) :
    (evTmp S accepts log).Pairwise fun x y => x.1 < y.1 := by
  rcases evTmp_cases S accepts log with ⟨hnil, -⟩ | ⟨rows, -, hrows, hof⟩
  · rw [hnil]
    exact .nil
  · have hnum : ((evTmp S accepts log).map Prod.fst).Pairwise (· < ·) := by
      rw [hrows, map_fst_zip hof]
      exact List.pairwise_map.2 (exported_pairwise S 0 log)
    exact List.pairwise_map.1 hnum

/-- The rows of two entries are in the order of the entries. -/
theorem before_evTmp {x y : ℕ × EvRow} (hx : x ∈ evTmp S accepts log)
    (hy : y ∈ evTmp S accepts log) (h : x.1 < y.1) : [x, y] <+ evTmp S accepts log := by
  have hne : x ≠ y := by
    rintro rfl
    exact lt_irrefl _ h
  apply (before_total hx hy hne).resolve_right
  intro hyx
  exact absurd h (not_lt_of_gt ((evTmp_pairwise S accepts log).forall_sublist hyx))

/-! ## The rows of `ev` -/

theorem insertEv_pairwise (rows : List (ℕ × EvRow)) :
    (insertEv rows).Pairwise fun x y => x.eid < y.eid :=
  List.pairwise_map.2 (zipIdx_pairwise_lt rows 1)

/-- `stream_join` is called for the rows as they come. -/
theorem run_initial (j : Joiner) (res : List Stored) : run S o port j res <+: res := by
  induction res generalizing j with
  | nil => exact List.prefix_rfl
  | cons x res ih =>
    rw [run]
    rcases streamOfDbrow S x.eid x.row with err | stream
    · exact List.nil_prefix
    · refine List.cons_prefix_cons.2 ⟨rfl, ?_⟩
      split
      · exact List.nil_prefix
      · exact ih _

namespace Aggregation

variable (g : Aggregation S accepts log) {x y : ℕ × EvRow}

theorem res_eq : g.res = insertEv g.sorted := g.selected.eq_of_lt (insertEv_pairwise g.sorted)

theorem mem_insertEv {z : Stored} (hz : z ∈ insertEv g.sorted) :
    (z.entry, z.row) ∈ evTmp S accepts log := by
  obtain ⟨⟨⟨k, row⟩, n⟩, hmem, rfl⟩ := List.mem_map.1 hz
  exact g.ordered.perm.mem_iff.1 (List.fst_mem_of_mem_zipIdx hmem)

theorem entry_inj {z w : Stored} (hz : z ∈ insertEv g.sorted) (hw : w ∈ insertEv g.sorted)
    (h : z.entry = w.entry) : z = w := by
  have hentries : (insertEv g.sorted).map Stored.entry = g.sorted.map Prod.fst := by
    rw [insertEv, List.map_map]
    exact (List.map_map (f := Prod.fst) (g := Prod.fst)).symm.trans
      (congrArg _ (List.zipIdx_map_fst 1 g.sorted))
  have hnodup : ((insertEv g.sorted).map Stored.entry).Nodup := by
    rw [hentries, (g.ordered.perm.map _).nodup_iff]
    exact (List.pairwise_map.2 (evTmp_pairwise S accepts log)).imp fun h => h.ne
  exact List.inj_on_of_nodup_map hnodup hz hw h

theorem before_insertEv (h : [x, y] <+ g.sorted) : ∃ ex ey,
    [⟨x.1, ex, x.2⟩, ⟨y.1, ey, y.2⟩] <+ insertEv g.sorted := by
  obtain ⟨ex, ey, hpair⟩ := before_zipIdx h 1
  have hmap := hpair.map fun e : (ℕ × EvRow) × ℕ => (⟨e.1.1, e.2, e.1.2⟩ : Stored)
  exact ⟨ex, ey, hmap⟩

/-- Rows are joined as they are stored. -/
theorem inOrder_of_before (h : [x, y] <+ g.sorted) : g.InOrder o port x.1 y.1 := by
  obtain ⟨ex, ey, hpair⟩ := g.before_insertEv h
  have hlt : ex < ey := (insertEv_pairwise g.sorted).forall_sublist hpair
  have hx := hpair.subset List.mem_cons_self
  have hy := hpair.subset (List.mem_cons_of_mem _ List.mem_cons_self)
  refine ⟨⟨_, hx, _, hy, rfl, rfl, hlt⟩, fun pre z hpre hz => ⟨⟨x.1, ex, x.2⟩, ?_, rfl⟩⟩
  obtain ⟨post, hpost⟩ := hpre.trans (run_initial ..)
  rw [g.res_eq] at hpost
  have hpw := insertEv_pairwise g.sorted
  have hzy := g.entry_inj (hpost ▸ by simp) hy hz
  rw [← hpost, List.append_assoc] at hpw hx
  -- behind the row of `y` the numbers are larger
  rcases List.mem_append.1 hx with hpre | hpost
  · exact hpre
  · have hle : z.eid ≤ ex := by
      rcases List.mem_cons.1 hpost with heq | hmem
      · rw [← heq]
      · exact ((List.pairwise_cons.1 (List.pairwise_append.1 hpw).2.1).1 _ hmem).le
    rw [hzy] at hle
    exact absurd hlt (not_lt_of_ge hle)

/-- Rows are not joined in another order. -/
theorem not_inOrder_of_before (h : [y, x] <+ g.sorted) : ¬ g.InOrder o port x.1 y.1 := by
  obtain ⟨ey, ex, hpair⟩ := g.before_insertEv h
  have hlt : ey < ex := (insertEv_pairwise g.sorted).forall_sublist hpair
  have hy := hpair.subset List.mem_cons_self
  have hx := hpair.subset (List.mem_cons_of_mem _ List.mem_cons_self)
  rintro ⟨⟨z, hz, w, hw, hzx, hwy, hzw⟩, -⟩
  rw [g.entry_inj hz hx hzx, g.entry_inj hw hy hwy] at hzw
  exact absurd hzw (not_lt_of_gt hlt)

/-- What is in order is stored. -/
theorem InOrder.rows {g : Aggregation S accepts log} (h : g.InOrder o port i j) :
    ∃ x y, (i, x) ∈ evTmp S accepts log ∧ (j, y) ∈ evTmp S accepts log := by
  obtain ⟨⟨x, hx, y, hy, rfl, rfl, -⟩, -⟩ := h
  exact ⟨x.row, y.row, g.mem_insertEv hx, g.mem_insertEv hy⟩

/-- Every order of `ev_tmp` by the time may come of the log. -/
theorem exists_of_orderedBy {l : List (ℕ × EvRow)}
    (h : OrderedBy (fun e => e.2.ts) (evTmp S accepts log) l) :
    ∃ g : Aggregation S accepts log, g.sorted = l :=
  ⟨⟨l, insertEv l, h, .refl _, (insertEv_pairwise l).imp fun h => h.le⟩, rfl⟩

theorem exists_stable (S : Syscalls) (accepts : List Byte → Bool) (log : List LogentryThaw) :
    ∃ g : Aggregation S accepts log, g.Stable := by
  obtain ⟨g, hg⟩ := exists_of_orderedBy (orderedBy_mergeSort _ (evTmp S accepts log))
  refine ⟨g, ?_⟩
  rw [Stable, hg]
  exact keepsTies_mergeSort _ _

end Aggregation

/-! ## The order of two entries -/

/-- The row of an entry that is exported. -/
theorem row_of_mem {row : EvRow} (ha : log[i]? = some a) (h : (i, row) ∈ evTmp S accepts log) :
    Loads S accepts log ∧ ¬ Skipped a.string ∧ row.ts = a.fz.cycleHigh.toNat := by
  obtain ⟨hload, a', ha', hskip, hts⟩ := mem_evTmp h
  rw [ha, Option.some_inj] at ha'
  subst ha'
  exact ⟨hload, hskip, hts⟩

/-- Stamps that differ in the microsecond only. -/
theorem Earlier.tie (h : Earlier a b) (hlt : ¬ a.fz.cycleHigh < b.fz.cycleHigh) :
    a.fz.cycleHigh = b.fz.cycleHigh ∧ a ≠ b := by
  obtain ⟨heq, hlow⟩ := h.resolve_left hlt
  refine ⟨heq, ?_⟩
  rintro rfl
  exact UInt32.lt_irrefl _ hlow

/-- The entries `a` and `b` of the log are stored. -/
def Kept (S : Syscalls) (accepts : List Byte → Bool) (log : List LogentryThaw)
    (a b : LogentryThaw) : Prop :=
  Loads S accepts log ∧ ¬ Skipped a.string ∧ ¬ Skipped b.string

section Pair

variable (ha : log[i]? = some a) (hb : log[j]? = some b)
include ha hb

/-- Entries that are stored have rows with their seconds. -/
theorem rows_of_kept (h : Kept S accepts log a b) : ∃ x y, (i, x) ∈ evTmp S accepts log ∧
    (j, y) ∈ evTmp S accepts log ∧ x.ts = a.fz.cycleHigh.toNat ∧ y.ts = b.fz.cycleHigh.toNat := by
  obtain ⟨x, hx⟩ := exists_row h.1 ha h.2.1
  obtain ⟨y, hy⟩ := exists_row h.1 hb h.2.2
  exact ⟨x, y, hx, hy, (row_of_mem ha hx).2.2, (row_of_mem hb hy).2.2⟩

/-- Entries that are joined in order are stored. -/
theorem kept_of_inOrder {g : Aggregation S accepts log} (h : g.InOrder o port i j) :
    Kept S accepts log a b := by
  obtain ⟨x, y, hx, hy⟩ := h.rows
  obtain ⟨hload, hskip, -⟩ := row_of_mem ha hx
  exact ⟨hload, hskip, (row_of_mem hb hy).2.1⟩

/-- The entry of a smaller second is joined first. -/
theorem inOrder_of_lt (h : Kept S accepts log a b) (hlt : a.fz.cycleHigh < b.fz.cycleHigh)
    (g : Aggregation S accepts log) : g.InOrder o port i j := by
  obtain ⟨x, y, hx, hy, hxts, hyts⟩ := rows_of_kept ha hb h
  have hkey : x.ts < y.ts := by
    rw [hxts, hyts]
    exact_mod_cast UInt32.lt_iff_toNat_lt.1 hlt
  exact g.inOrder_of_before (g.ordered.before_of_lt hx hy hkey)

/-- Of two entries with one second either may be joined first. -/
theorem exists_not_inOrder (h : Kept S accepts log a b) (hne : i ≠ j)
    (heq : a.fz.cycleHigh = b.fz.cycleHigh) :
    ∃ g : Aggregation S accepts log, ¬ g.InOrder o port i j := by
  obtain ⟨x, y, hx, hy, hxts, hyts⟩ := rows_of_kept ha hb h
  have hkey : y.ts = x.ts := by rw [hxts, hyts, heq]
  have hrows : (j, y) ≠ (i, x) := fun hyx => hne (congrArg Prod.fst hyx).symm
  obtain ⟨l, hl, hbefore⟩ := exists_orderedBy_before (fun e : ℕ × EvRow => e.2.ts) hy hx hrows
    hkey.le
  obtain ⟨g, hg⟩ := Aggregation.exists_of_orderedBy hl
  rw [← hg] at hbefore
  exact ⟨g, g.not_inOrder_of_before hbefore⟩

/-- Where the order of the file is kept, it decides. -/
theorem Aggregation.Stable.inOrder_iff {g : Aggregation S accepts log} (hg : g.Stable)
    (h : Kept S accepts log a b) (hne : i ≠ j) (heq : a.fz.cycleHigh = b.fz.cycleHigh) :
    g.InOrder o port i j ↔ i < j := by
  obtain ⟨x, y, hx, hy, hxts, hyts⟩ := rows_of_kept ha hb h
  have hkey : x.ts = y.ts := by rw [hxts, hyts, heq]
  rcases lt_or_gt_of_ne hne with hlt | hlt
  · exact iff_of_true (g.inOrder_of_before (hg _ _ hkey (before_evTmp hx hy hlt))) hlt
  · exact iff_of_false (g.not_inOrder_of_before (hg _ _ hkey.symm (before_evTmp hy hx hlt)))
      (not_lt_of_gt hlt)

/-- **The order of the events** of two entries, of which `a` has the smaller stamp. Whatever
PostgreSQL does with equal times, they are joined in order exactly when they are stored and their
seconds differ; when it keeps the order of the file, also when `a` comes first there. -/
theorem joined_in_order_iff (S : Syscalls) (accepts : List Byte → Bool) (o : Orders) (port : ℤ)
    (hab : Earlier a b) :
    ((∀ g : Aggregation S accepts log, g.InOrder o port i j) ↔
        Kept S accepts log a b ∧ a.fz.cycleHigh < b.fz.cycleHigh) ∧
      ((∀ g : Aggregation S accepts log, g.Stable → g.InOrder o port i j) ↔
        Kept S accepts log a b ∧ (a.fz.cycleHigh < b.fz.cycleHigh ∨ i < j)) := by
  have hne : ¬ a.fz.cycleHigh < b.fz.cycleHigh → i ≠ j := by
    rintro hlt rfl
    exact (hab.tie hlt).2 (Option.some_inj.1 (ha.symm.trans hb))
  obtain ⟨g₀, hg₀⟩ := Aggregation.exists_stable S accepts log
  refine ⟨⟨fun h => ?_, fun ⟨hkept, hlt⟩ g => inOrder_of_lt ha hb hkept hlt g⟩,
    ⟨fun h => ?_, fun ⟨hkept, hor⟩ g hg => ?_⟩⟩
  · have hkept := kept_of_inOrder ha hb (h g₀)
    refine ⟨hkept, by_contra fun hlt => ?_⟩
    obtain ⟨g, hg⟩ := exists_not_inOrder ha hb hkept (hne hlt) (hab.tie hlt).1
    exact hg (h g)
  · have hkept := kept_of_inOrder ha hb (h g₀ hg₀)
    refine ⟨hkept, or_iff_not_imp_left.2 fun hlt => ?_⟩
    exact (hg₀.inOrder_iff ha hb hkept (hne hlt) (hab.tie hlt).1).1 (h g₀ hg₀)
  · by_cases hlt : a.fz.cycleHigh < b.fz.cycleHigh
    · exact inOrder_of_lt ha hb hkept hlt g
    · exact (hg.inOrder_iff ha hb hkept (hne hlt) (hab.tie hlt).1).2 (hor.resolve_left hlt)

end Pair

/-- Names of which only one is of interest. -/
def readNamed : Syscalls where
  scStrOfInt sc := if sc = 1 then "SYS_READ" else "Syscall_render_error"
  strOfPpid _ := none
  word sc := by
    split <;> exact List.all_eq_true.1 (by decide)

/-- An entry of a `read` of one byte from descriptor 3. -/
def readAt (high low : UInt32) : LogentryThaw where
  fz := {
    tid := 1
    pid := 1
    cycleHigh := high
    cycleLow := low
    sc := 1
    rv := 1
    nm := 112
    argLen := 1
    strLen := 0
    padding := ⟨[0, 0, 0, 0], rfl⟩ }
  str := none
  arg := [3, 0, 0]

theorem not_skipped_readAt (high low : UInt32) : ¬ Skipped (readAt high low).string :=
  show ¬ Skipped [] by decide

/-- The read of the earlier second is joined first, though it is the second one in the log. -/
theorem joined_in_order_iff_seconds : Earlier (readAt 1 7) (readAt 2 0) ∧
    ∀ g : Aggregation readNamed (fun _ => true) [readAt 2 0, readAt 1 7],
      g.InOrder .listed 80 1 0 := by
  have hab : Earlier (readAt 1 7) (readAt 2 0) := .inl (by decide)
  refine ⟨hab, ?_⟩
  have hkept : Kept readNamed (fun _ => true) [readAt 2 0, readAt 1 7] (readAt 1 7)
      (readAt 2 0) :=
    ⟨⟨2, _, _, rfl, rfl⟩, not_skipped_readAt _ _, not_skipped_readAt _ _⟩
  exact (joined_in_order_iff (i := 1) (j := 0) rfl rfl readNamed (fun _ => true) .listed 80
    hab).1.2 ⟨hkept, by decide⟩

/-- **Two reads in one second** are joined as they are in the log, the later one first. -/
theorem same_second_reversed :
    Earlier (readAt 1 5) (readAt 1 7) ∧
      Kept readNamed (fun _ => true) [readAt 1 7, readAt 1 5] (readAt 1 5) (readAt 1 7) ∧
        ¬ ∀ g : Aggregation readNamed (fun _ => true) [readAt 1 7, readAt 1 5],
          g.Stable → g.InOrder .listed 80 1 0 := by
  have hkept : Kept readNamed (fun _ => true) [readAt 1 7, readAt 1 5] (readAt 1 5)
      (readAt 1 7) :=
    ⟨⟨2, _, _, rfl, rfl⟩, not_skipped_readAt _ _, not_skipped_readAt _ _⟩
  refine ⟨.inr ⟨rfl, by decide⟩, hkept, fun h => ?_⟩
  obtain ⟨g, hg⟩ := Aggregation.exists_stable readNamed (fun _ => true) [readAt 1 7, readAt 1 5]
  exact absurd ((hg.inOrder_iff (i := 1) (j := 0) rfl rfl hkept (by decide) rfl).1 (h g hg))
    (by decide)

end BorderPatrol.Agg
