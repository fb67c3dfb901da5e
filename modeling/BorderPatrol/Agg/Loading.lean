import BorderPatrol.Agg.Ordering
import BorderPatrol.Agg.RoundTrip

/-!
# What is joined of a log

Between the log and the join an event is written as a line, copied into a table, numbered in the
order of the time and read again. When PostgreSQL takes the lines, this changes two things of an
event: its number, which becomes that of its row, and its string, which becomes what is read back of
it. So the lists of streams that may be joined of a log are those of the events of its entries in an
order of their seconds (`aggregation_iff`). When PostgreSQL keeps the order of rows with equal times
there is one, which sorting by merging gives (`aggregation_stable`).
-/

namespace BorderPatrol.Agg

open Foundations Logd
open scoped List

variable {S : Syscalls} {accepts : List Byte → Bool} {log : List LogentryThaw} {ev : FullEvent}
  {le : LogentryThaw}

/-! ## The row of an event -/

/-- What is read back of a string, when its last backslash escapes nothing behind it. -/
def copiedStr (s : List Byte) : Option (List Byte) :=
  match copyRow (exportStr s) with
  | some [str] => if escapes false (exportStr s) then none else some str
  | _ => none

/-- The event with the number of its row and what is read back of its string. -/
def FullEvent.stored (ev : FullEvent) (eid : ℕ) : FullEvent :=
  { ev with eid := eid, str := (copiedStr ev.str).getD [] }

/-- The row of an event. -/
def FullEvent.row (ev : FullEvent) : EvRow where
  pid := ev.pid
  tid := ev.tid
  ptid := ev.ptid
  ts := ev.ts
  prog := ev.prog
  sc := ascii ev.scStr
  rv := ev.rv
  arg1 := ev.arg1
  arg2 := ev.arg2
  arg3 := ev.arg3
  str := (copiedStr ev.str).getD []

/-- PostgreSQL takes the line of the event: its program is a character that stands for itself, the
name of its system call fits, its string is one column, and the database has these texts. -/
structure Storable (accepts : List Byte → Bool) (ev : FullEvent) : Prop where
  prog : ∀ b ∈ ev.prog, b ∉ ([10, 13, 92, 124] : List Byte)
  name : ev.scStr.length ≤ 30 ∧ ∀ c ∈ ev.scStr.toList, c.toNat < 128
  str : (copiedStr ev.str).isSome
  accepts : accepts ev.prog ∧ accepts (ascii ev.scStr) ∧ accepts ev.row.str

/-- The numbers of an event are in the ranges of the columns. -/
structure FullEvent.InRange (ev : FullEvent) : Prop where
  pid : -2 ^ 31 ≤ ev.pid ∧ ev.pid ≤ 2 ^ 31 - 1
  tid : -2 ^ 63 ≤ ev.tid ∧ ev.tid ≤ 2 ^ 63 - 1
  ptid : -2 ^ 63 ≤ ev.ptid ∧ ev.ptid ≤ 2 ^ 63 - 1
  ts : -2 ^ 63 ≤ ev.ts ∧ ev.ts ≤ 2 ^ 63 - 1
  rv : -2 ^ 15 ≤ ev.rv ∧ ev.rv ≤ 2 ^ 15 - 1
  arg1 : -2 ^ 31 ≤ ev.arg1 ∧ ev.arg1 ≤ 2 ^ 31 - 1
  arg2 : -2 ^ 31 ≤ ev.arg2 ∧ ev.arg2 ≤ 2 ^ 31 - 1
  arg3 : -2 ^ 31 ≤ ev.arg3 ∧ ev.arg3 ≤ 2 ^ 31 - 1

theorem int64OfString_range {s : List Byte} {x : ℤ} (h : int64OfString s = some x) :
    -2 ^ 63 ≤ x ∧ x ≤ 2 ^ 63 - 1 := by
  unfold int64OfString at h
  simp only at h
  split at h
  · cases h
  · generalize (if (splitSign s).1 = true then _ else _ : ℤ) = y at h
    split at h
    · rw [Option.ite_none_right_eq_some, Option.some_inj] at h
      obtain ⟨hrange, rfl⟩ := h
      omega
    · rw [Option.ite_none_right_eq_some, Option.some_inj] at h
      obtain ⟨-, rfl⟩ := h
      have hlo := Int.le_bmod (x := y) (m := 2 ^ 64) (by decide)
      have hhi := Int.bmod_lt (x := y) (m := 2 ^ 64) (by decide)
      omega

theorem ptidOf_range {sc : String} {s : List Byte} {x : ℤ} (h : ptidOf sc s = .ok x) :
    -2 ^ 63 ≤ x ∧ x ≤ 2 ^ 63 - 1 := by
  unfold ptidOf at h
  split at h
  · split at h
    · next hx =>
      cases h
      exact int64OfString_range hx
    · cases h
  · cases h
    omega

/-- The numbers of an entry fit. -/
theorem eventOfLogentry_inRange (h : eventOfLogentry S le = .ok ev) : ev.InRange := by
  unfold eventOfLogentry at h
  obtain ⟨ptid, hptid, h⟩ := bind_eq_ok h
  cases h
  have h32 : ∀ i : Int32, -2 ^ 31 ≤ i.toInt ∧ i.toInt ≤ 2 ^ 31 - 1 := fun i =>
    ⟨i.le_toInt, Int.le_sub_one_of_lt i.toInt_lt⟩
  exact
    { pid := h32 _
      tid := ⟨Int64.le_toInt _, Int.le_sub_one_of_lt (Int64.toInt_lt _)⟩
      ptid := ptidOf_range hptid
      ts := by
        have hlt := le.fz.cycleHigh.toNat_lt
        simp only [binlogMkts]
        omega
      rv := ⟨Int16.le_toInt _, Int.le_sub_one_of_lt (Int16.toInt_lt _)⟩
      arg1 := h32 _
      arg2 := h32 _
      arg3 := h32 _ }

/-- A number in the range of its column is read. -/
theorem intIn_decimal_of {lo hi x : ℤ} (h : lo ≤ x ∧ x ≤ hi) :
    intIn lo hi (decimal x) = some x := by
  obtain ⟨neg, n, hsign, hx⟩ := splitSign_integer x
  have hdigit : ∀ b ∈ decimal (n : ℤ), isdigit b = true := fun b => isdigit_of_mem_decimal
  rw [intIn, dropWhile_isspace_decimal, hsign]
  simp only [leadingNat_decimal]
  rw [← hx, List.takeWhile_eq_self_iff.2 hdigit, List.dropWhile_eq_nil_iff.2 hdigit, if_pos]
  refine ⟨?_, rfl, h⟩
  rw [decimal_natCast, ne_eq, List.map_eq_nil_iff]
  exact Nat.toDigits_ne_nil

/-! ## The line of an event -/

theorem copiedStr_eq_some {s str : List Byte} : copiedStr s = some str ↔
    copyRow (exportStr s) = some [str] ∧ escapes false (exportStr s) = false := by
  unfold copiedStr
  split
  · next str' hrow =>
    rw [hrow]
    cases escapes false (exportStr s) <;> simp
  · next hne =>
    exact iff_of_false (fun h => nomatch h) fun h => hne str h.1

/-- A string of plain characters is read back. -/
theorem copiedStr_of_plain {s : List Byte} (h : ∀ b ∈ s, b ∉ ([10, 13, 39, 92, 124] : List Byte))
    (hlen : s.length ≤ 149) : copiedStr s = some s := by
  have hmem : ∀ c ∈ ([10, 13, 39, 92, 124] : List Byte), c ∉ s := fun c hc hs => h c hs hc
  have hreplace : ∀ c templ, c ∉ s → globalReplace c templ s = s := by
    intro c templ hc
    have hone : ∀ b ∈ s, (if b = c then templ else [b]) = [b] := by
      intro b hb
      refine if_neg ?_
      rintro rfl
      exact hc hb
    rw [globalReplace, List.flatMap_congr hone]
    exact List.flatMap_singleton' s
  have hexport : exportStr s = s := by
    rw [exportStr_eq, substituted, hreplace 10 _ (hmem 10 (by decide)),
      hreplace 13 _ (hmem 13 (by decide)), flatMap_quadruple_of_plain, List.take_of_length_le hlen]
    intro b hb
    have hb' := h b hb
    simp only [List.mem_cons, List.not_mem_nil, or_false, not_or] at hb'
    simp [isSpecial, hb']
  rw [copiedStr_eq_some, hexport]
  refine ⟨copyRow_eq_singleton.2 ⟨separators_of_notMem (hmem 124 (by decide)), ?_⟩,
    escapes_of_plain (hmem 92 (by decide))⟩
  exact copyColumn_of_plain (hmem 92 (by decide)) (hmem 13 (by decide))

theorem length_exportStr_le (s : List Byte) : (exportStr s).length ≤ 149 := by
  rw [exportStr_eq]
  exact List.length_take_le _ _

/-- What is read of a column is not longer. -/
theorem length_copiedStr_le {s str : List Byte} (h : copiedStr s = some str) :
    str.length ≤ 149 := by
  obtain ⟨-, hcol⟩ := copyRow_eq_singleton.1 (copiedStr_eq_some.1 h).1
  rw [copyColumn, Option.ite_none_left_eq_some, Option.some_inj] at hcol
  rw [← hcol.2]
  exact (length_unescape_le _).trans (length_exportStr_le s)

/-- What is behind the program decides whether the newline is escaped. -/
theorem escapes_exportLine (hev : ev.Named)
    (h : ∀ b ∈ ev.prog, b ∉ ([10, 13, 92, 124] : List Byte)) :
    escapes false (exportLine ev) = escapes false (exportStr ev.str) := by
  obtain ⟨nm, hnm⟩ := hev.prog
  have h92 : nm ≠ 92 := by
    rintro rfl
    exact h 92 (by simp [hnm]) (by decide)
  have hbar : escapes false (nm :: 124 :: (exportMiddle ev ++ exportStr ev.str)) =
      escapes false (exportMiddle ev ++ exportStr ev.str) := by
    rw [escapes, decide_eq_false h92, escapes]
    rfl
  rw [exportLine_eq hnm, exportTail_eq, escapes_append, escapes_head, hbar, escapes_append,
    escapes_middle hev]

theorem newline_notMem_line (hev : ev.Named)
    (h : ∀ b ∈ ev.prog, b ∉ ([10, 13, 92, 124] : List Byte)) : 10 ∉ exportLine ev := by
  obtain ⟨nm, hnm⟩ := hev.prog
  have h10 : nm ≠ 10 := by
    rintro rfl
    exact h 10 (by simp [hnm]) (by decide)
  rw [exportLine_eq hnm]
  simp [newline_notMem_head, newline_notMem_tail hev, Ne.symm h10]

theorem varchar_of {n : ℕ} {s : List Byte} (ha : accepts s) (hlen : s.length ≤ n) :
    varchar accepts n s = some s := by
  rw [varchar, if_pos ha, varcharIn, List.drop_eq_nil_of_le hlen, List.take_of_length_le hlen]
  rfl

theorem length_ascii (s : String) : (ascii s).length = s.length := by
  rw [ascii, List.length_map, String.length_toList]

/-- **The row** that is read of the line of an event. -/
theorem readRow_exportLine (hev : ev.Named) (hrange : ev.InRange) (h : Storable accepts ev) :
    readRow accepts (exportLine ev) = some ev.row := by
  obtain ⟨nm, hnm⟩ := hev.prog
  obtain ⟨str, hstr⟩ := Option.isSome_iff_exists.1 h.str
  have hnmOk : nm ∉ ([10, 13, 92, 124] : List Byte) := h.prog nm (by simp [hnm])
  have hcols : copyRow (exportLine ev) = some (firstColumns ev ++ [str]) := by
    have hmiddle : copyRow (exportMiddle ev ++ exportStr ev.str) =
        some (ascii ev.scStr :: decimal ev.rv :: decimal ev.arg1 :: decimal ev.arg2 ::
          decimal ev.arg3 :: [str]) := by
      rw [copyRow_middle hev, (copiedStr_eq_some.1 hstr).1, Option.map_some]
    have hprog := (copyRow_prog nm _ (by rintro rfl; exact hnmOk (by decide)) _).2 ⟨hnmOk, hmiddle⟩
    rw [exportLine_eq hnm, exportTail_eq, copyRow_head, hprog, Option.map_some, firstColumns, hnm]
    rfl
  have hrow : ev.row.str = str := by
    rw [FullEvent.row, hstr, Option.getD_some]
  have hstrCol : varchar accepts 150 str = some str :=
    varchar_of (hrow ▸ h.accepts.2.2) ((length_copiedStr_le hstr).trans (by decide))
  have hprogCol : varchar accepts 5 ev.prog = some ev.prog :=
    varchar_of h.accepts.1 (by simp [hnm])
  have hscCol : varchar accepts 30 (ascii ev.scStr) = some (ascii ev.scStr) :=
    varchar_of h.accepts.2.1 ((length_ascii _).le.trans h.name.1)
  have hread : readRow accepts (exportLine ev) = evRow accepts (firstColumns ev ++ [str]) := by
    change copyRow (exportLine ev) >>= evRow accepts = _
    rw [hcols]
    rfl
  rw [hread, firstColumns]
  simp only [List.cons_append, List.nil_append, evRow, integer, bigint, smallint,
    intIn_decimal_of hrange.pid, intIn_decimal_of hrange.tid, intIn_decimal_of hrange.ptid,
    intIn_decimal_of hrange.ts, intIn_decimal_of hrange.rv, intIn_decimal_of hrange.arg1,
    intIn_decimal_of hrange.arg2, intIn_decimal_of hrange.arg3, hprogCol, hscCol, hstrCol]
  rw [FullEvent.row, hstr]
  rfl

/-! ## The rows of a log -/

/-- All entries can be read, and PostgreSQL takes the lines of those that are exported. -/
def AllStorable (S : Syscalls) (accepts : List Byte → Bool) (log : List LogentryThaw) : Prop :=
  ∀ le ∈ log, ∃ stream, streamOfLogentry S le = .ok stream ∧
    (¬ Skipped stream.1.str → Storable accepts stream.1)

theorem parse_of_ok (eid : ℕ) (h : ∀ le ∈ log, ∃ stream, streamOfLogentry S le = .ok stream) :
    ∃ leid file, parse S eid log = .ok (leid, file) := by
  induction log generalizing eid with
  | nil => exact ⟨eid, [], rfl⟩
  | cons le log ih =>
    obtain ⟨⟨stream, hstream⟩, hlog⟩ := List.forall_mem_cons.1 h
    obtain ⟨leid, file, hparse⟩ := ih (eid + 1) hlog
    exact ⟨leid, _, by rw [parse, hstream, ok_bind, hparse, ok_bind]; rfl⟩

/-- The lines of storable events are copied one by one. -/
theorem copyEvTmp_lines {evs : List FullEvent}
    (h : ∀ ev ∈ evs, ev.Named ∧ ev.InRange ∧ Storable accepts ev) :
    copyEvTmp accepts (exportLines evs) = some (evs.map FullEvent.row) := by
  induction evs with
  | nil => rfl
  | cons ev evs ih =>
    obtain ⟨⟨hev, hrange, hst⟩, hevs⟩ := List.forall_mem_cons.1 h
    obtain ⟨str, hstr⟩ := Option.isSome_iff_exists.1 hst.str
    have hfile : exportLines (ev :: evs) = exportLine ev ++ 10 :: exportLines evs := by
      rw [exportLines, List.flatMap_cons, List.append_assoc]
      rfl
    have hesc : escapes false (exportLine ev) = false :=
      (escapes_exportLine hev hst.prog).trans (copiedStr_eq_some.1 hstr).2
    have hcopy : (copyLines (exportLines evs)).mapM (readRow accepts) =
        some (evs.map FullEvent.row) := ih hevs
    rw [copyEvTmp, hfile, copyLines_front (separators_of_notMem (newline_notMem_line hev hst.prog))
      hesc, List.mapM_cons, readRow_exportLine hev hrange hst, hcopy]
    rfl

/-- **The table** has the rows of the events exported, each with the number of its entry. -/
theorem evTmp_eq (h : AllStorable S accepts log) : Loads S accepts log ∧
    evTmp S accepts log = (exported S 0 log).map fun e => (e.1, e.2.row) := by
  obtain ⟨leid, file, hparse⟩ := parse_of_ok (S := S) 0 fun le hle =>
    let ⟨stream, hstream, _⟩ := h le hle
    ⟨stream, hstream⟩
  have hevs : ∀ ev ∈ (exported S 0 log).map Prod.snd,
      ev.Named ∧ ev.InRange ∧ Storable accepts ev := by
    intro ev hev
    obtain ⟨⟨i, ev⟩, hmem, rfl⟩ := List.mem_map.1 hev
    obtain ⟨le, hle, hev, hskip⟩ := mem_exported.1 hmem
    obtain ⟨stream, hstream, hst⟩ := h le (List.mem_of_getElem? hle)
    obtain rfl : stream.1 = ev := Except.ok.inj ((streamOfLogentry_ok hstream).symm.trans hev)
    exact ⟨eventOfLogentry_named hev, eventOfLogentry_inRange hev, hst hskip⟩
  have hcopy : copyEvTmp accepts file =
      some (((exported S 0 log).map Prod.snd).map FullEvent.row) := by
    rw [(parse_ok hparse).1]
    exact copyEvTmp_lines hevs
  refine ⟨⟨leid, file, _, hparse, hcopy⟩, ?_⟩
  rw [evTmp, hparse]
  simp only [hcopy, Option.getD_some, List.map_map]
  exact List.zip_map' ..

/-! ## The streams -/

/-- The stream of an event. -/
def streamOf (S : Syscalls) (ev : FullEvent) : Except ParseError Stream :=
  mkEventtype S ev >>= fun type => .ok ⟨type, ev.toEvent⟩

/-- `stream_of_dbrow`, of a row of `ev`. -/
def Stored.stream (S : Syscalls) (x : Stored) : Except ParseError Stream :=
  streamOfDbrow S x.eid x.row

/-- The streams of events in their order, numbered from 1. -/
def streamsOf (S : Syscalls) (l : List (ℕ × FullEvent)) : List (Except ParseError Stream) :=
  (l.zipIdx 1).map fun e => streamOf S (e.1.2.stored e.2)

theorem textOf_ascii {s : String} (h : ∀ c ∈ s.toList, c.toNat < 128) : textOf (ascii s) = s := by
  have hmap : ((ascii s).map fun b => Char.ofNat b.toNat) = s.toList := by
    rw [ascii, List.map_map]
    refine (List.map_congr_left fun c hc => ?_).trans (List.map_id _)
    have hlt := h c hc
    rw [Function.comp_apply, UInt8.toNat_ofNat_of_lt' (by rw [UInt8.size]; omega), Char.ofNat_toNat]
    rfl
  rw [textOf, hmap, String.ofList_toList]

/-- A row is read as the event with the number of the row and the string that was read back. -/
theorem streamOfDbrow_row (h : ∀ c ∈ ev.scStr.toList, c.toNat < 128) (eid : ℕ) :
    streamOfDbrow S eid ev.row = streamOf S (ev.stored eid) := by
  simp only [streamOfDbrow, FullEvent.row, textOf_ascii h]
  rfl

/-- The rows stored of the rows of events. -/
theorem stream_insertEv {l : List (ℕ × FullEvent)}
    (h : ∀ e ∈ l, ∀ c ∈ e.2.scStr.toList, c.toNat < 128) :
    (insertEv (l.map fun e => (e.1, e.2.row))).map (Stored.stream S) = streamsOf S l := by
  rw [insertEv, streamsOf, List.zipIdx_map, List.map_map, List.map_map]
  refine List.map_congr_left fun e he => ?_
  exact streamOfDbrow_row (h e.1 (List.fst_mem_of_mem_zipIdx he)) e.2

theorem ascii_of_mem_exported (h : AllStorable S accepts log) {e : ℕ × FullEvent}
    (he : e ∈ exported S 0 log) : ∀ c ∈ e.2.scStr.toList, c.toNat < 128 := by
  obtain ⟨le, hle, hev, hskip⟩ := mem_exported.1 (show (e.1, e.2) ∈ _ from he)
  obtain ⟨stream, hstream, hst⟩ := h le (List.mem_of_getElem? hle)
  have heq : stream.1 = e.2 := Except.ok.inj ((streamOfLogentry_ok hstream).symm.trans hev)
  exact heq ▸ (hst (heq ▸ hskip)).name.2

/-- **What may be joined of a log**: the streams of the events exported, in any order of their
seconds. -/
theorem aggregation_iff (h : AllStorable S accepts log) (ss : List (Except ParseError Stream)) :
    (∃ g : Aggregation S accepts log, g.res.map (Stored.stream S) = ss) ↔
      ∃ l, OrderedBy (fun e => e.2.ts) (exported S 0 log) l ∧ ss = streamsOf S l := by
  obtain ⟨-, htmp⟩ := evTmp_eq h
  have hmap : ∀ l : List (ℕ × EvRow), OrderedBy (fun e => e.2.ts) (evTmp S accepts log) l ↔
      ∃ m, OrderedBy (fun e => e.2.ts) (exported S 0 log) m ∧
        l = m.map fun e => (e.1, e.2.row) := by
    intro l
    rw [htmp]
    exact OrderedBy.map_iff _
  have hstreams : ∀ {m}, OrderedBy (fun e => e.2.ts) (exported S 0 log) m →
      (insertEv (m.map fun e => (e.1, e.2.row))).map (Stored.stream S) = streamsOf S m :=
    fun hm => stream_insertEv fun e he => ascii_of_mem_exported h (hm.perm.mem_iff.1 he)
  constructor
  · rintro ⟨g, rfl⟩
    obtain ⟨m, hm, hsorted⟩ := (hmap _).1 g.ordered
    exact ⟨m, hm, by rw [g.res_eq, hsorted, hstreams hm]⟩
  · rintro ⟨m, hm, rfl⟩
    obtain ⟨g, hg⟩ := Aggregation.exists_of_orderedBy ((hmap _).2 ⟨m, hm, rfl⟩)
    exact ⟨g, by rw [g.res_eq, hg, hstreams hm]⟩

/-- **What is joined of a log** when PostgreSQL keeps the order of rows with equal times. -/
theorem aggregation_stable (h : AllStorable S accepts log) {g : Aggregation S accepts log}
    (hg : g.Stable) : g.res.map (Stored.stream S) =
      streamsOf S ((exported S 0 log).mergeSort fun a b => a.2.ts ≤ b.2.ts) := by
  obtain ⟨-, htmp⟩ := evTmp_eq h
  have hnodup : (evTmp S accepts log).Nodup :=
    (evTmp_pairwise S accepts log).imp fun hlt heq => hlt.ne (congrArg Prod.fst heq)
  have hsorted := g.ordered.eq_mergeSort hg hnodup
  have hmerge := orderedBy_mergeSort (fun e : ℕ × FullEvent => e.2.ts) (exported S 0 log)
  have hmap := List.map_mergeSort (r := fun a b : ℕ × FullEvent => decide (a.2.ts ≤ b.2.ts))
    (s := fun a b : ℕ × EvRow => decide (a.2.ts ≤ b.2.ts)) (l := exported S 0 log)
    (f := fun e => (e.1, e.2.row)) fun _ _ _ _ => rfl
  rw [htmp, ← hmap] at hsorted
  rw [g.res_eq, hsorted,
    stream_insertEv fun e he => ascii_of_mem_exported h (hmerge.perm.mem_iff.1 he)]

/-- Two reads, of which the second in the log is the earlier one. -/
def twoReads : List LogentryThaw := [readAt 2 0, readAt 1 7]

/-- The event of a read. -/
def readEvent (ts : ℤ) : FullEvent where
  eid := 123456
  pid := 1
  tid := 1
  ts := ts
  prog := [112]
  ptid := 0
  scStr := "SYS_READ"
  rv := 1
  arg1 := 3
  arg2 := 0
  arg3 := 0
  str := []

theorem storable_readEvent (ts : ℤ) : Storable (fun _ => true) (readEvent ts) where
  prog := List.forall_mem_singleton.2 (by decide)
  name := by
    have hascii : "SYS_READ".toList.all (fun c => c.toNat < 128) = true := by decide
    exact ⟨show "SYS_READ".length ≤ 30 by decide,
      fun c hc => of_decide_eq_true (List.all_eq_true.1 hascii c hc)⟩
  str := Option.isSome_of_eq_some (copiedStr_of_plain (List.forall_mem_nil _) (Nat.zero_le _))
  accepts := ⟨rfl, rfl, rfl⟩

theorem allStorable_twoReads : AllStorable readNamed (fun _ => true) twoReads := by
  simp only [AllStorable, twoReads, List.forall_mem_cons]
  exact ⟨⟨(readEvent 2, .read 3), rfl, fun _ => storable_readEvent 2⟩,
    ⟨(readEvent 1, .read 3), rfl, fun _ => storable_readEvent 1⟩, by simp⟩

theorem aggregation_iff_twoReads :
    (∃ g : Aggregation readNamed (fun _ => true) twoReads, g.res.map (Stored.stream readNamed) =
      streamsOf readNamed [(1, readEvent 1), (0, readEvent 2)]) ↔
      ∃ l, OrderedBy (fun e => e.2.ts) (exported readNamed 0 twoReads) l ∧
        streamsOf readNamed [(1, readEvent 1), (0, readEvent 2)] = streamsOf readNamed l :=
  aggregation_iff allStorable_twoReads _

end BorderPatrol.Agg
