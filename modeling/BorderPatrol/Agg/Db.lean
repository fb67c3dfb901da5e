import BorderPatrol.Agg.Parse

/-!
# The tables of the events

`copy_ev` of `db.ml` over the tables of `init.sql`: the export is copied into `ev_tmp`, and from
there into `ev` in the order of the time, where a sequence numbers the rows. PostgreSQL copies the
whole file or, when it refuses a line, nothing. A row that is copied is the row of one event, and
the rows are in the order of the lines (`copyEvTmp_rows`).

What is a parameter here: `accepts`, the texts that the encoding of the database has.
-/

namespace BorderPatrol.Agg

open Foundations Logd
open scoped List

/-- A row of `ev_tmp`. -/
structure EvRow where
  pid : ℤ
  tid : ℤ
  ptid : ℤ
  ts : ℤ
  prog : List Byte
  sc : List Byte
  rv : ℤ
  arg1 : ℤ
  arg2 : ℤ
  arg3 : ℤ
  str : List Byte
  deriving DecidableEq, Repr

/-- `smallint` -/
def smallint (s : List Byte) : Option ℤ := intIn (-2 ^ 15) (2 ^ 15 - 1) s

/-- `integer` -/
def integer (s : List Byte) : Option ℤ := intIn (-2 ^ 31) (2 ^ 31 - 1) s

/-- `bigint` -/
def bigint (s : List Byte) : Option ℤ := intIn (-2 ^ 63) (2 ^ 63 - 1) s

/-- `varchar`, where a byte is a character. -/
def varchar (accepts : List Byte → Bool) (n : ℕ) (s : List Byte) : Option (List Byte) :=
  if accepts s then varcharIn n s else none

/-- The row of the columns of a line. -/
def evRow (accepts : List Byte → Bool) : List (List Byte) → Option EvRow
  | [pid, tid, ptid, ts, prog, sc, rv, arg1, arg2, arg3, str] => do
    return {
      pid := ← integer pid
      tid := ← bigint tid
      ptid := ← bigint ptid
      ts := ← bigint ts
      prog := ← varchar accepts 5 prog
      sc := ← varchar accepts 30 sc
      rv := ← smallint rv
      arg1 := ← integer arg1
      arg2 := ← integer arg2
      arg3 := ← integer arg3
      str := ← varchar accepts 150 str }
  | _ => none

/-- The row of a line. -/
def readRow (accepts : List Byte → Bool) (line : List Byte) : Option EvRow :=
  (splitUnescaped 124 false line).mapM copyColumn >>= evRow accepts

/-- `COPY ev_tmp`: the rows of a file, or nothing when a line is refused. -/
def copyEvTmp (accepts : List Byte → Bool) (file : List Byte) : Option (List EvRow) :=
  (copyLines file).mapM (readRow accepts)

/-- The characters of a text column, a byte each. -/
def textOf (s : List Byte) : String := String.ofList (s.map fun b => Char.ofNat b.toNat)

/-- `stream_of_dbrow`, for a row of `ev`. -/
def streamOfDbrow (S : Syscalls) (eid : ℕ) (row : EvRow) : Except ParseError Stream :=
  let ev : FullEvent := {
    eid := eid
    pid := row.pid
    tid := row.tid
    ts := row.ts
    prog := row.prog
    ptid := row.ptid
    scStr := textOf row.sc
    rv := row.rv
    arg1 := row.arg1
    arg2 := row.arg2
    arg3 := row.arg3
    str := row.str }
  mkEventtype S ev >>= fun type => .ok ⟨type, ev.toEvent⟩

/-! ## Numbers -/

theorem splitSign_decimal (n : ℕ) : splitSign (decimal n) = (false, decimal n) := by
  have hdigit := fun b => isdigit_of_mem_decimal (n := n) (b := b)
  unfold splitSign
  split
  · next t ht => exact absurd (hdigit 45 (ht ▸ List.mem_cons_self)) (by decide)
  · next t ht => exact absurd (hdigit 43 (ht ▸ List.mem_cons_self)) (by decide)
  · rfl

/-- The sign and the digits of an integer. -/
theorem splitSign_integer (x : ℤ) : ∃ neg n, splitSign (decimal x) = (neg, decimal (n : ℕ)) ∧
    x = if neg then -(n : ℤ) else n := by
  cases x with
  | ofNat n => exact ⟨false, n, splitSign_decimal n, rfl⟩
  | negSucc n =>
    rw [decimal_negSucc]
    exact ⟨true, n + 1, rfl, Int.negSucc_eq n⟩

/-- Integers are read as they are printed. -/
theorem intIn_decimal {lo hi x y : ℤ} (h : intIn lo hi (decimal x) = some y) : y = x := by
  obtain ⟨neg, n, hsign, hx⟩ := splitSign_integer x
  rw [intIn, dropWhile_isspace_decimal, hsign] at h
  simp only [leadingNat_decimal] at h
  rw [Option.ite_none_right_eq_some] at h
  rw [hx, ← Option.some_inj.1 h.2]

theorem splitBase_of_digits {s : List Byte} (h : ∀ b ∈ s, isdigit b = true) :
    splitBase s = (10, true, s) := by
  unfold splitBase
  split
  · next c t =>
    have hc : isdigit c = true := h c (by simp)
    have hne : ∀ b : Byte, isdigit b = false → c ≠ b := by
      rintro b hb rfl
      exact Bool.false_ne_true (hb.symm.trans hc)
    rw [if_neg (not_or.2 ⟨hne 120 rfl, hne 88 rfl⟩), if_neg (not_or.2 ⟨hne 111 rfl, hne 79 rfl⟩),
      if_neg (not_or.2 ⟨hne 98 rfl, hne 66 rfl⟩), if_neg (not_or.2 ⟨hne 117 rfl, hne 85 rfl⟩)]
  · rfl

/-- What digits stand for in base 10. -/
theorem digitsVal_of_digits {s : List Byte} (h : ∀ b ∈ s, isdigit b = true) :
    digitsVal 10 s = leadingNat s := by
  rw [digitsVal, leadingNat, List.takeWhile_eq_self_iff.2 h]
  refine List.foldl_ext _ _ _ fun n b hb => ?_
  have hdigit : 48 ≤ b ∧ b ≤ 57 := by simpa [isdigit] using h b hb
  rw [digitVal, if_pos hdigit, Nat.mul_comm]

/-- A number that `Int64.of_string` reads is read as it is. -/
theorem int64OfString_decimal {n : ℕ} {x : ℤ} (h : int64OfString (decimal n) = some x) :
    x = n ∧ n < 2 ^ 63 := by
  have hdigit : ∀ b ∈ decimal n, isdigit b = true := fun b => isdigit_of_mem_decimal
  have hds : (decimal n).take 1 ++ ((decimal n).drop 1).filter (· ≠ 95) = decimal n := by
    have h95 : (95 : Byte) ∉ decimal n := notMem_decimal n rfl (by decide)
    rw [List.filter_eq_self.2 fun b hb => ?_, List.take_append_drop]
    exact decide_eq_true fun hb95 => h95 (hb95 ▸ List.mem_of_mem_drop hb)
  rw [int64OfString, splitSign_decimal] at h
  simp only [splitBase_of_digits hdigit, hds, digitsVal_of_digits hdigit, leadingNat_decimal] at h
  split at h
  · cases h
  · rw [if_pos trivial, Option.ite_none_right_eq_some, Option.some_inj] at h
    obtain ⟨hrange, rfl⟩ := h
    have hlt : (n : ℤ) < 2 ^ 63 := hrange.2
    exact ⟨rfl, by exact_mod_cast hlt⟩

/-! ## The rows of the export -/

/-- The row has the thread and the time of the event. -/
structure EvRow.Of (row : EvRow) (ev : FullEvent) : Prop where
  pid : row.pid = ev.pid
  tid : row.tid = ev.tid
  ptid : row.ptid = ev.ptid
  ts : row.ts = ev.ts

/-- The columns of a line that are numbers and come first. -/
def exportHead (ev : FullEvent) : List Byte :=
  decimal ev.pid ++ 124 :: (decimal ev.tid ++ 124 :: (decimal ev.ptid ++ 124 ::
    (decimal ev.ts ++ [124])))

variable {accepts : List Byte → Bool} {ev : FullEvent} {line : List Byte} {row : EvRow}

/-- A line that is accepted has eleven columns. -/
theorem separators_of_readRow (h : readRow accepts line = some row) :
    separators 124 false line = 10 := by
  obtain ⟨cols, hcols, hrow⟩ := Option.bind_eq_some_iff.1 h
  have hlen := length_of_mapM_eq_some hcols
  rw [length_splitUnescaped] at hlen
  unfold evRow at hrow
  split at hrow
  · simpa using hlen.symm
  · cases hrow

/-- A column that is a number, in front of the others. -/
theorem splitUnescaped_decimal (x : ℤ) (t : List Byte) :
    splitUnescaped 124 false (decimal x ++ 124 :: t) = decimal x :: splitUnescaped 124 false t := by
  have h92 : (92 : Byte) ∉ decimal x := notMem_decimal x (by decide) (by decide)
  have h124 : (124 : Byte) ∉ decimal x := notMem_decimal x (by decide) (by decide)
  exact splitUnescaped_front (separators_of_notMem h124) (escapes_of_plain h92) t

theorem copyColumn_decimal (x : ℤ) : copyColumn (decimal x) = some (decimal x) :=
  copyColumn_of_plain (notMem_decimal x (by decide) (by decide))
    (notMem_decimal x (by decide) (by decide))

theorem splitUnescaped_head (ev : FullEvent) (t : List Byte) :
    splitUnescaped 124 false (exportHead ev ++ t) =
      decimal ev.pid :: decimal ev.tid :: decimal ev.ptid :: decimal ev.ts ::
        splitUnescaped 124 false t := by
  simp only [exportHead, List.append_assoc, List.cons_append, splitUnescaped_decimal,
    List.nil_append]

/-- **A row** that begins as the line of an event is the row of the event. -/
theorem readRow_head {t : List Byte} (h : readRow accepts (exportHead ev ++ t) = some row) :
    row.Of ev := by
  obtain ⟨cols, hcols, hrow⟩ := Option.bind_eq_some_iff.1 h
  rw [splitUnescaped_head] at hcols
  obtain ⟨pid, cols₁, hpid, hcols₁, rfl⟩ := mapM_cons_eq_some hcols
  obtain ⟨tid, cols₂, htid, hcols₂, rfl⟩ := mapM_cons_eq_some hcols₁
  obtain ⟨ptid, cols₃, hptid, hcols₃, rfl⟩ := mapM_cons_eq_some hcols₂
  obtain ⟨ts, cols₄, hts, -, rfl⟩ := mapM_cons_eq_some hcols₃
  rw [copyColumn_decimal, Option.some_inj] at hpid htid hptid hts
  subst hpid htid hptid hts
  unfold evRow at hrow
  split at hrow
  · next hlist =>
    cases hlist
    obtain ⟨pid, hpid, hrow⟩ := Option.bind_eq_some_iff.1 hrow
    obtain ⟨tid, htid, hrow⟩ := Option.bind_eq_some_iff.1 hrow
    obtain ⟨ptid, hptid, hrow⟩ := Option.bind_eq_some_iff.1 hrow
    obtain ⟨ts, hts, hrow⟩ := Option.bind_eq_some_iff.1 hrow
    simp only [Option.bind_eq_bind, Option.bind_eq_some_iff] at hrow
    obtain ⟨prog, -, sc, -, rv, -, arg1, -, arg2, -, arg3, -, str, -, hrow⟩ := hrow
    cases hrow
    exact ⟨intIn_decimal hpid, intIn_decimal htid, intIn_decimal hptid, intIn_decimal hts⟩
  · cases hrow

/-- The event has a program of one character and the name of a system call. -/
structure FullEvent.Named (ev : FullEvent) : Prop where
  prog : ∃ nm, ev.prog = [nm]
  word : ∀ b ∈ ascii ev.scStr, isWord b

theorem eventOfLogentry_named {S : Syscalls} {le : LogentryThaw}
    (h : eventOfLogentry S le = .ok ev) : ev.Named := by
  unfold eventOfLogentry at h
  obtain ⟨ptid, -, h⟩ := bind_eq_ok h
  cases h
  exact ⟨⟨_, rfl⟩, S.word _⟩

/-- What a line has behind the program. -/
def exportTail (ev : FullEvent) : List Byte :=
  ascii ev.scStr ++ 124 :: (decimal ev.rv ++ 124 :: (decimal ev.arg1 ++ 124 ::
    (decimal ev.arg2 ++ 124 :: (decimal ev.arg3 ++ 124 :: exportStr ev.str))))

theorem exportLine_eq {nm : Byte} (h : ev.prog = [nm]) :
    exportLine ev = exportHead ev ++ nm :: 124 :: exportTail ev := by
  have hbar : ascii "|" = [124] := by decide
  unfold exportLine exportHead exportTail
  rw [hbar, h]
  simp

theorem notMem_escapeString {c : Byte} {s : List Byte} (h : c ∉ s) : c ∉ escapeString s := by
  unfold escapeString
  rw [List.mem_flatMap]
  rintro ⟨b, hb, hc⟩
  have hbc : b = c := by
    split at hc <;> simpa [eq_comm] using hc
  exact h (hbc ▸ hb)

theorem notMem_globalReplace {c d : Byte} {templ s : List Byte} (htempl : c ∉ templ)
    (h : c ∉ s ∨ d = c) : c ∉ globalReplace d templ s := by
  unfold globalReplace
  rw [List.mem_flatMap]
  rintro ⟨b, hb, hc⟩
  split at hc
  · exact htempl hc
  · next hbd =>
    rw [List.mem_singleton] at hc
    subst hc
    exact h.elim (fun hs => hs hb) fun hd => hbd hd.symm

/-- A string is exported without its newlines. -/
theorem newline_notMem_exportStr (s : List Byte) : 10 ∉ exportStr s := by
  have hstr : 10 ∉ escapeString (globalReplace 10 (ascii "_NEWLINE_") s) :=
    notMem_escapeString (notMem_globalReplace (by decide) (.inr rfl))
  have hcr : 10 ∉ globalReplace 13 (ascii "_NEWLINER_")
      (escapeString (globalReplace 10 (ascii "_NEWLINE_") s)) :=
    notMem_globalReplace (by decide) (.inl hstr)
  have hstr2 := notMem_escapeString hcr
  simp only [exportStr]
  split
  · exact fun h => hstr2 (List.mem_of_mem_take h)
  · exact hstr2

theorem FullEvent.Named.notMem (h : ev.Named) {c : Byte} (hc : isWord c = false) :
    c ∉ ascii ev.scStr := by
  intro hmem
  rw [h.word c hmem] at hc
  cases hc

theorem newline_notMem_head (ev : FullEvent) : 10 ∉ exportHead ev := by
  have hnum : ∀ x, (10 : Byte) ∉ decimal x := fun x => notMem_decimal x (by decide) (by decide)
  simp [exportHead, hnum]

theorem newline_notMem_tail (h : ev.Named) : 10 ∉ exportTail ev := by
  have hnum : ∀ x, (10 : Byte) ∉ decimal x := fun x => notMem_decimal x (by decide) (by decide)
  simp [exportTail, hnum, h.notMem (c := 10) (by decide), newline_notMem_exportStr]

theorem escapes_head (ev : FullEvent) : escapes false (exportHead ev) = false := by
  have hnum : ∀ x, (92 : Byte) ∉ decimal x := fun x => notMem_decimal x (by decide) (by decide)
  apply escapes_of_plain
  simp [exportHead, hnum]

theorem separators_head (ev : FullEvent) (t : List Byte) :
    separators 124 false (exportHead ev ++ t) = separators 124 false t + 4 := by
  have hlen := length_splitUnescaped 124 false (exportHead ev ++ t)
  rw [splitUnescaped_head] at hlen
  simp only [List.length_cons, length_splitUnescaped] at hlen
  omega

/-- A column without a backslash, in front of the others. -/
theorem separators_column {p : List Byte} (h : 92 ∉ p) (t : List Byte) :
    separators 124 false t + 1 ≤ separators 124 false (p ++ 124 :: t) := by
  rw [separators_append (by decide), escapes_of_plain h, separators, if_pos rfl]
  omega

theorem separators_tail (h : ev.Named) : 5 ≤ separators 124 false (exportTail ev) := by
  have hnum : ∀ x, (92 : Byte) ∉ decimal x := fun x => notMem_decimal x (by decide) (by decide)
  have h₅ := separators_column (hnum ev.arg3) (exportStr ev.str)
  have h₄ := separators_column (hnum ev.arg2) (decimal ev.arg3 ++ 124 :: exportStr ev.str)
  have h₃ := separators_column (hnum ev.arg1)
    (decimal ev.arg2 ++ 124 :: (decimal ev.arg3 ++ 124 :: exportStr ev.str))
  have h₂ := separators_column (hnum ev.rv) (decimal ev.arg1 ++ 124 ::
    (decimal ev.arg2 ++ 124 :: (decimal ev.arg3 ++ 124 :: exportStr ev.str)))
  have h₁ := separators_column (h.notMem (c := 92) (by decide)) (decimal ev.rv ++ 124 ::
    (decimal ev.arg1 ++ 124 :: (decimal ev.arg2 ++ 124 :: (decimal ev.arg3 ++ 124 ::
      exportStr ev.str))))
  unfold exportTail
  omega

/-- The program may hide the delimiter behind it, but no other. -/
theorem separators_line {nm : Byte} (hev : ev.Named) (h : ev.prog = [nm]) :
    9 ≤ separators 124 false (exportLine ev) := by
  have htail := separators_tail hev
  rw [exportLine_eq h, separators_head, separators]
  split
  · rw [separators, if_pos rfl]
    omega
  · by_cases h92 : nm = 92
    · rw [decide_eq_true h92, separators]
      omega
    · rw [decide_eq_false h92, separators, if_pos rfl]
      omega

/-- **The rows** that are copied are those of the events, one for each. -/
theorem copyEvTmp_rows {evs : List FullEvent} (hevs : ∀ ev ∈ evs, ev.Named) {rows : List EvRow}
    (h : copyEvTmp accepts (exportLines evs) = some rows) :
    List.Forall₂ (fun ev row => row.Of ev) evs rows := by
  induction evs generalizing rows with
  | nil =>
    cases h
    exact .nil
  | cons ev evs ih =>
    obtain ⟨hev, hevs⟩ := List.forall_mem_cons.1 hevs
    obtain ⟨nm, hnm⟩ := hev.prog
    have hfile : exportLines (ev :: evs) = exportLine ev ++ 10 :: exportLines evs := by
      rw [exportLines, List.flatMap_cons, List.append_assoc]
      rfl
    rw [copyEvTmp, hfile] at h
    by_cases hnl : nm = 10
    · -- the line is cut in two behind the time
      have hcut : exportLine ev ++ 10 :: exportLines evs =
          exportHead ev ++ 10 :: (124 :: exportTail ev ++ 10 :: exportLines evs) := by
        rw [exportLine_eq hnm, hnl, List.append_assoc]
        rfl
      rw [hcut, copyLines_front (separators_of_notMem (newline_notMem_head ev))
        (escapes_head ev)] at h
      obtain ⟨row, rows', hrow, -, -⟩ := mapM_cons_eq_some h
      have hsep := separators_of_readRow hrow
      have hhead := separators_head ev []
      rw [List.append_nil] at hhead
      rw [hhead] at hsep
      cases hsep
    · have hline : 10 ∉ exportLine ev := by
        rw [exportLine_eq hnm]
        simp [newline_notMem_head, newline_notMem_tail hev, Ne.symm hnl]
      rcases hesc : escapes false (exportLine ev) with _ | _
      · rw [copyLines_front (separators_of_notMem hline) hesc] at h
        obtain ⟨row, rows', hrow, hrows, rfl⟩ := mapM_cons_eq_some h
        rw [exportLine_eq hnm] at hrow
        exact .cons (readRow_head hrow) (ih hevs hrows)
      · -- the string ends with a backslash, which escapes the newline
        obtain ⟨p, ps, hp, hsplit⟩ :=
          splitUnescaped_append (separators_of_notMem (e := false) hline) (10 :: exportLines evs)
        rw [hesc, splitUnescaped] at hp
        have hne : exportLine ev ++ p ≠ [] := by
          rw [exportLine_eq hnm]
          simp [exportHead]
        rw [copyLines_cons hsplit hne] at h
        obtain ⟨row, rows', hrow, hrows, rfl⟩ := mapM_cons_eq_some h
        rcases evs with _ | ⟨ev', evs⟩
        · cases hp
          cases hrows
          rw [exportLine_eq hnm, List.append_assoc] at hrow
          exact .cons (readRow_head hrow) .nil
        · -- with the beginning of the next line the line has too many columns
          obtain ⟨nm', hnm'⟩ := (List.forall_mem_cons.1 hevs).1.prog
          have hnext : exportLines (ev' :: evs) =
              exportHead ev' ++ (nm' :: 124 :: exportTail ev' ++ 10 :: exportLines evs) := by
            rw [exportLines, List.flatMap_cons, exportLine_eq hnm']
            simp [exportLines]
          obtain ⟨q, qs, -, hq⟩ := splitUnescaped_append
            (separators_of_notMem (e := false) (newline_notMem_head ev'))
            (nm' :: 124 :: exportTail ev' ++ 10 :: exportLines evs)
          rw [hnext, hq] at hp
          cases hp
          have hsep := separators_of_readRow hrow
          have hmany := separators_line hev hnm
          rw [separators_append (by decide), hesc, separators, separators_head] at hsep
          omega

end BorderPatrol.Agg
