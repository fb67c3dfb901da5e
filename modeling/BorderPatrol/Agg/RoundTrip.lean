import BorderPatrol.Agg.Db
import Mathlib.Algebra.Group.Even

/-!
# What is read back of an event

`store_event_out` writes an event as a line, and `COPY` splits the line into columns. The numbers
and the name of the system call are always read back as they are; the program is, but for four
characters. The string is escaped twice as an SQL literal, where `COPY` expects its own escapes: a
quote is read back as four, a backslash as two, a `|` ends the column. What is read back is a
beginning of the string only when the cut at 149 bytes comes before that shows
(`roundTrips_iff`).
-/

namespace BorderPatrol.Agg

open Foundations Logd
open scoped List

variable {ev : FullEvent} {nm : Byte} {s t u : List Byte}

/-- The columns of a line, or nothing when one is null or refused. -/
def copyRow (line : List Byte) : Option (List (List Byte)) :=
  (splitUnescaped 124 false line).mapM copyColumn

/-- The rows of a file as `COPY` reads them. -/
def copyRows (file : List Byte) : Option (List (List (List Byte))) := (copyLines file).mapM copyRow

/-- The first ten columns: pid, tid, ptid, ts, prog, sc, rv, arg1, arg2 and arg3. -/
def firstColumns (ev : FullEvent) : List (List Byte) :=
  [decimal ev.pid, decimal ev.tid, decimal ev.ptid, decimal ev.ts, ev.prog, ascii ev.scStr,
    decimal ev.rv, decimal ev.arg1, decimal ev.arg2, decimal ev.arg3]

/-- A string after the substitutions of the newlines and of the carriage returns. -/
def substituted (s : List Byte) : List Byte :=
  globalReplace 13 (ascii "_NEWLINER_") (globalReplace 10 (ascii "_NEWLINE_") s)

/-- What is written of an event is read back as one row, with the values of the event and a
beginning of its string. -/
def RoundTrips (ev : FullEvent) : Prop :=
  ∃ str, str <+: substituted ev.str ∧ copyRows (storeEventOut ev) = some [firstColumns ev ++ [str]]

/-- A quote, a backslash or a delimiter. -/
def isSpecial (b : Byte) : Bool := b = 39 || b = 92 || b = 124

/-- The string is cut before it shows that its first special character was escaped: when there are
`m` bytes left for it and what is behind, these begin with `m` quotes or, for an even `m`, with half
as many backslashes. -/
def CutInTime (u : List Byte) : Prop :=
  let m := 149 - (u.takeWhile fun b => !isSpecial b).length
  let t := u.dropWhile fun b => !isSpecial b
  t = [] ∨ List.replicate m 39 <+: t ∨ Even m ∧ List.replicate (m / 2) 92 <+: t

/-- The event is exported, its program is not one of the characters that `COPY` takes for something
else, and its string is cut in time. -/
structure Exportable (ev : FullEvent) : Prop where
  notSkipped : ¬ Skipped ev.str
  prog : ∀ b ∈ ev.prog, b ∉ [10, 13, 92, 124]
  str : CutInTime (substituted ev.str)

/-! ## The string as it is exported -/

/-- A quote and a backslash are written four times. -/
def quadruple (b : Byte) : List Byte := if b = 39 ∨ b = 92 then List.replicate 4 b else [b]

theorem exportStr_eq (s : List Byte) :
    exportStr s = ((substituted s).flatMap quadruple).take 149 := by
  have hnl : (ascii "_NEWLINER_").flatMap quadruple = ascii "_NEWLINER_" := by decide
  have hesc : escapeString (ascii "_NEWLINER_") = ascii "_NEWLINER_" := by decide
  have htwice : escapeString (globalReplace 13 (ascii "_NEWLINER_")
      (escapeString (globalReplace 10 (ascii "_NEWLINE_") s))) =
        (substituted s).flatMap quadruple := by
    rw [substituted]
    generalize globalReplace 10 (ascii "_NEWLINE_") s = t
    induction t with
    | nil => rfl
    | cons b t ih =>
      have hcons : escapeString (globalReplace 13 (ascii "_NEWLINER_") (escapeString [b])) =
          (globalReplace 13 (ascii "_NEWLINER_") [b]).flatMap quadruple := by
        by_cases h13 : b = 13
        · subst h13
          exact hesc.trans hnl.symm
        · by_cases hb : b = 39 ∨ b = 92
          · simp [escapeString, globalReplace, quadruple, h13, hb]
          · simp [escapeString, globalReplace, quadruple, h13, hb]
      simp only [escapeString, globalReplace, List.flatMap_cons, List.flatMap_append,
        List.flatMap_nil, List.append_nil] at hcons ih ⊢
      rw [hcons, ih]
  rw [exportStr]
  simp only [htwice]
  split
  · rfl
  · rw [List.take_of_length_le (by omega)]

theorem newline_notMem_substituted (s : List Byte) : 10 ∉ substituted s :=
  notMem_globalReplace (by decide) (.inl (notMem_globalReplace (by decide) (.inr rfl)))

theorem return_notMem_exportStr (s : List Byte) : 13 ∉ exportStr s := by
  have hstr2 : 13 ∉ escapeString (globalReplace 13 (ascii "_NEWLINER_")
      (escapeString (globalReplace 10 (ascii "_NEWLINE_") s))) :=
    notMem_escapeString (notMem_globalReplace (by decide) (.inr rfl))
  simp only [exportStr]
  split
  · exact fun h => hstr2 (List.mem_of_mem_take h)
  · exact hstr2

theorem flatMap_quadruple_replicate {b : Byte} (h : b = 39 ∨ b = 92) (n : ℕ) :
    (List.replicate n b).flatMap quadruple = List.replicate (4 * n) b := by
  induction n with
  | zero => rfl
  | succ n ih =>
    rw [List.replicate_succ, List.flatMap_cons, ih, quadruple, if_pos h, ← List.replicate_add]
    congr 1
    omega

theorem flatMap_quadruple_of_plain (h : ∀ b ∈ u, isSpecial b = false) :
    u.flatMap quadruple = u := by
  induction u with
  | nil => rfl
  | cons b u ih =>
    obtain ⟨hb, hu⟩ := List.forall_mem_cons.1 h
    have hne : ¬ (b = 39 ∨ b = 92) := by
      rintro (rfl | rfl) <;> cases hb
    rw [List.flatMap_cons, ih hu, quadruple, if_neg hne]
    rfl

/-! ## The last column -/

/-- What the last column has in it. A backslash at its end escapes the newline of the line. -/
def lastColumn (w : List Byte) : List Byte := if escapes false w then w ++ [10] else w

/-- The last column is read as a beginning of `u`. -/
def ReadsPrefix (w u : List Byte) : Prop :=
  ∃ str, str <+: u ∧ copyRow (lastColumn w) = some [str]

/-- A column is alone when it has no delimiter. -/
theorem copyRow_eq_singleton {line str : List Byte} : copyRow line = some [str] ↔
    separators 124 false line = 0 ∧ copyColumn line = some str := by
  rw [copyRow, mapM_eq_some_singleton]
  constructor
  · rintro ⟨a, ha, hcol⟩
    have hsep : separators 124 false line = 0 := by
      have hlen := length_splitUnescaped 124 false line
      rw [ha, List.length_singleton] at hlen
      omega
    rw [splitUnescaped_of_separators hsep] at ha
    cases ha
    exact ⟨hsep, hcol⟩
  · rintro ⟨hsep, hcol⟩
    exact ⟨line, splitUnescaped_of_separators hsep, hcol⟩

theorem copyColumn_of_ne (h : t ≠ [92, 78]) (h₁₃ : 13 ∉ t) : copyColumn t = some (unescape t) :=
  if_neg (by simp [h, separators_of_notMem h₁₃])

/-- The number of bytes `c` that a text begins with. -/
def leadRun (c : Byte) (t : List Byte) : ℕ := (t.takeWhile (· = c)).length

theorem eq_replicate_leadRun (c : Byte) (t : List Byte) :
    ∃ r, t = List.replicate (leadRun c t) c ++ r := by
  have hrep : t.takeWhile (· = c) = List.replicate (leadRun c t) c :=
    List.eq_replicate_of_mem fun b hb => by simpa using List.mem_takeWhile_imp hb
  exact ⟨t.dropWhile (· = c), by rw [← hrep, List.takeWhile_append_dropWhile]⟩

theorem replicate_prefix_iff {c : Byte} {n : ℕ} : List.replicate n c <+: t ↔ n ≤ leadRun c t := by
  constructor
  · rintro ⟨r, rfl⟩
    rw [leadRun, List.takeWhile_append_of_pos (by simp), List.length_append, List.length_replicate]
    omega
  · intro h
    obtain ⟨r, hr⟩ := eq_replicate_leadRun c t
    obtain ⟨d, hd⟩ := Nat.exists_eq_add_of_le h
    rw [hd, List.replicate_add, List.append_assoc] at hr
    exact ⟨_, hr.symm⟩

/-- The quadruples of a run, cut inside of them. -/
theorem take_quadruples {c : Byte} (hc : c = 39 ∨ c = 92) {n : ℕ} (h : n ≤ 4 * leadRun c t) :
    (t.flatMap quadruple).take n = List.replicate n c := by
  obtain ⟨r, hr⟩ := eq_replicate_leadRun c t
  rw [hr, List.flatMap_append, flatMap_quadruple_replicate hc, List.take_append_of_le_length
    (by rwa [List.length_replicate]), List.take_replicate, Nat.min_eq_left h]

/-- The quadruples begin with more than the run. -/
theorem take_quadruples_prefix {c : Byte} (hc : c = 39 ∨ c = 92) {k n : ℕ} (hkn : k ≤ n)
    (hk : k ≤ 4 * leadRun c t) : List.replicate k c <+: (t.flatMap quadruple).take n := by
  rw [← take_quadruples hc hk]
  exact List.take_prefix_take_left hkn

section Cut

variable {v : List Byte} {m : ℕ}

/-- A column that begins with plain text. -/
theorem prefix_of_readsPrefix (hv : 92 ∉ v) {x : List Byte} (h : ReadsPrefix (v ++ x) (v ++ t)) :
    ∃ z, lastColumn (v ++ x) = v ++ x ++ z ∧ unescape (x ++ z) <+: t := by
  obtain ⟨str, hstr, hrow⟩ := h
  obtain ⟨-, hcol⟩ := copyRow_eq_singleton.1 hrow
  rw [copyColumn, Option.ite_none_left_eq_some] at hcol
  obtain ⟨z, hz⟩ : ∃ z, lastColumn (v ++ x) = v ++ x ++ z := by
    rw [lastColumn]
    split
    · exact ⟨[10], rfl⟩
    · exact ⟨[], (List.append_nil _).symm⟩
  refine ⟨z, hz, ?_⟩
  rw [← Option.some_inj.1 hcol.2, hz, List.append_assoc, unescape_append hv,
    List.prefix_append_right_inj] at hstr
  exact hstr

/-- A column of plain text is read as it is. -/
theorem readsPrefix_of_plain {w : List Byte} (h92 : 92 ∉ w) (h124 : 124 ∉ w) (h13 : 13 ∉ w)
    (hpre : w <+: u) : ReadsPrefix w u := by
  refine ⟨w, hpre, ?_⟩
  rw [lastColumn, escapes_of_plain h92, if_neg Bool.false_ne_true, copyRow_eq_singleton]
  exact ⟨separators_of_notMem h124, copyColumn_of_plain h92 h13⟩

/-- Quotes behind plain text. -/
theorem readsPrefix_quotes_iff (h92 : 92 ∉ v) (h124 : 124 ∉ v) (h13 : 13 ∉ v)
    (ht : 0 < leadRun 39 t) : ReadsPrefix (v ++ (t.flatMap quadruple).take m) (v ++ t) ↔
      List.replicate m 39 <+: t := by
  rw [replicate_prefix_iff]
  constructor
  · intro h
    obtain ⟨z, -, hpre⟩ := prefix_of_readsPrefix h92 h
    by_contra hlt
    obtain ⟨y, hy⟩ := take_quadruples_prefix (t := t) (c := 39) (.inl rfl)
      (k := leadRun 39 t + 1) (n := m) (by omega) (by omega)
    rw [← hy, List.append_assoc, unescape_append (by simp)] at hpre
    have hrun := replicate_prefix_iff.1 ((List.prefix_append _ _).trans hpre)
    omega
  · intro h
    rw [take_quadruples (.inl rfl) (by omega)]
    refine readsPrefix_of_plain ?_ ?_ ?_ ?_
    · simp [h92]
    · simp [h124]
    · simp [h13]
    · rw [List.prefix_append_right_inj]
      exact replicate_prefix_iff.2 h

/-- Backslashes behind plain text. An odd one at the end escapes the newline. -/
theorem readsPrefix_backslashes_iff (h92 : 92 ∉ v) (h124 : 124 ∉ v) (h13 : 13 ∉ v) (h10 : 10 ∉ t)
    (hm : 2 < v.length + m) (ht : 0 < leadRun 92 t) :
    ReadsPrefix (v ++ (t.flatMap quadruple).take m) (v ++ t) ↔
      Even m ∧ List.replicate (m / 2) 92 <+: t := by
  have hesc : ∀ j x, escapes false (v ++ (List.replicate (2 * j) 92 ++ x)) = escapes false x := by
    intro j x
    rw [escapes_append, escapes_of_plain h92, escapes_backslashes]
  rw [replicate_prefix_iff]
  constructor
  · intro h
    obtain ⟨z, hz, hpre⟩ := prefix_of_readsPrefix h92 h
    have hle : m ≤ 2 * leadRun 92 t + 1 := by
      by_contra hlt
      obtain ⟨y, hy⟩ := take_quadruples_prefix (t := t) (c := 92) (.inr rfl)
        (k := 2 * (leadRun 92 t + 1)) (n := m) (by omega) (by omega)
      rw [← hy, List.append_assoc, unescape_backslashes] at hpre
      have hrun := replicate_prefix_iff.1 ((List.prefix_append _ _).trans hpre)
      omega
    have htake : (t.flatMap quadruple).take m = List.replicate m 92 :=
      take_quadruples (.inr rfl) (by omega)
    rw [htake] at hz hpre
    rcases Nat.even_or_odd' m with ⟨j, rfl | rfl⟩
    · exact ⟨even_two_mul j, by omega⟩
    · -- the value would end with a newline
      have hlast : lastColumn (v ++ List.replicate (2 * j + 1) 92) =
          v ++ List.replicate (2 * j + 1) 92 ++ [10] := by
        rw [lastColumn, List.replicate_succ', hesc, show escapes false [92] = true from rfl,
          if_pos rfl]
      obtain rfl := List.append_cancel_left (hz.symm.trans hlast)
      rw [List.replicate_succ', List.append_assoc, unescape_backslashes] at hpre
      have hmem : (10 : Byte) ∈ t :=
        hpre.subset (List.mem_append_right _ (List.mem_singleton.2 rfl))
      exact absurd hmem h10
  · rintro ⟨⟨j, rfl⟩, hj⟩
    rw [← Nat.two_mul] at hm hj ⊢
    rw [Nat.mul_div_cancel_left j two_pos] at hj
    rw [take_quadruples (.inr rfl) (by omega)]
    have hlast : lastColumn (v ++ List.replicate (2 * j) 92) = v ++ List.replicate (2 * j) 92 := by
      have hnil := hesc j []
      rw [List.append_nil] at hnil
      rw [lastColumn, hnil]
      rfl
    refine ⟨v ++ List.replicate j 92, ?_, ?_⟩
    · rw [List.prefix_append_right_inj]
      exact replicate_prefix_iff.2 hj
    · rw [hlast, copyRow_eq_singleton]
      refine ⟨separators_of_notMem (by simp [h124]), ?_⟩
      have hne : v ++ List.replicate (2 * j) 92 ≠ [92, 78] := by
        intro h
        have hlen := congrArg List.length h
        simp at hlen
        omega
      rw [copyColumn_of_ne hne (by simp [h13]), unescape_append h92]
      have hunescape := unescape_backslashes j []
      rw [List.append_nil] at hunescape
      rw [hunescape]
      exact congrArg some (congrArg (v ++ ·) (List.append_nil _))

end Cut

/-- **The string** is read back as a beginning of itself if and only if it is cut in time. -/
theorem readsPrefix_iff (h10 : 10 ∉ u) (h13 : 13 ∉ (u.flatMap quadruple).take 149) :
    ReadsPrefix ((u.flatMap quadruple).take 149) u ↔ CutInTime u := by
  have hsplit : (u.takeWhile fun b => !isSpecial b) ++ (u.dropWhile fun b => !isSpecial b) = u :=
    List.takeWhile_append_dropWhile
  have hhead := List.head?_dropWhile_not (fun b => !isSpecial b) u
  have hv : ∀ b ∈ u.takeWhile fun b => !isSpecial b, isSpecial b = false := by
    intro b hb
    simpa using List.mem_takeWhile_imp hb
  rw [CutInTime]
  generalize (u.takeWhile fun b => !isSpecial b) = v at hsplit hv ⊢
  generalize (u.dropWhile fun b => !isSpecial b) = t at hsplit hhead ⊢
  subst hsplit
  have hplain : ∀ c, isSpecial c = true → c ∉ v := by
    intro c hc hmem
    rw [hv c hmem] at hc
    cases hc
  have h92 : 92 ∉ v := hplain 92 rfl
  have h124 : 124 ∉ v := hplain 124 rfl
  have hw : ((v ++ t).flatMap quadruple).take 149 =
      v.take 149 ++ (t.flatMap quadruple).take (149 - v.length) := by
    rw [List.flatMap_append, flatMap_quadruple_of_plain hv, List.take_append]
  rw [hw] at h13 ⊢
  have h13v : 13 ∉ v.take 149 := fun h => h13 (List.mem_append_left _ h)
  rcases Nat.lt_or_ge v.length 149 with hlen | hlen
  · rw [List.take_of_length_le hlen.le] at h13v ⊢
    rcases t with _ | ⟨c, t⟩
    · refine iff_of_true ?_ (.inl rfl)
      rw [List.flatMap_nil, List.take_nil, List.append_nil]
      exact readsPrefix_of_plain h92 h124 h13v List.prefix_rfl
    · have hpos : 0 < leadRun c (c :: t) := by simp [leadRun]
      have hm : 0 < 149 - v.length := by omega
      have hhd : ∀ {n d}, 0 < n → List.replicate n d <+: c :: t → d = c := by
        intro n d hn hpre
        obtain ⟨n, rfl⟩ := Nat.exists_eq_succ_of_ne_zero hn.ne'
        exact (List.cons_prefix_cons.1 hpre).1
      have heven : Even (149 - v.length) → 0 < (149 - v.length) / 2 := by
        rintro ⟨j, hj⟩
        omega
      have hc : c = 39 ∨ c = 92 ∨ c = 124 := by
        have hspecial : isSpecial c = true := by simpa using hhead
        simpa [isSpecial, or_assoc] using hspecial
      simp only [reduceCtorEq, false_or]
      rcases hc with rfl | rfl | rfl
      · rw [readsPrefix_quotes_iff h92 h124 h13v hpos, or_iff_left]
        rintro ⟨hev, hpre⟩
        exact absurd (hhd (heven hev) hpre) (by decide)
      · rw [readsPrefix_backslashes_iff h92 h124 h13v (fun h => h10 (List.mem_append_right _ h))
          (by omega) hpos, or_iff_right]
        intro hpre
        exact absurd (hhd hm hpre) (by decide)
      · -- the delimiter ends the column
        refine iff_of_false ?_ ?_
        · rintro ⟨str, -, hrow⟩
          have hsep := (copyRow_eq_singleton.1 hrow).1
          obtain ⟨m, hm⟩ := Nat.exists_eq_succ_of_ne_zero hm.ne'
          have hz : ∃ z, lastColumn (v ++ (List.flatMap quadruple (124 :: t)).take
              (149 - v.length)) = v ++ 124 :: z := by
            rw [hm, lastColumn]
            split
            · exact ⟨_, by rw [List.append_assoc]; rfl⟩
            · exact ⟨_, rfl⟩
          obtain ⟨z, hz⟩ := hz
          rw [hz] at hsep
          have hone := separators_column h92 z
          omega
        · rintro (hpre | ⟨hev, hpre⟩)
          · exact absurd (hhd hm hpre) (by decide)
          · exact absurd (hhd (heven hev) hpre) (by decide)
  · -- the cut is before the first special character
    have hm : 149 - v.length = 0 := by omega
    rw [hm, List.take_zero, List.append_nil]
    refine iff_of_true ?_ (.inr (.inl (List.nil_prefix)))
    exact readsPrefix_of_plain (fun h => h92 (List.mem_of_mem_take h))
      (fun h => h124 (List.mem_of_mem_take h)) h13v
      ((List.take_prefix 149 v).trans (List.prefix_append v t))

/-! ## The line -/

/-- What a line has between the program and the string. -/
def exportMiddle (ev : FullEvent) : List Byte :=
  ascii ev.scStr ++ 124 :: (decimal ev.rv ++ 124 :: (decimal ev.arg1 ++ 124 ::
    (decimal ev.arg2 ++ 124 :: (decimal ev.arg3 ++ [124]))))

theorem exportTail_eq (ev : FullEvent) : exportTail ev = exportMiddle ev ++ exportStr ev.str := by
  simp [exportTail, exportMiddle]

theorem splitUnescaped_middle (hev : ev.Named) (t : List Byte) :
    splitUnescaped 124 false (exportMiddle ev ++ t) =
      ascii ev.scStr :: decimal ev.rv :: decimal ev.arg1 :: decimal ev.arg2 :: decimal ev.arg3 ::
        splitUnescaped 124 false t := by
  have hsc : ∀ m, splitUnescaped 124 false (ascii ev.scStr ++ 124 :: m) =
      ascii ev.scStr :: splitUnescaped 124 false m := fun m =>
    splitUnescaped_front (separators_of_notMem (hev.notMem (by decide)))
      (escapes_of_plain (hev.notMem (by decide))) m
  simp only [exportMiddle, List.append_assoc, List.cons_append, hsc, splitUnescaped_decimal,
    List.nil_append]

theorem escapes_middle (hev : ev.Named) : escapes false (exportMiddle ev) = false := by
  have hnum : ∀ x, (92 : Byte) ∉ decimal x := fun x => notMem_decimal x (by decide) (by decide)
  apply escapes_of_plain
  simp [exportMiddle, hnum, hev.notMem (c := 92) (by decide)]

/-- The columns of a line that begins as the line of an event. -/
theorem copyRow_head (ev : FullEvent) (t : List Byte) : copyRow (exportHead ev ++ t) =
    (copyRow t).map fun cols => decimal ev.pid :: decimal ev.tid :: decimal ev.ptid ::
      decimal ev.ts :: cols := by
  simp only [copyRow, splitUnescaped_head, List.mapM_cons, copyColumn_decimal, Option.bind_eq_bind,
    Option.bind_some, Option.pure_def]
  cases List.mapM copyColumn (splitUnescaped 124 false t) <;> rfl

theorem copyRow_middle (hev : ev.Named) (t : List Byte) : copyRow (exportMiddle ev ++ t) =
    (copyRow t).map fun cols => ascii ev.scStr :: decimal ev.rv :: decimal ev.arg1 ::
      decimal ev.arg2 :: decimal ev.arg3 :: cols := by
  have hsc : copyColumn (ascii ev.scStr) = some (ascii ev.scStr) :=
    copyColumn_of_plain (hev.notMem (by decide)) (hev.notMem (by decide))
  simp only [copyRow, splitUnescaped_middle hev, List.mapM_cons, copyColumn_decimal, hsc,
    Option.bind_eq_bind, Option.bind_some, Option.pure_def]
  cases List.mapM copyColumn (splitUnescaped 124 false t) <;> rfl

/-- A line and its newline are one row, with the newline in it when that is escaped. -/
theorem copyRows_line {line : List Byte} (h : 10 ∉ line) :
    copyRows (line ++ [10]) = (copyRow (lastColumn line)).map fun row => [row] := by
  have hlines : copyLines (line ++ [10]) = [lastColumn line] := by
    rw [lastColumn]
    rcases hesc : escapes false line with _ | _
    · rw [copyLines_front (separators_of_notMem h) hesc]
      rfl
    · have hsep : separators 10 false (line ++ [10]) = 0 := by
        rw [separators_append (by decide), separators_of_notMem h, hesc]
        rfl
      rw [if_pos rfl, copyLines_cons (splitUnescaped_of_separators hsep) (by simp)]
      rfl
  rw [copyRows, hlines, List.mapM_cons, List.mapM_nil]
  cases copyRow (lastColumn line) <;> rfl

/-- The rest of a line, from the program on. -/
theorem lastColumn_line (hev : ev.Named) (nm : Byte) (w : List Byte) :
    lastColumn (exportHead ev ++ nm :: 124 :: (exportMiddle ev ++ w)) =
      exportHead ev ++ nm :: 124 :: (exportMiddle ev ++ lastColumn w) := by
  have hesc : escapes false (exportHead ev ++ nm :: 124 :: (exportMiddle ev ++ w)) =
      escapes false w := by
    have hnm : escapes false (nm :: 124 :: (exportMiddle ev ++ w)) =
        escapes false (exportMiddle ev ++ w) := by
      rw [escapes]
      by_cases h92 : nm = 92
      · rw [decide_eq_true h92, escapes]
      · rw [decide_eq_false h92, escapes]
        rfl
    rw [escapes_append, escapes_head, hnm, escapes_append, escapes_middle hev]
  rw [lastColumn, hesc, lastColumn]
  split
  · simp
  · rfl

/-- The column of the program, and what follows. A program that `COPY` takes for something else is
not read as itself. -/
theorem copyRow_prog (nm : Byte) (t : List Byte) (h10 : nm ≠ 10) (cols : List (List Byte)) :
    copyRow (nm :: 124 :: t) = some ([nm] :: cols) ↔
      nm ∉ ([10, 13, 92, 124] : List Byte) ∧ copyRow t = some cols := by
  simp only [List.mem_cons, List.not_mem_nil, or_false, not_or]
  by_cases h124 : nm = 124
  · subst h124
    refine iff_of_false (fun h => ?_) fun h => h.1.2.2.2 rfl
    rw [copyRow, splitUnescaped, if_pos rfl] at h
    obtain ⟨c, cs, hc, -, heq⟩ := mapM_cons_eq_some h
    cases hc
    cases heq
  by_cases h92 : nm = 92
  · subst h92
    refine iff_of_false (fun h => ?_) fun h => h.1.2.2.1 rfl
    obtain ⟨p, ps, hp⟩ := List.exists_cons_of_ne_nil (splitUnescaped_ne_nil 124 false t)
    have hsplit : splitUnescaped 124 false (92 :: 124 :: t) = (92 :: 124 :: p) :: ps := by
      rw [splitUnescaped, if_neg (by decide), decide_eq_true rfl, splitUnescaped, hp]
      rfl
    rw [copyRow, hsplit] at h
    obtain ⟨c, cs, hc, -, heq⟩ := mapM_cons_eq_some h
    rw [copyColumn, Option.ite_none_left_eq_some] at hc
    have hhead : (unescape (92 :: 124 :: p)).head? = some 124 := rfl
    rw [Option.some_inj.1 hc.2, ← (List.cons.inj heq).1] at hhead
    cases hhead
  have hsplit : splitUnescaped 124 false (nm :: 124 :: t) = [nm] :: splitUnescaped 124 false t :=
    splitUnescaped_front (l := [nm]) (separators_of_notMem (by simpa using Ne.symm h124))
      (escapes_of_plain (by simpa using Ne.symm h92)) t
  rw [copyRow, hsplit]
  by_cases h13 : nm = 13
  · subst h13
    refine iff_of_false (fun h => ?_) fun h => h.1.2.1 rfl
    obtain ⟨c, cs, hc, -, -⟩ := mapM_cons_eq_some h
    cases hc
  · have hcol : copyColumn [nm] = some [nm] :=
      copyColumn_of_plain (by simpa using Ne.symm h92) (by simpa using Ne.symm h13)
    rw [List.mapM_cons, hcol]
    simp only [h10, h13, h92, h124, not_false_eq_true, and_self, true_and]
    rw [copyRow]
    cases List.mapM copyColumn (splitUnescaped 124 false t) <;> simp

/-- **What is read of a line**: the values of the event when the program is read as itself, and what
the last column is read as. -/
theorem copyRows_exportLine (hev : ev.Named) {str : List Byte} :
    copyRows (exportLine ev ++ [10]) = some [firstColumns ev ++ [str]] ↔
      (∀ b ∈ ev.prog, b ∉ ([10, 13, 92, 124] : List Byte)) ∧
        copyRow (lastColumn (exportStr ev.str)) = some [str] := by
  obtain ⟨nm, hnm⟩ := hev.prog
  have hline := exportLine_eq hnm
  rw [exportTail_eq] at hline
  simp only [hnm, List.forall_mem_singleton]
  by_cases h10 : nm = 10
  · -- the line is cut in two behind the time
    refine iff_of_false (fun h => ?_) fun h => h.1 (by simp [h10])
    have hcut : exportLine ev ++ [10] = exportHead ev ++ 10 :: (124 :: exportTail ev ++ [10]) := by
      rw [exportLine_eq hnm, h10, List.append_assoc]
      rfl
    rw [copyRows, hcut, copyLines_front (separators_of_notMem (newline_notMem_head ev))
      (escapes_head ev)] at h
    obtain ⟨row, rows, hrow, -, heq⟩ := mapM_cons_eq_some h
    cases heq
    have hlen := length_of_mapM_eq_some hrow
    have hhead := separators_head ev []
    rw [List.append_nil] at hhead
    rw [length_splitUnescaped, hhead] at hlen
    simp [firstColumns, separators] at hlen
  · have hmem : 10 ∉ exportLine ev := by
      rw [exportLine_eq hnm]
      simp [newline_notMem_head, newline_notMem_tail hev, Ne.symm h10]
    rw [copyRows_line hmem, hline, lastColumn_line hev, copyRow_head, Option.map_map,
      Option.map_eq_some_iff]
    have hiff := copyRow_prog nm (exportMiddle ev ++ lastColumn (exportStr ev.str)) h10
      (ascii ev.scStr :: decimal ev.rv :: decimal ev.arg1 :: decimal ev.arg2 :: decimal ev.arg3 ::
        [str])
    rw [copyRow_middle hev, Option.map_eq_some_iff] at hiff
    constructor
    · rintro ⟨cols, hcols, heq⟩
      simp only [Function.comp_apply, firstColumns, hnm, List.cons_append, List.nil_append,
        List.cons.injEq, and_true, true_and] at heq
      subst heq
      obtain ⟨hprog, cols', hcols', heq'⟩ := hiff.1 hcols
      simp only [List.cons.injEq, true_and] at heq'
      exact ⟨hprog, heq' ▸ hcols'⟩
    · rintro ⟨hprog, hstr⟩
      refine ⟨_, hiff.2 ⟨hprog, _, hstr, rfl⟩, ?_⟩
      simp [firstColumns, hnm]

/-- **Round trip of an event.** What is written of an event of the log is read back as its values
and a beginning of its string, if and only if it is exportable. -/
theorem roundTrips_iff {S : Syscalls} {le : LogentryThaw} (h : eventOfLogentry S le = .ok ev) :
    RoundTrips ev ↔ Exportable ev := by
  have hev := eventOfLogentry_named h
  by_cases hskip : Skipped ev.str
  · refine iff_of_false ?_ fun hexp => hexp.notSkipped hskip
    rintro ⟨str, -, hrows⟩
    rw [storeEventOut, if_pos hskip] at hrows
    cases hrows
  have hstr : ReadsPrefix (exportStr ev.str) (substituted ev.str) ↔
      CutInTime (substituted ev.str) := by
    have hreturn := return_notMem_exportStr ev.str
    rw [exportStr_eq] at hreturn ⊢
    exact readsPrefix_iff (newline_notMem_substituted ev.str) hreturn
  have hout : storeEventOut ev = exportLine ev ++ [10] := by
    rw [storeEventOut, if_neg hskip]
    rfl
  rw [RoundTrips, hout]
  simp only [copyRows_exportLine hev]
  constructor
  · rintro ⟨str, hpre, hprog, hrow⟩
    exact ⟨hskip, hprog, hstr.1 ⟨str, hpre, hrow⟩⟩
  · rintro ⟨-, hprog, hcut⟩
    obtain ⟨str, hpre, hrow⟩ := hstr.2 hcut
    exact ⟨str, hpre, hprog, hrow⟩

theorem isWord_note : ∀ _ : ℤ, ∀ b ∈ ascii "SYS_NOTE", isWord b = true :=
  fun _ => List.all_eq_true.1 (by decide)

theorem length_fourZeros : ([0, 0, 0, 0] : List UInt8).length = 4 := rfl

/-- One name for all system calls. -/
def noteNamed : Syscalls where
  scStrOfInt _ := "SYS_NOTE"
  strOfPpid _ := none
  word := isWord_note

/-- An entry of a note. -/
def noteEntry (s : List Byte) : LogentryThaw where
  fz := {
    tid := 1
    pid := 1
    cycleHigh := 2
    cycleLow := 0
    sc := 1
    rv := 0
    nm := 112
    argLen := 0
    strLen := Int16.ofNat s.length
    padding := ⟨[0, 0, 0, 0], length_fourZeros⟩ }
  str := some (s ++ [0])
  arg := [0, 0, 0]

/-- The event of a note. -/
def noteEvent (s : List Byte) : FullEvent where
  eid := 123456
  pid := 1
  tid := 1
  ts := 2
  prog := [112]
  ptid := 0
  scStr := "SYS_NOTE"
  rv := 0
  arg1 := 0
  arg2 := 0
  arg3 := 0
  str := s

theorem noteEvent_read : eventOfLogentry noteNamed (noteEntry (ascii "GET /\r\nHost")) =
    .ok (noteEvent (ascii "GET /\r\nHost")) :=
  rfl

/-- A string without special characters is read back, also when it has two lines. -/
theorem roundTrips_iff_note : RoundTrips (noteEvent (ascii "GET /\r\nHost")) ↔
    Exportable (noteEvent (ascii "GET /\r\nHost")) :=
  roundTrips_iff noteEvent_read

/-- **A quote** is read back as four. -/
theorem quote_quadrupled :
    eventOfLogentry noteNamed (noteEntry (ascii "it's")) = .ok (noteEvent (ascii "it's")) ∧
      ¬ RoundTrips (noteEvent (ascii "it's")) := by
  refine ⟨rfl, ?_⟩
  rintro ⟨str, hpre, hrows⟩
  have hread : copyRows (storeEventOut (noteEvent (ascii "it's"))) =
      some [firstColumns (noteEvent (ascii "it's")) ++ [ascii "it''''s"]] := by decide +kernel
  rw [hread] at hrows
  obtain rfl : ascii "it''''s" = str := by simpa using hrows
  revert hpre
  decide

end BorderPatrol.Agg
