import BorderPatrol.Logd.Binlog
import BorderPatrol.Pfdura.TrackPids

/-!
# Page faults in the log

The probes of `pfdura-mod.c` record the beginning and the end of each page fault of a thread. The
loop of `reader_thr` in `pf.c` keeps the time of the last beginning for each process, and for an end
that comes more than 100 microseconds after it writes two log entries. So the entries of a thread
have the time of its own beginning exactly when no other thread of the process disturbs it
(`pairs_iff`).
-/

namespace BorderPatrol.Pfdura

open Foundations Logd

/-- `struct pfdura_t` -/
structure PfduraT where
  tgid : ℤ
  pid : ℤ
  complete : ℤ
  tv : Timeval
  deriving DecidableEq, Repr

/-! ## The probes -/

/-- The body that the probes share, for a thread of a process: what it writes to the relay. -/
def probe (complete : ℤ) (trackPids : TrackPids) (tgid pid : ℤ) (tv : Timeval) :
    Except Fault (Option PfduraT) := do
  if pidMaxDefault ≤ tgid then return none
  else if !(← testBit tgid trackPids) then return none
  else return some ⟨tgid, pid, complete, tv⟩

/-- `entry_probe` -/
def entryProbe : TrackPids → ℤ → ℤ → Timeval → Except Fault (Option PfduraT) := probe 0

/-- `exit_probe` -/
def exitProbe : TrackPids → ℤ → ℤ → Timeval → Except Fault (Option PfduraT) := probe 1

/-! ## The reader -/

/-- The numbers of the two events, which the build gives to them. -/
structure PagefaultSc where
  pagefaultBegin : Int16
  pagefaultEnd : Int16

/-- What `read` gives: a record; nothing yet, or an interruption; or anything else. -/
inductive ReadResult
  | record (pfd : PfduraT)
  | again
  | failed

/-- `last_tvs`, of 65536 elements, and what was passed to `write`. -/
structure Reader where
  lastTvs : ℤ → Timeval
  written : List (List Byte)

/-- The reader before the loop. -/
def Reader.start : Reader := ⟨fun _ => ⟨0, 0⟩, []⟩

/-- Conversion to `uint64_t`. -/
def toUint64 (x : ℤ) : UInt64 := UInt64.ofNat (x % 2 ^ 64).toNat

/-- `us` -/
def elapsedUs (last tv : Timeval) : ℤ :=
  let diffSec := toLong (tv.sec - last.sec)
  let us := if 0 < diffSec then toLong (toLong (diffSec * 1000) * 1000) else 0
  toLong (us + toLong (tv.usec - last.usec))

/-- `le`, for the event `sc` at time `tv`. -/
def pagefaultEntry (sc : Int16) (pfd : PfduraT) (tv : Timeval) : LogentryThaw where
  fz := {
    tid := toUint64 pfd.pid
    pid := toUint32 pfd.tgid
    cycleHigh := toUint32 tv.sec
    cycleLow := toUint32 tv.usec
    sc
    rv := 0
    nm := 95
    argLen := 0
    strLen := 0
    padding := ⟨List.replicate 4 0, List.length_replicate⟩ }
  str := none
  arg := [0, 0, 0]

/-- The body of the loop of `reader_thr`. -/
def readerStep (sc : PagefaultSc) (m : Reader) : ReadResult → Except Fault Reader
  | .again => .ok m
  | .failed => .error (.exit 1)
  | .record pfd => do
    inBounds (0 ≤ pfd.tgid ∧ pfd.tgid < 65536)
    if pfd.complete = 0 then
      return { m with lastTvs := Function.update m.lastTvs pfd.tgid pfd.tv }
    else
      let last := m.lastTvs pfd.tgid
      if 100 < elapsedUs last pfd.tv then
        let le := pagefaultEntry sc.pagefaultBegin pfd last
        let sz := frozenSize le.fz
        let buf ← freeze le sz
        let buf' ← freeze (pagefaultEntry sc.pagefaultEnd pfd pfd.tv) sz
        return { m with written := m.written ++ [buf, buf'] }
      else return m

/-! ## Pairs -/

/-- The records among what was read. -/
def records (reads : List ReadResult) : List PfduraT :=
  reads.filterMap fun | .record pfd => some pfd | _ => none

/-- The time of the last record of a beginning that is one of `p`. -/
def latestBegin (rs : List PfduraT) (p : PfduraT → Bool) : Option Timeval :=
  (rs.filter fun r => r.complete = 0 && p r).getLast?.map PfduraT.tv

/-- The microseconds from one time to another. -/
def elapsed (tv tv' : Timeval) : ℤ := (tv'.sec - tv.sec) * 1000000 + (tv'.usec - tv.usec)

/-- The beginning that an end is to be paired with: that of its own thread, when it is long enough
ago. -/
def due (rs : List PfduraT) (pfd : PfduraT) : Option Timeval :=
  if pfd.complete = 0 then none
  else (latestBegin rs fun r => r.tgid = pfd.tgid && r.pid = pfd.pid).filter
    fun b => 100 < elapsed b pfd.tv

/-- The bytes of the two entries, with the time `b` of the beginning. -/
def pair (sc : PagefaultSc) (pfd : PfduraT) (b : Timeval) : List (List Byte) :=
  [(pagefaultEntry sc.pagefaultBegin pfd b).fz.bytes,
    (pagefaultEntry sc.pagefaultEnd pfd pfd.tv).fz.bytes]

/-- For a record that comes after `rs`, the reader writes the pair that is due, and nothing when
none is. -/
def Paired (sc : PagefaultSc) (rs : List PfduraT) (m : Reader) (pfd : PfduraT) : Prop :=
  ∃ m', readerStep sc m (.record pfd) = .ok m' ∧
    m'.written = m.written ++ (due rs pfd).elim [] (pair sc pfd)

/-- The last beginning of the process, or the epoch when there is none. -/
def processBegin (rs : List PfduraT) (pfd : PfduraT) : Timeval :=
  (latestBegin rs fun r => r.tgid = pfd.tgid).getD ⟨0, 0⟩

/-- The beginning that is due has the time of the last one of the process, and the time since is
more than 100 as a `long`; and where none is due, the time since the last beginning of the process
is at most that as a `long`. -/
def Undisturbed (rs : List PfduraT) (pfd : PfduraT) : Prop :=
  pfd.complete ≠ 0 →
    match due rs pfd with
    | some b => processBegin rs pfd = b ∧ 100 < toLong (elapsed b pfd.tv)
    | none => toLong (elapsed (processBegin rs pfd) pfd.tv) ≤ 100

/-- At every record that is read, `Q` holds of the records before it, the reader and the record. -/
def AtEachRecord (sc : PagefaultSc) (reads : List ReadResult)
    (Q : List PfduraT → Reader → PfduraT → Prop) : Prop :=
  ∀ pre pfd, pre ++ [.record pfd] <+: reads →
    ∀ m, runSteps (readerStep sc) .start pre = .ok m → Q (records pre) m pfd

/-- A time as `do_gettimeofday` gives it. -/
structure Normal (tv : Timeval) : Prop where
  sec : 0 ≤ tv.sec ∧ tv.sec < 2 ^ 31
  usec : 0 ≤ tv.usec ∧ tv.usec < 1000000

/-- Records of processes with an entry in the table, in the order of time. -/
structure InOrder (rs : List PfduraT) : Prop where
  tgid : ∀ r ∈ rs, 0 ≤ r.tgid ∧ r.tgid < 65536
  normal : ∀ r ∈ rs, Normal r.tv
  times : rs.Pairwise fun r r' => 0 ≤ elapsed r.tv r'.tv

/-- A probe records tracked processes only. -/
theorem probe_record {c tgid pid : ℤ} {trackPids : TrackPids} {tv : Timeval} {r : PfduraT}
    (h : probe c trackPids tgid pid tv = .ok (some r)) :
    r = ⟨tgid, pid, c, tv⟩ ∧ 0 ≤ tgid ∧ tgid < pidMaxDefault ∧ trackPids tgid = true := by
  unfold probe at h
  split at h
  · cases h
  · obtain ⟨b, hb, h⟩ := bind_eq_ok h
    obtain ⟨u, hin, hb⟩ := bind_eq_ok hb
    cases hb
    have hrange := (inBounds_post (E := AnyFault) fun _ => trivial).of_eq_ok hin
    rcases hbit : trackPids tgid with _ | _
    · rw [hbit] at h
      cases h
    · rw [hbit] at h
      cases h
      exact ⟨rfl, hrange.1, hrange.2, rfl⟩

/-- What the probes record, with a clock that does not run backwards, is in order. -/
theorem inOrder_of_probes {rs : List PfduraT}
    (h : ∀ r ∈ rs, ∃ trackPids, probe r.complete trackPids r.tgid r.pid r.tv = .ok (some r))
    (hnormal : ∀ r ∈ rs, Normal r.tv)
    (htimes : rs.Pairwise fun r r' => 0 ≤ elapsed r.tv r'.tv) : InOrder rs := by
  refine ⟨fun r hr => ?_, hnormal, htimes⟩
  obtain ⟨trackPids, hprobe⟩ := h r hr
  obtain ⟨-, h₀, hlt, -⟩ := probe_record hprobe
  have hmax : pidMaxDefault ≤ 65536 := by decide
  exact ⟨h₀, hlt.trans_le hmax⟩

/-! ## The time that has passed -/

theorem normal_epoch : Normal ⟨0, 0⟩ := ⟨by decide, by decide⟩

theorem toLong_of_lt {x : ℤ} (h₀ : 0 ≤ x) (h : x < 2 ^ 31) : toLong x = x := by
  unfold toLong
  rw [Int.bmod_def]
  omega

/-- The microseconds are computed right up to the width of a `long`. -/
theorem elapsedUs_eq {last tv : Timeval} (hlast : Normal last) (htv : Normal tv)
    (h : 0 ≤ elapsed last tv) : elapsedUs last tv = toLong (elapsed last tv) := by
  obtain ⟨⟨hs₀, hs⟩, hu₀, hu⟩ := hlast
  obtain ⟨⟨hs₀', hs'⟩, hu₀', hu'⟩ := htv
  have hdiff : 0 ≤ tv.sec - last.sec := by
    rw [elapsed] at h
    omega
  have hsec : toLong (tv.sec - last.sec) = tv.sec - last.sec := toLong_of_lt hdiff (by omega)
  simp only [elapsedUs, hsec]
  rcases hdiff.eq_or_lt with hzero | hpos
  · rw [if_neg (by omega), elapsed, ← hzero]
    simp only [toLong, Int.add_bmod_bmod, zero_mul]
  · rw [if_pos hpos, elapsed]
    simp only [toLong, Int.add_bmod_bmod, Int.bmod_add_bmod, Int.bmod_mul_bmod]
    rw [show (tv.sec - last.sec) * 1000 * 1000 = (tv.sec - last.sec) * 1000000 by omega]

/-! ## What is written -/

variable {sc : PagefaultSc} {m m' : Reader} {pfd : PfduraT} {rs : List PfduraT}
  {reads : List ReadResult}

/-- An entry has a header only. -/
def pagefaultRecord (s : Int16) (pfd : PfduraT) (tv : Timeval) : Record where
  fz := (pagefaultEntry s pfd tv).fz
  args := []
  str := []
  args_le := Nat.zero_le 3
  argLen := rfl
  strLen := rfl

theorem freeze_pagefaultEntry (s s' : Int16) (pfd : PfduraT) (tv tv' : Timeval) :
    freeze (pagefaultEntry s pfd tv) (frozenSize (pagefaultEntry s' pfd tv').fz) =
      .ok (pagefaultEntry s pfd tv).fz.bytes := by
  have hbytes : (pagefaultRecord s pfd tv).bytes = (pagefaultEntry s pfd tv).fz.bytes :=
    List.append_nil _
  have hsize : frozenSize (pagefaultEntry s' pfd tv').fz =
      (pagefaultRecord s pfd tv).bytes.length := by
    rw [hbytes, LogentryFrozen.length_bytes]
    change predictSize 0 0 = frozenLen
    decide
  rw [hsize, ← hbytes]
  exact freeze_record (pagefaultRecord s pfd tv)

/-- The time of the beginning in the pair that the reader writes, if it writes one. -/
def Reader.emits (m : Reader) (pfd : PfduraT) : Option Timeval :=
  if pfd.complete = 0 then none
  else if 100 < elapsedUs (m.lastTvs pfd.tgid) pfd.tv then some (m.lastTvs pfd.tgid)
  else none

/-- **One record.** -/
theorem readerStep_record (sc : PagefaultSc) (m : Reader)
    (h : 0 ≤ pfd.tgid ∧ pfd.tgid < 65536) : readerStep sc m (.record pfd) = .ok {
      lastTvs :=
        if pfd.complete = 0 then Function.update m.lastTvs pfd.tgid pfd.tv else m.lastTvs
      written := m.written ++ (m.emits pfd).elim [] (pair sc pfd) } := by
  rw [readerStep, inBounds_of h, ok_bind, Reader.emits]
  by_cases hcomplete : pfd.complete = 0
  · simp only [if_pos hcomplete, Option.elim_none, List.append_nil]
    rfl
  · simp only [if_neg hcomplete]
    by_cases hlong : 100 < elapsedUs (m.lastTvs pfd.tgid) pfd.tv
    · simp only [if_pos hlong, freeze_pagefaultEntry, ok_bind]
      rfl
    · simp only [if_neg hlong, Option.elim_none, List.append_nil]
      rfl

theorem toUint32_inj {x y : ℤ} (hx : 0 ≤ x ∧ x < 2 ^ 31) (hy : 0 ≤ y ∧ y < 2 ^ 31)
    (h : toUint32 x = toUint32 y) : x = y := by
  have hnat := congrArg UInt32.toNat h
  rw [toUint32, toUint32, UInt32.toNat_ofNat', UInt32.toNat_ofNat'] at hnat
  omega

/-- A pair tells the time of the beginning. -/
theorem pair_inj {b b' : Timeval} (hb : Normal b) (hb' : Normal b')
    (h : pair sc pfd b = pair sc pfd b') : b = b' := by
  have hhead := LogentryFrozen.bytes_inj (List.cons.inj h).1
  have hsec := toUint32_inj hb.sec hb'.sec (congrArg LogentryFrozen.cycleHigh hhead)
  have husec : b.usec = b'.usec := by
    refine toUint32_inj ?_ ?_ (congrArg LogentryFrozen.cycleLow hhead)
    · exact ⟨hb.usec.1, hb.usec.2.trans (by decide)⟩
    · exact ⟨hb'.usec.1, hb'.usec.2.trans (by decide)⟩
  obtain ⟨s, us⟩ := b
  obtain ⟨s', us'⟩ := b'
  exact congrArg₂ Timeval.mk hsec husec

theorem pairs_inj {o o' : Option Timeval} (ho : ∀ b ∈ o, Normal b) (ho' : ∀ b ∈ o', Normal b)
    (h : o.elim [] (pair sc pfd) = o'.elim [] (pair sc pfd)) : o = o' := by
  cases o with
  | none =>
    cases o' with
    | none => rfl
    | some b' => exact absurd h (List.cons_ne_nil _ _).symm
  | some b =>
    cases o' with
    | none => exact absurd h (List.cons_ne_nil _ _)
    | some b' => rw [pair_inj (ho b rfl) (ho' b' rfl) h]

/-! ## Runs -/

theorem records_append (reads reads' : List ReadResult) :
    records (reads ++ reads') = records reads ++ records reads' := List.filterMap_append

/-- A further record is the latest beginning when it is one of `p`. -/
theorem latestBegin_concat (rs : List PfduraT) (r : PfduraT) (p : PfduraT → Bool) :
    latestBegin (rs ++ [r]) p =
      if r.complete = 0 ∧ p r = true then some r.tv else latestBegin rs p := by
  rw [latestBegin, List.filter_append, List.filter_singleton]
  by_cases h : r.complete = 0 ∧ p r = true
  · simp [h.1, h.2]
  · have hfalse : (decide (r.complete = 0) && p r) = false := by
      rw [Bool.and_eq_false_iff]
      by_cases hc : r.complete = 0
      · exact .inr (by simpa [hc] using h)
      · exact .inl (decide_eq_false hc)
    rw [hfalse, if_neg h]
    simp [latestBegin]

theorem latestBegin_mem {p : PfduraT → Bool} {b : Timeval} (h : latestBegin rs p = some b) :
    ∃ r ∈ rs, r.tv = b := by
  obtain ⟨r, hr, rfl⟩ := Option.map_eq_some_iff.1 h
  exact ⟨r, (List.mem_filter.1 (List.mem_of_getLast? hr)).1, rfl⟩

/-- **The table** has the last beginning of each process. -/
theorem lastTvs_of_run (h : runSteps (readerStep sc) .start reads = .ok m) (t : ℤ) :
    m.lastTvs t = (latestBegin (records reads) fun r => r.tgid = t).getD ⟨0, 0⟩ := by
  induction reads using List.reverseRecOn generalizing m with
  | nil =>
    cases h
    rfl
  | append_singleton reads a ih =>
    obtain ⟨m₁, hrun, hstep⟩ := runSteps_concat_eq_ok h
    have hm₁ := ih hrun
    rw [records_append]
    cases a with
    | again =>
      cases hstep
      exact hm₁.trans (by rw [show records [.again] = [] from rfl, List.append_nil])
    | failed => cases hstep
    | record pfd =>
      obtain ⟨u, hcheck, -⟩ := bind_eq_ok hstep
      have hin := of_inBounds hcheck
      rw [readerStep_record sc m₁ hin] at hstep
      cases hstep
      rw [show records [.record pfd] = [pfd] from rfl, latestBegin_concat]
      simp only [decide_eq_true_iff]
      by_cases hcomplete : pfd.complete = 0
      · rw [if_pos hcomplete, Function.update_apply, hm₁]
        by_cases ht : t = pfd.tgid
        · simp [ht, hcomplete]
        · simp [ht, Ne.symm ht]
      · simp only [hcomplete, if_false, false_and]
        exact hm₁

/-- A beginning that was read is a time before the next record. -/
theorem InOrder.latestBegin (h : InOrder (rs ++ [pfd])) {p : PfduraT → Bool} {b : Timeval}
    (hb : latestBegin rs p = some b) : Normal b ∧ 0 ≤ elapsed b pfd.tv := by
  obtain ⟨r, hr, rfl⟩ := latestBegin_mem hb
  refine ⟨h.normal r (List.mem_append_left _ hr), ?_⟩
  exact (List.pairwise_append.1 h.times).2.2 r hr pfd (List.mem_singleton_self pfd)

theorem InOrder.processBegin (h : InOrder (rs ++ [pfd])) :
    Normal (processBegin rs pfd) ∧ 0 ≤ elapsed (processBegin rs pfd) pfd.tv := by
  rw [Pfdura.processBegin]
  rcases hb : Pfdura.latestBegin rs fun r => r.tgid = pfd.tgid with _ | b
  · have htv := h.normal pfd (List.mem_append_right _ (List.mem_singleton_self pfd))
    refine ⟨normal_epoch, ?_⟩
    have hsec := htv.sec.1
    have husec := htv.usec.1
    simp only [elapsed, Option.getD_none]
    omega
  · exact h.latestBegin hb

/-- What the reader emits is what is due, if and only if nothing disturbs the thread. -/
theorem emits_eq_iff (h : InOrder (rs ++ [pfd]))
    (hlast : m.lastTvs pfd.tgid = processBegin rs pfd) :
    m.emits pfd = due rs pfd ↔ Undisturbed rs pfd := by
  have htv := h.normal pfd (List.mem_append_right _ (List.mem_singleton_self pfd))
  rw [Reader.emits, hlast, elapsedUs_eq h.processBegin.1 htv h.processBegin.2, Undisturbed]
  by_cases hcomplete : pfd.complete = 0
  · simp [due, hcomplete]
  · simp only [ne_eq, hcomplete, if_false, not_false_iff, true_imp_iff]
    rcases due rs pfd with _ | b
    · simp
    · constructor
      · intro heq
        obtain ⟨hlong, heq⟩ := Option.ite_none_right_eq_some.1 heq
        cases heq
        exact ⟨rfl, hlong⟩
      · rintro ⟨rfl, hlong⟩
        exact if_pos hlong

/-- **One record** is answered by the pair that is due if and only if nothing disturbs the
thread. -/
theorem paired_iff (h : InOrder (rs ++ [pfd]))
    (hlast : m.lastTvs pfd.tgid = processBegin rs pfd) :
    Paired sc rs m pfd ↔ Undisturbed rs pfd := by
  have hmem : pfd ∈ rs ++ [pfd] := List.mem_append_right _ (List.mem_singleton_self pfd)
  rw [← emits_eq_iff h hlast, Paired, readerStep_record sc m (h.tgid pfd hmem)]
  have hdue : ∀ b ∈ due rs pfd, Normal b := by
    intro b hb
    rw [due] at hb
    split at hb
    · cases hb
    · exact (h.latestBegin (Option.mem_filter_iff.1 hb).1).1
  have hemits : ∀ b ∈ m.emits pfd, Normal b := by
    intro b hb
    rw [Reader.emits] at hb
    split at hb
    · cases hb
    · obtain ⟨-, hb⟩ := Option.ite_none_right_eq_some.1 hb
      cases hb
      rw [hlast]
      exact h.processBegin.1
  constructor
  · rintro ⟨m', hm', hwritten⟩
    cases hm'
    exact pairs_inj hemits hdue (List.append_cancel_left hwritten)
  · exact fun heq => ⟨_, rfl, by rw [heq]⟩

/-- **Pairs.** For records in the order of time, read with any interruptions, the reader answers
each by the pair that is due for it, and by nothing when none is, if and only if no thread is
disturbed. -/
theorem pairs_iff (sc : PagefaultSc) (reads : List ReadResult) (h : InOrder (records reads)) :
    AtEachRecord sc reads (Paired sc) ↔
      AtEachRecord sc reads fun rs _ pfd => Undisturbed rs pfd := by
  refine forall_congr' fun pre => forall_congr' fun pfd => forall_congr' fun hpre =>
    forall_congr' fun m => forall_congr' fun hrun => ?_
  have hsofar : records pre ++ [pfd] <+: records reads := by
    obtain ⟨rest, hrest⟩ := hpre
    refine ⟨records rest, ?_⟩
    rw [← hrest, records_append, records_append]
    rfl
  have hin : InOrder (records pre ++ [pfd]) :=
    ⟨fun r hr => h.tgid r (hsofar.subset hr), fun r hr => h.normal r (hsofar.subset hr),
      h.times.sublist hsofar.sublist⟩
  exact paired_iff hin (lastTvs_of_run hrun pfd.tgid)

/-- Two threads of a process fault at the same time: the second begins 50 microseconds after the
first, which ends 120 microseconds after it began. -/
def twoThreads : List ReadResult :=
  [.record ⟨10, 10, 0, ⟨1, 0⟩⟩, .again, .record ⟨10, 11, 0, ⟨1, 50⟩⟩,
    .record ⟨10, 10, 1, ⟨1, 120⟩⟩]

theorem inOrder_twoThreads : InOrder (records twoThreads) where
  tgid := by decide
  normal := by
    intro r hr
    simp only [records, twoThreads, List.filterMap_cons, List.filterMap_nil, List.mem_cons,
      List.not_mem_nil, or_false] at hr
    rcases hr with rfl | rfl | rfl <;> exact ⟨by decide, by decide⟩
  times := by decide

theorem pairs_iff_twoThreads : AtEachRecord ⟨0, 1⟩ twoThreads (Paired ⟨0, 1⟩) ↔
    AtEachRecord ⟨0, 1⟩ twoThreads fun rs _ pfd => Undisturbed rs pfd :=
  pairs_iff ⟨0, 1⟩ twoThreads inOrder_twoThreads

/-- The fault of the first took 120 microseconds, and is not reported. -/
theorem second_thread_hides : ¬ AtEachRecord ⟨0, 1⟩ twoThreads (Paired ⟨0, 1⟩) := by
  intro h
  obtain ⟨m', hm', hwritten⟩ :=
    h (twoThreads.take 3) ⟨10, 10, 1, ⟨1, 120⟩⟩ (List.prefix_refl _) _ rfl
  cases hm'
  have hdue : due (records (twoThreads.take 3)) ⟨10, 10, 1, ⟨1, 120⟩⟩ = some ⟨1, 0⟩ := by decide
  rw [hdue] at hwritten
  exact absurd hwritten (List.cons_ne_nil _ _).symm

end BorderPatrol.Pfdura
