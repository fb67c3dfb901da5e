import BorderPatrol.Agg.Parse
import BorderPatrol.Logd.Binlog
import BorderPatrol.Trace.Sending

/-!
# What is read of a call that was logged

A traced call that receives or sends ends with a log call of its result. `LOGBIN_gen` stores the
result in sixteen bits, from which the aggregator takes its sign: the event is a `Read` or `Write`
of the descriptor if the result is below 32768 modulo 65536, and is skipped otherwise, like one of
a call that failed (`io_classified_iff`).

The numbers of the events are in `syscalls.h`, which the build generates, and so are their names in
`syscalls.ml`, from the same list (`Numbered`).
-/

namespace BorderPatrol.Agg

open Foundations Logd

/-- The arguments that `LOGBIN_gen` is given, where `num` has the numbers of the events. The length
and the result are converted to `int`. -/
def logbinCall (num : Trace.Sc → Int32) (e : Trace.LogCall) : LogbinCall where
  sc := num e.sc
  rv := Int32.ofInt e.rv
  i₁ := Int32.ofInt (e.args.getD 0 0)
  i₂ := Int32.ofInt (e.args.getD 1 0)
  i₃ := Int32.ofInt (e.args.getD 2 0)
  num := Int32.ofNat e.args.length
  s := if e.str = [] then none else some (e.str ++ [0])

/-- The two generated tables agree: `S` has the names of the numbers `num`, which are small. -/
structure Numbered (S : Syscalls) (num : Trace.Sc → Int32) : Prop where
  name : ∀ sc, S.scStrOfInt (num sc).toInt = sc.name
  short : ∀ sc, 0 ≤ (num sc).toInt ∧ (num sc).toInt < 2 ^ 15

/-- The event that a call on descriptor `s` is. -/
def ioType (s : ℤ) : Trace.IoCall → EventType
  | .read _ _ | .recv _ _ _ | .recvfrom _ _ _ => .read s
  | .write _ _ | .writev _ _ | .send _ _ _ | .sendto _ _ _ => .write s

/-- The entry is read as an event of the type. -/
def ClassifiedAs (S : Syscalls) (le : LogentryThaw) (type : EventType) : Prop :=
  ∃ ev, eventOfLogentry S le = .ok ev ∧ mkEventtype S ev = .ok type

variable {S : Syscalls} {num : Trace.Sc → Int32} {le : LogentryThaw} {type type' : EventType}

theorem ClassifiedAs.unique (h : ClassifiedAs S le type) (h' : ClassifiedAs S le type') :
    type = type' := by
  obtain ⟨ev, hev, htype⟩ := h
  obtain ⟨ev', hev', htype'⟩ := h'
  obtain rfl : ev = ev' := Except.ok.inj (hev.symm.trans hev')
  exact Except.ok.inj (htype.symm.trans htype')

/-- The event of an entry whose string names no thread. -/
theorem eventOfLogentry_plain {name : String} (hname : S.scStrOfInt le.fz.sc.toInt = name)
    (hptid : ¬ (name = "SYS_EXEC_CHILD" ∨ name = "SYS_FORK")) :
    ∃ ev, eventOfLogentry S le = .ok ev ∧ ev.scStr = name ∧ ev.rv = le.fz.rv.toInt ∧
      ev.arg1 = binlogArg1 le := by
  have hok : ptidOf (S.scStrOfInt le.fz.sc.toInt) le.string = .ok 0 := by
    rw [ptidOf, hname, if_neg hptid]
  refine ⟨_, by simp only [eventOfLogentry, hok, ok_bind]; rfl, hname, rfl, rfl⟩

theorem mkEventtype_neg {ev : FullEvent} (h : ev.rv < 0) : mkEventtype S ev = .ok .skipEvent :=
  if_pos h

/-- The event of a call whose result is not negative. -/
theorem mkEventtype_io (c : Trace.IoCall) {ev : FullEvent} (hrv : 0 ≤ ev.rv)
    (hname : ev.scStr = c.sc.name) : mkEventtype S ev = .ok (ioType ev.arg1 c) := by
  have hbuf : (ascii "_BUF_").isPrefixOf (ascii c.sc.name) = false := by
    generalize c.sc = sc
    cases sc <;> decide
  rw [mkEventtype, if_neg (by omega), hname, hbuf, if_neg Bool.false_ne_true]
  cases c <;> rfl

/-- The entry of a call is read as its event if its result is not negative, and is skipped
otherwise. -/
theorem classifiedAs_iff (c : Trace.IoCall) (hname : S.scStrOfInt le.fz.sc.toInt = c.sc.name) :
    (ClassifiedAs S le (ioType (binlogArg1 le) c) ↔ 0 ≤ le.fz.rv.toInt) ∧
      (ClassifiedAs S le .skipEvent ↔ le.fz.rv.toInt < 0) := by
  have hptid : ¬ (c.sc.name = "SYS_EXEC_CHILD" ∨ c.sc.name = "SYS_FORK") := by
    generalize c.sc = sc
    cases sc <;> decide
  obtain ⟨ev, hev, hsc, hrv, harg⟩ := eventOfLogentry_plain hname hptid
  have hne : ioType (binlogArg1 le) c ≠ .skipEvent := by
    cases c <;> exact EventType.noConfusion
  by_cases hneg : le.fz.rv.toInt < 0
  · have hskip : ClassifiedAs S le .skipEvent := ⟨ev, hev, mkEventtype_neg (hrv ▸ hneg)⟩
    exact ⟨iff_of_false (fun h => hne (h.unique hskip)) (by omega), iff_of_true hskip hneg⟩
  · have hio : ClassifiedAs S le (ioType (binlogArg1 le) c) :=
      ⟨ev, hev, harg ▸ mkEventtype_io c (by omega) hsc⟩
    exact ⟨iff_of_true hio (by omega), iff_of_false (fun h => hne (hio.unique h)) hneg⟩

/-! ## Through the log -/

/-- The sign that sixteen bits of a result have. -/
theorem toInt16_nonneg_iff (r : ℤ) :
    0 ≤ (Int32.ofInt r).toInt16.toInt ↔ r % 2 ^ 16 < 2 ^ 15 := by
  rw [Int32.toInt16_ofInt, Int16.toInt_ofInt, Int.bmod_def]
  change 0 ≤ (if r % 65536 < (65536 + 1) / 2 then r % 65536 else r % 65536 - 65536) ↔ _
  split <;> omega

theorem num_logged (num : Trace.Sc → Int32) (c : Trace.IoCall) (s r : ℤ) :
    2 ≤ (logbinCall num (c.logged s r)).num.toInt ∧
      (logbinCall num (c.logged s r)).num.toInt ≤ 3 := by
  obtain ⟨i, l, hargs, hl, -⟩ := c.logged_args s r
  have hlt : l.length + 2 < 2 ^ 31 := by omega
  have hlen : (logbinCall num (c.logged s r)).num.toInt = (l.length + 2 : ℕ) := by
    rw [logbinCall, hargs]
    exact Int32.toInt_ofNat'.trans (toInt_natCast_lt hlt)
  omega

/-- The record of a call has room. -/
theorem sized_logged (num : Trace.Sc → Int32) (c : Trace.IoCall) (s r : ℤ) :
    (logbinCall num (c.logged s r)).Sized := by
  obtain ⟨i, l, -, -, hstr⟩ := c.logged_args s r
  have hnum := num_logged num c s r
  have hstr' : (logbinCall num (c.logged s r)).str = [] := by
    rw [LogbinCall.str, logbinCall, if_pos hstr]
    rfl
  constructor
  · omega
  · rw [hstr', List.length_nil, frozenLen, pipeBuf]
    omega

/-- The first argument is the descriptor. -/
theorem args_logged (num : Trace.Sc → Int32) (c : Trace.IoCall) (s r : ℤ) :
    ∃ l, (logbinCall num (c.logged s r)).args = Int32.ofInt s :: l := by
  obtain ⟨i, l, hargs, -⟩ := c.logged_args s r
  have hnum := num_logged num c s r
  obtain ⟨n, hn⟩ : ∃ n, (logbinCall num (c.logged s r)).num.toInt.toNat = n + 1 :=
    ⟨(logbinCall num (c.logged s r)).num.toInt.toNat - 1, by omega⟩
  rw [LogbinCall.args, hn, List.take_succ_cons, logbinCall, hargs]
  exact ⟨_, rfl⟩

/-- The entry of a record that is in memory. -/
theorem thaw_record {m : Mem Byte} {a : ℕ} {r : Record} (h : m.slice a r.bytes.length = r.bytes) :
    thaw2 m (a + frozenLen) (thaw1 m a) (frozenSize (thaw1 m a) - frozenLen) = .ok r.entry := by
  rw [r.length_bytes, Mem.slice_add, Record.bytes] at h
  obtain ⟨hfz, hrest⟩ := List.append_inj h (by simp)
  have hsize : frozenSize r.fz - frozenLen = r.fz.restLen := by
    rw [frozenSize_of_wf r.wf, add_sub_cancel_left]
  rw [(thaw1_eq_iff m a).2 hfz, hsize]
  exact thaw2_record hrest

/-- The log call `e` adds a record to the log, and `le` is the entry that is read of it. -/
structure LoggedAs (num : Trace.Sc → Int32) (ctx : ThreadCtx) (env : LogEnv) (e : Trace.LogCall)
    (le : LogentryThaw) : Prop where
  logged : ∃ ctx' out r, logbinGen ctx env (logbinCall num e) = .ok (ctx', out) ∧
    out ++ ctx'.held = ctx.held ++ Record.bytes r ∧
    ∀ m a, m.slice a r.bytes.length = r.bytes →
      thaw2 m (a + frozenLen) (thaw1 m a) (frozenSize (thaw1 m a) - frozenLen) = .ok le

section Io

variable {σ : Type} {p : Trace.Process σ} {s : ℤ} {c : Trace.IoCall} {q : Trace.Reply σ}
  {ctx : ThreadCtx} {env : LogEnv}

/-- The entry of a call. -/
theorem loggedAs_io (hnum : Numbered S num) (hs : 0 ≤ s ∧ s < Trace.maxFds) (c : Trace.IoCall)
    (ret : ℤ) (hctx : ctx.InBuffer) (hw : env.writes.Short) :
    ∃ le, LoggedAs num ctx env (c.logged s ret) le ∧
      S.scStrOfInt le.fz.sc.toInt = c.sc.name ∧ binlogArg1 le = s ∧
      le.fz.rv.toInt = (Int32.ofInt ret).toInt16.toInt := by
  obtain ⟨ctx', out, r, hgen, hlog, hout, -⟩ :=
    logbinGen_spec hw.moves (sized_logged num c s ret) hctx
  obtain ⟨i, l, hargs, -⟩ := c.logged_args s ret
  refine ⟨r.entry, ⟨ctx', out, r, hgen, hout, fun m a h => thaw_record h⟩, ?_, ?_, ?_⟩
  · change S.scStrOfInt r.fz.sc.toInt = _
    have hsc : (logbinCall num (c.logged s ret)).sc = num c.sc := by rw [logbinCall, c.logged_sc]
    have hshort := hnum.short c.sc
    rw [hlog.sc, hsc, Int32.toInt_toInt16, Int.bmod_def, if_pos (by omega), ← hnum.name c.sc]
    congr 1
    omega
  · obtain ⟨l, hl⟩ := args_logged num c s ret
    change ((r.args ++ _).getD 0 0).toInt = s
    rw [hlog.args, hl]
    exact Int32.toInt_ofInt.trans (toInt_of_lt (by omega) (by rw [Trace.maxFds] at hs; omega))
  · change r.fz.rv.toInt = _
    rw [hlog.rv, logbinCall, c.logged_rv]

/-- **What is read of a call that was logged.** A traced call ends with a log call, of which the
aggregator reads the event of the call, and not one to be skipped, if and only if the result is
below 32768 modulo 65536. -/
theorem io_classified_iff (hnum : Numbered S num) (hs : 0 ≤ s ∧ s < Trace.maxFds)
    (hrun : c.run p s = .ok q) (hctx : ctx.InBuffer) (hw : env.writes.Short) :
    ∃ tr e le, q.trace = tr ++ [.log e] ∧ LoggedAs num ctx env e le ∧
      (ClassifiedAs S le (ioType s c) ∧ ¬ ClassifiedAs S le .skipEvent ↔
        q.ret % 2 ^ 16 < 2 ^ 15) := by
  obtain ⟨tr, htr⟩ := c.run_trace hs hrun
  obtain ⟨le, hle, hname, harg, hrv⟩ := loggedAs_io hnum hs c q.ret hctx hw
  refine ⟨tr, c.logged s q.ret, le, htr, hle, ?_⟩
  obtain ⟨hio, hskip⟩ := classifiedAs_iff c hname
  rw [harg] at hio
  rw [← toInt16_nonneg_iff, ← hrv, hio, hskip, not_lt, and_self]

end Io

/-! ## A count that is skipped -/

/-- The numbers of the events in `syscalls.h`. -/
def sysNum : Trace.Sc → Int32
  | .accept => 1
  | .acceptBegin => 2
  | .close => 12
  | .connect => 13
  | .connectBegin => 14
  | .debug => 16
  | .dup => 18
  | .dupFcntl => 19
  | .httpsRead => 32
  | .poll => 38
  | .pollBegin => 39
  | .ppData => 40
  | .ppFcgiHmm => 41
  | .ppId => 42
  | .ppInit => 43
  | .ppIsoPoll => 44
  | .ppIsoRead => 45
  | .ppMsgRecv => 46
  | .ppMsgSend => 47
  | .ppProp => 48
  | .ppReqBegin => 49
  | .ppShutdown => 50
  | .read => 55
  | .readBegin => 56
  | .recv => 57
  | .recvfrom => 58
  | .recvfromBegin => 59
  | .recvBegin => 60
  | .select => 61
  | .selectBegin => 62
  | .send => 63
  | .sendto => 68
  | .sendtoBegin => 69
  | .sendBegin => 70
  | .socket => 72
  | .write => 74
  | .writev => 75
  | .writevBegin => 76
  | .writeBegin => 77

/-- The names of those numbers. -/
def sysName (i : ℤ) : String :=
  match [Trace.Sc.accept, .acceptBegin, .close, .connect, .connectBegin, .debug, .dup, .dupFcntl,
    .httpsRead, .poll, .pollBegin, .ppData, .ppFcgiHmm, .ppId, .ppInit, .ppIsoPoll, .ppIsoRead,
    .ppMsgRecv, .ppMsgSend, .ppProp, .ppReqBegin, .ppShutdown, .read, .readBegin, .recv, .recvfrom,
    .recvfromBegin, .recvBegin, .select, .selectBegin, .send, .sendto, .sendtoBegin, .sendBegin,
    .socket, .write, .writev, .writevBegin, .writeBegin].find?
      fun sc => (sysNum sc).toInt = i with
  | some sc => sc.name
  | none => "Syscall_render_error"

/-- `syscalls.ml` for those events. -/
def sysNamed : Syscalls where
  scStrOfInt := sysName
  strOfPpid _ := none
  word i := by
    unfold sysName
    split
    · next sc _ => cases sc <;> exact List.all_eq_true.1 (by decide)
    · exact List.all_eq_true.1 (by decide)

theorem numbered_sysNamed : Numbered sysNamed sysNum where
  name sc := by cases sc <;> rfl
  short sc := by cases sc <;> decide

/-- A process whose descriptors have no processors. -/
def plainProcess : Trace.Process Unit := ⟨fun _ => Trace.Vfd.zero (), Trace.FdSets.zero⟩

/-- The context of its thread. -/
def plainCtx : ThreadCtx := allocCtx 300 17 fun _ => 0

theorem inBuffer_plainCtx : plainCtx.InBuffer := ⟨Int.le_refl 0, by simp [plainCtx, allocCtx]⟩

/-- A log written a byte at a time. -/
def plainEnv : LogEnv := ⟨fun _ _ => 1, ⟨100, 7⟩, ascii "apache"⟩

theorem short_plainEnv : plainEnv.writes.Short := fun _ _ h => ⟨Int.le_refl 1, h⟩

/-- A read from a plain descriptor is a read of the kernel. -/
theorem read_plain (len : ℕ) (k : Trace.Kernel) : ∃ q,
    (Trace.IoCall.read len k).run plainProcess 5 = .ok q ∧ q.ret = (k 0 len).ret := ⟨_, rfl, rfl⟩

theorem traced_five : 0 ≤ (5 : ℤ) ∧ 5 < Trace.maxFds := by decide

/-- A read of one byte is read as one. -/
theorem io_classified_iff_oneByte : ∃ q,
    (Trace.IoCall.read 8 (.give [7])).run plainProcess 5 = .ok q ∧ ∃ tr e le,
      q.trace = tr ++ [.log e] ∧ LoggedAs sysNum plainCtx plainEnv e le ∧
        (ClassifiedAs sysNamed le (.read 5) ∧ ¬ ClassifiedAs sysNamed le .skipEvent ↔
          q.ret % 2 ^ 16 < 2 ^ 15) := by
  obtain ⟨q, hq, -⟩ := read_plain 8 (.give [7])
  exact ⟨q, hq, io_classified_iff numbered_sysNamed traced_five hq inBuffer_plainCtx short_plainEnv⟩

/-- A file of 32768 bytes. -/
def bigFile : Trace.Kernel := .give (List.replicate 32768 0)

theorem bigFile_ret : (bigFile 0 65536).ret = 32768 := by
  have hlen : ((List.replicate 32768 (0 : Byte)).take 65536).length = 32768 := by
    rw [List.length_take, List.length_replicate]
    rfl
  unfold bigFile Trace.Kernel.give
  rw [dif_neg (by omega)]
  exact congrArg Nat.cast hlen

/-- **A read of 32768 bytes is skipped.** -/
theorem bigFile_skipped : ∃ q,
    (Trace.IoCall.read 65536 bigFile).run plainProcess 5 = .ok q ∧ q.ret = 32768 ∧ ∃ tr e le,
      q.trace = tr ++ [.log e] ∧ LoggedAs sysNum plainCtx plainEnv e le ∧
        ClassifiedAs sysNamed le .skipEvent ∧ ¬ ClassifiedAs sysNamed le (.read 5) := by
  obtain ⟨q, hq, hret⟩ := read_plain 65536 bigFile
  rw [bigFile_ret] at hret
  obtain ⟨tr, htr⟩ := Trace.IoCall.run_trace traced_five hq
  obtain ⟨le, hle, hname, harg, hrv⟩ := loggedAs_io numbered_sysNamed traced_five
    (.read 65536 bigFile) q.ret inBuffer_plainCtx short_plainEnv
  have hneg : le.fz.rv.toInt < 0 := by
    rw [hrv, hret]
    decide
  have hskip := (classifiedAs_iff _ hname).2.2 hneg
  refine ⟨q, hq, hret, tr, _, le, htr, hle, hskip, fun h => ?_⟩
  cases h.unique hskip

end BorderPatrol.Agg
