import BorderPatrol.Agg.Db
import BorderPatrol.Agg.Designations
import BorderPatrol.Agg.Inheritance
import BorderPatrol.Agg.Traced
import BorderPatrol.Logd.Forks
import BorderPatrol.Trace.Exec

/-!
# Requests that are handed on

A thread hands its work on when it forks a process, and when it starts a program. The child of a
fork logs the thread it comes from, and so does the program: it finds the id in its environment,
where the wrapped `execve` and the other functions of its family put it (`Launched.ptid`). The
aggregator reads an event of each of these records that names the thread (`handsOver_read`). So
along any chain of forks and programs the last thread is found to work on the request that the first
one worked on, in all states of a run, if and only if each `Exec` keeps the request of its caller
and no other event gives the thread another one (`handed_on_iff`).
-/

namespace BorderPatrol.Agg

open Foundations Logd

/-! ## Handing on -/

/-- A thread under the tracer. -/
structure Traced where
  pid : Int32
  tid : UInt64

/-- The thread, as the aggregator knows it. -/
def Traced.mid (t : Traced) : Mid := ⟨t.tid.toInt64.toInt, t.pid.toInt⟩

/-- A thread with the id `tid` starts a program that finds the environment `env`. -/
inductive Launched (tid : UInt64) : List (List Byte) → Prop
  | execve {t : Trace.ExecCaller} {filename : List Byte} {argv envp : List (List Byte)}
      {call : Trace.ExecveCall} (ht : t.tid = tid)
      (hcall : Trace.execve t filename argv envp = .ok call) : Launched tid call.envp
  | others {t : Trace.ExecCaller} (path : List Byte) (ht : t.tid = tid) :
      Launched tid (Trace.setenvCarry t path)

/-- The thread `u` goes on with the work of `t`: it is the child of a fork, or the thread of a
program that `t` started. It logs the call `c` then, where the build has given `SYS_FORK` and
`SYS_EXEC_CHILD` their numbers. -/
inductive HandsOver (sysFork sysExecChild : Int32) (t : Traced) : Traced → LogbinCall → Prop
  | fork (u : Traced) : HandsOver sysFork sysExecChild t u (logbinli sysFork 0 t.tid t.pid)
  | exec {env : List (List Byte)} {ptid : ℕ} (tid : UInt64) (henv : Launched t.tid env)
      (hptid : (Trace.vfdInitEnv env).ptid = some ptid) :
      HandsOver sysFork sysExecChild t ⟨t.pid, tid⟩
        (logbinli sysExecChild 0 (UInt64.ofNat ptid) t.pid)

/-- The event `e` is read of the record of a log call of the thread `u`. -/
def ReadFrom (S : Syscalls) (u : Traced) (c : LogbinCall) (e : Stream) : Prop :=
  ∃ r ev, Logged u.pid u.tid c r ∧ streamOfLogentry S r.entry = .ok (ev, e.sType) ∧
    e.sEv.pid = ev.pid ∧ e.sEv.tid = ev.tid

/-- The names of the two calls. -/
structure NamesHandovers (S : Syscalls) (sysFork sysExecChild : Int32) : Prop where
  fork : S.scStrOfInt sysFork.toInt16.toInt = "SYS_FORK"
  execChild : S.scStrOfInt sysExecChild.toInt16.toInt = "SYS_EXEC_CHILD"

variable {S : Syscalls} {sysFork sysExecChild : Int32} {t u : Traced} {c : LogbinCall} {e : Stream}

/-! ## The events -/

/-- **The program started** finds the thread that started it. -/
theorem Launched.ptid {tid : UInt64} {env : List (List Byte)} (h : Launched tid env) :
    (Trace.vfdInitEnv env).ptid = some tid.toNat := by
  cases h with
  | @execve t filename argv envp call ht hcall =>
    rw [Trace.execve_of_fits argv envp (Trace.fits_of_execve hcall)] at hcall
    cases hcall
    have hptid : getenv (t.entries filename ++ envp) (ascii "BB_EXEC_PTID") =
        some (decimal t.tid.toNat) :=
      Trace.getenv_of_vars .bbExecPtid (by simp [Trace.ExecCaller.vars, List.lookup_cons])
    simp only [Trace.vfdInitEnv, hptid, Option.map_some, Trace.strtoull_decimal t.tid.toNat_lt]
    rw [ht]
  | @others t path ht => exact ht ▸ (Trace.setenvCarry_carried t path).started.2.1

theorem toInt64_of_lt {tid : UInt64} (h : tid.toNat < 2 ^ 63) : tid.toInt64.toInt = tid.toNat := by
  change tid.toBitVec.toInt = tid.toBitVec.toNat
  exact BitVec.toInt_eq_toNat_of_lt (show 2 * tid.toNat < 2 ^ 64 by omega)

/-- A record of a handover has the id of the thread in its string. -/
theorem string_logbinli {sc rv : Int32} {tid : UInt64} {pid : Int32} {r : Record}
    (h : Logged u.pid u.tid (logbinli sc rv tid pid) r) : r.entry.string = decimal tid.toNat := by
  have hdigit : ∀ b ∈ decimal tid.toNat, 48 ≤ b.toNat := fun b hb => (decimal_mem hb).1
  have hzero : ∀ b ∈ decimal tid.toNat, b ≠ 0 := by
    rintro b hb rfl
    exact absurd (hdigit 0 hb) (by decide)
  have hkept : (decimal tid.toNat).map underscored = decimal tid.toNat := by
    refine (List.map_congr_left fun b hb => if_neg ?_).trans (List.map_id _)
    rintro rfl
    exact absurd (hdigit 10 hb) (by decide)
  have hstr : r.str = decimal tid.toNat := by
    rw [h.str]
    change (cstr (decimal tid.toNat ++ [0])).map underscored = _
    rw [cstr_append_zero hzero, hkept]
  rw [string_entry (hstr ▸ hzero), hstr]

/-- The event of a handover has the thread that handed on. -/
theorem readFrom_logbinli {sc : Int32} {tid : UInt64} {pid : Int32} {name : String}
    (hname : S.scStrOfInt sc.toInt16.toInt = name)
    (hptid : name = "SYS_EXEC_CHILD" ∨ name = "SYS_FORK")
    (h : ReadFrom S u (logbinli sc 0 tid pid) e) : e.mid = u.mid ∧ ∃ ev : FullEvent,
      mkEventtype S ev = .ok e.sType ∧ ev.scStr = name ∧ ev.rv = 0 ∧ ev.arg1 = pid.toInt ∧
      ev.ptid = tid.toInt64.toInt := by
  obtain ⟨r, ev, hlogged, hstream, hpid, htid⟩ := h
  obtain ⟨hev, htype⟩ := streamOfLogentry_type hstream
  unfold eventOfLogentry at hev
  obtain ⟨ptid, hread, hev⟩ := bind_eq_ok hev
  cases hev
  have hsc : S.scStrOfInt r.entry.fz.sc.toInt = name := by
    rw [← hname, show r.entry.fz.sc = sc.toInt16 from hlogged.sc]
  have hargs : r.args = [pid] := hlogged.args
  refine ⟨?_, _, htype, hsc, ?_, ?_, ?_⟩
  · rw [Stream.mid, Traced.mid, hpid, htid]
    simp only [binlogMkpid, binlogMktid]
    rw [show r.entry.fz.tid = u.tid from hlogged.tid,
      show r.entry.fz.pid = u.pid.toUInt32 from hlogged.pid, Int32.toInt32_toUInt32]
  · change r.entry.fz.rv.toInt = 0
    rw [show r.entry.fz.rv = 0 from hlogged.rv]
    rfl
  · change ((r.args ++ _).getD 0 0).toInt = _
    rw [hargs]
    rfl
  · rw [ptidOf, hsc, if_pos hptid, string_logbinli hlogged] at hread
    rcases hx : int64OfString (decimal tid.toNat) with _ | x
    · rw [hx] at hread
      cases hread
    · rw [hx] at hread
      cases hread
      obtain ⟨rfl, hlt⟩ := int64OfString_decimal hx
      exact (toInt64_of_lt hlt).symm

/-- The type of the event of a handover. -/
inductive Handed (t : Traced) (e : Stream) : Prop
  | fork (htype : e.sType = .fork t.mid.pid t.mid.tid)
  | exec (htype : e.sType = .exec t.mid.tid) (hpid : e.sEv.pid = t.mid.pid)

/-- **The event of a handover** is of the thread that goes on, and names the one that handed on. -/
theorem handsOver_read (hnames : NamesHandovers S sysFork sysExecChild)
    (hover : HandsOver sysFork sysExecChild t u c) (hread : ReadFrom S u c e) :
    e.mid = u.mid ∧ Handed t e := by
  cases hover with
  | fork =>
    obtain ⟨hmid, ev, htype, hsc, hrv, harg, hptid⟩ :=
      readFrom_logbinli hnames.fork (.inr rfl) hread
    refine ⟨hmid, .fork ?_⟩
    rw [mkEventtype, if_neg (by omega), hsc] at htype
    exact (Except.ok.inj htype).symm.trans (by rw [harg, hptid]; rfl)
  | @exec env ptid tid henv hptid =>
    obtain ⟨hmid, ev, htype, hsc, hrv, harg, hpt⟩ :=
      readFrom_logbinli hnames.execChild (.inl rfl) hread
    have hstarted : t.tid.toNat = ptid := Option.some.inj (henv.ptid.symm.trans hptid)
    refine ⟨hmid, .exec ?_ (congrArg Mid.pid hmid)⟩
    rw [mkEventtype, if_neg (by omega), hsc] at htype
    refine (Except.ok.inj htype).symm.trans ?_
    rw [hpt, ← hstarted, UInt64.ofNat_toNat]
    rfl

/-! ## What an event gives its thread -/

/-- The request that an event gives its thread, where it gives one. -/
def assigned (port : ℤ) (j : Joiner) (e : Stream) : Option ℤ :=
  match e.sType with
  | .fork ppid ptid => some (dgnGet j.ctx ⟨ptid, ppid⟩)
  | .exec _ => some (((j.ctx.firstOfProcess e.sEv.pid).map Dgn.rid).getD (-1))
  | .poll false fd => some (ridOfMsg j.ctx j.gensymCt e.sEv.pid fd fakeMsgId).1
  | .read fd =>
    let nrid := (ridOfMsg j.ctx j.gensymCt e.sEv.pid fd fakeMsgId).1
    if nrid = -1 then none else some nrid
  | .messageRecv _ fd msgid =>
    let (conn, g) := connOfFd j.ctx j.gensymCt e.sEv.pid fd
    some (if distinguishedConn port conn then j.genridCt + 1
      else (ridOfMsg j.ctx g e.sEv.pid fd msgid).1)
  | .exit | .abort | .shutdown => some (-1)
  | _ => none

variable {o : Orders} {port : ℤ} {j j' : Joiner}

theorem dgnGet_of_dgnSet {ctx ctx' : Ctx} {mid : Mid} {rid : ℤ}
    (h : ctx'.cDgn = (dgnSet ctx mid rid).cDgn) : dgnGet ctx' mid = rid :=
  (dgnGet_congr h mid).trans (dgnGet_dgnSet ctx mid rid)

theorem joinRecv_dgn (port : ℤ) (j : Joiner) (ev : Event) (prot : List Byte) (fd msgid : ℤ) :
    some (dgnGet (joinRecv port j ev prot fd msgid).ctx ⟨ev.tid, ev.pid⟩) =
      assigned port j ⟨.messageRecv prot fd msgid, ev⟩ := by
  simp only [assigned]
  by_cases hd : distinguishedConn port (connOfFd j.ctx j.gensymCt ev.pid fd).1 = true
  · simp only [joinRecv, hd, if_true]
    exact congrArg some (dgnGet_of_dgnSet rfl)
  · simp only [joinRecv, hd]
    exact congrArg some (dgnGet_of_dgnSet rfl)

/-- The thread of an event has what the event gives it, or what it had. -/
theorem streamJoin_own (h : streamJoin o port j e = .ok j') :
    dgnGet j'.ctx e.mid = (assigned port j e).getD (dgnGet j.ctx e.mid) := by
  cases hx : e.sType.isExec with
  | true =>
    rw [dgnGet_exec hx h]
    obtain ⟨type, ev⟩ := e
    cases type <;> cases hx
    rfl
  | false =>
    obtain ⟨type, ev⟩ := e
    unfold streamJoin at h
    cases type with
    | exec ptid => cases hx
    | connect fd rdv => exact dgnGet_congr (joinRename_dgn h) _
    | protocolInit fd => exact dgnGet_congr (joinRename_dgn h) _
    | fork ppid ptid =>
      cases h
      exact dgnGet_of_dgnSet rfl
    | poll timedOut fd =>
      cases timedOut <;> cases h
      · exact dgnGet_of_dgnSet rfl
      · rfl
    | read fd =>
      cases h
      set nrid := (ridOfMsg j.ctx j.gensymCt ev.pid fd fakeMsgId).1 with hnrid
      change dgnGet (if nrid = -1 then j.ctx else dgnSet j.ctx ⟨ev.tid, ev.pid⟩ nrid) _ =
        (if nrid = -1 then none else some nrid).getD _
      by_cases hr : nrid = -1
      · rw [if_pos hr, if_pos hr]
        rfl
      · rw [if_neg hr, if_neg hr]
        exact dgnGet_of_dgnSet rfl
    | messageRecv prot fd msgid =>
      cases h
      exact congrArg (Option.getD · _) (joinRecv_dgn port j ev prot fd msgid)
    | exit | abort | shutdown =>
      cases h
      exact dgnGet_of_dgnSet rfl
    | unknown => cases h
    | _ =>
      cases h
      rfl

/-- No thread of the process but that of the `Exec` has a request. -/
theorem streamJoin_exec_others (hx : e.sType.isExec = true) (h : streamJoin o port j e = .ok j')
    {mid : Mid} (hmid : mid ≠ e.mid) (hpid : mid.pid = e.sEv.pid) : dgnGet j'.ctx mid = -1 := by
  have hnone : j'.ctx.cDgn.find? (fun d => mideq d.mid mid && d.rid ≠ -1) = none := by
    rw [List.find?_eq_none, streamJoin_exec hx h, List.forall_mem_map]
    intro d _ hd
    rw [Bool.and_eq_true, mideq_iff] at hd
    obtain ⟨hd, -⟩ := hd
    by_cases hp : d.mid.pid = e.sEv.pid
    · rw [if_pos hp] at hd
      exact hmid hd.symm
    · rw [if_neg hp] at hd
      exact hp (hd ▸ hpid)
  rw [dgnGet, hnone]

theorem assigned_clearFlags (port : ℤ) (j : Joiner) (e : Stream) :
    assigned port { j with ctx := clearFlags j.ctx } e = assigned port j e := by
  obtain ⟨type, ev⟩ := e
  cases type with
  | fork ppid ptid => exact congrArg some (dgnGet_clearFlags j.ctx _)
  | exec ptid =>
    exact congrArg (fun r => some (r.getD (-1))) (firstOfProcess_clearFlags j.ctx ev.pid)
  | poll timedOut fd => cases timedOut <;> rfl
  | _ => rfl

/-- **What a thread is working on** after an event. -/
theorem dgnGet_joinStep (h : joinStep o port j e = .ok j') (mid : Mid) : dgnGet j'.ctx mid =
    if mid = e.mid then (assigned port j e).getD (dgnGet j.ctx mid)
    else if e.sType.isExec = true ∧ mid.pid = e.sEv.pid then -1
    else dgnGet j.ctx mid := by
  by_cases hmid : mid = e.mid
  · rw [if_pos hmid, hmid, streamJoin_own h, assigned_clearFlags, dgnGet_clearFlags]
  · rw [if_neg hmid]
    cases hx : e.sType.isExec with
    | true =>
      by_cases hpid : mid.pid = e.sEv.pid
      · rw [if_pos ⟨rfl, hpid⟩, streamJoin_exec_others hx h hmid hpid]
      · rw [if_neg fun h => hpid h.2, streamJoin_exec_dgn hx h hpid, dgnGet_clearFlags]
    | false =>
      rw [if_neg fun h => Bool.false_ne_true h.1, streamJoin_dgn hx h hmid, dgnGet_clearFlags]

/-! ## Chains -/

/-- The thread that has the work, and what the join works on. An event is joined, and where a thread
goes on with the work with it, it is that of the thread. -/
def descend (o : Orders) (port : ℤ) (s : Traced × Joiner) (p : Option Traced × Stream) :
    Except JoinError (Traced × Joiner) :=
  joinStep o port s.2 p.2 >>= fun j => .ok (p.1.getD s.1, j)

/-- Each thread that goes on with the work does so for the one before, and its event is read of what
it logs. -/
def HandedOn (S : Syscalls) (sysFork sysExecChild : Int32) :
    Traced → List (Option Traced × Stream) → Prop
  | _, [] => True
  | t, (some u, e) :: ps =>
    (∃ c, HandsOver sysFork sysExecChild t u c ∧ ReadFrom S u c e) ∧
      HandedOn S sysFork sysExecChild u ps
  | t, (none, _) :: ps => HandedOn S sysFork sysExecChild t ps

/-- Where the work is handed on by `exec`, the request of the thread is the first of its process.
Another event gives the thread no other request, and does not end it while it has one. -/
def KeepsWork (port : ℤ) (s : Traced × Joiner) (p : Option Traced × Stream) : Prop :=
  match p.1 with
  | some _ => CallerLeads s.2 p.2
  | none =>
    if p.2.mid = s.1.mid then ∀ r ∈ assigned port s.2 p.2, r = dgnGet s.2.ctx s.1.mid
    else p.2.sType.isExec = true → p.2.sEv.pid = s.1.mid.pid → dgnGet s.2.ctx s.1.mid = -1

/-- A thread that goes on with the work has the request if and only if the work is kept. -/
theorem keepsWork_handed (hmid : e.mid = u.mid) (hover : Handed t e)
    (h : joinStep o port j e = .ok j') :
    dgnGet j'.ctx u.mid = dgnGet j.ctx t.mid ↔ KeepsWork port (t, j) (some u, e) := by
  change _ ↔ CallerLeads j e
  cases hover with
  | fork htype =>
    have hleads : CallerLeads j e := by
      intro ptid hexec
      rw [htype] at hexec
      cases hexec
    refine iff_of_true ?_ hleads
    rw [dgnGet_joinStep h, if_pos hmid.symm, assigned, htype]
    rfl
  | exec htype hpid =>
    rw [← show KeepsCaller o port j e ↔ CallerLeads j e from keepsCaller_iff j e, ← hmid]
    constructor
    · intro hget ptid hexec j₁ hj₁
      cases hj₁.symm.trans h
      cases hexec.symm.trans htype
      rw [hget, hpid]
    · intro hkeeps
      rw [hkeeps t.mid.tid htype j' h, hpid]

/-- So it is for the thread that has the work, at another event. -/
theorem keepsWork_other (h : joinStep o port j e = .ok j') :
    dgnGet j'.ctx t.mid = dgnGet j.ctx t.mid ↔ KeepsWork port (t, j) (none, e) := by
  simp only [KeepsWork]
  rw [dgnGet_joinStep h]
  by_cases hmid : e.mid = t.mid
  · rw [if_pos hmid, if_pos hmid.symm]
    cases assigned port j e <;> simp
  · rw [if_neg hmid, if_neg (Ne.symm hmid)]
    by_cases hexec : e.sType.isExec = true ∧ t.mid.pid = e.sEv.pid
    · rw [if_pos hexec]
      exact ⟨fun hr _ _ => hr.symm, fun hnone => (hnone hexec.1 hexec.2.symm).symm⟩
    · rw [if_neg hexec]
      exact iff_of_true rfl fun hx hpid => absurd ⟨hx, hpid.symm⟩ hexec

/-- The handovers of a run are those of its list. -/
theorem HandedOn.along {ps : List (Option Traced × Stream)}
    (h : HandedOn S sysFork sysExecChild t ps) (j : Joiner) :
    Along (descend o port) (t, j) ps fun s p => ∀ u ∈ p.1, ∃ c,
      HandsOver sysFork sysExecChild s.1 u c ∧ ReadFrom S u c p.2 := by
  induction ps generalizing t j with
  | nil => exact along_nil
  | cons p ps ih =>
    obtain ⟨u, e⟩ := p
    rw [along_cons]
    rintro s hs
    obtain ⟨j', -, hs⟩ := bind_eq_ok hs
    cases hs
    cases u with
    | none => exact ⟨fun u hu => absurd hu (Option.not_mem_none u), ih h j'⟩
    | some u =>
      obtain ⟨hu, h⟩ := h
      refine ⟨fun u' hu' => ?_, ih h j'⟩
      cases hu'
      exact hu

/-- **A request is handed on.** Along a chain of forks and programs the last thread is found to work
on the request that the first one worked on, in all states of a run, if and only if each `Exec`
keeps the request of its caller and the other events keep that of the thread. -/
theorem handed_on_iff (hnames : NamesHandovers S sysFork sysExecChild)
    {ps : List (Option Traced × Stream)} (h : HandedOn S sysFork sysExecChild t ps) (o : Orders)
    (port : ℤ) (j : Joiner) :
    Always (descend o port) (t, j) ps (fun s => dgnGet s.2.ctx s.1.mid = dgnGet j.ctx t.mid) ↔
      Along (descend o port) (t, j) ps (KeepsWork port) := by
  refine (h.along j).always_iff (I := fun _ => True) trivial rfl ?_
  rintro ⟨t₁, j₁⟩ ⟨u, e⟩ s' - hget hover hstep
  obtain ⟨j₂, hj₂, hs⟩ := bind_eq_ok hstep
  cases hs
  simp only at hget hover hj₂ ⊢
  rw [← hget]
  refine ⟨trivial, ?_⟩
  cases u with
  | none => exact keepsWork_other hj₂
  | some u =>
    obtain ⟨c, hc, hread⟩ := hover u rfl
    obtain ⟨hmid, hhanded⟩ := handsOver_read hnames hc hread
    exact keepsWork_handed hmid hhanded hj₂

/-- `syscalls.ml` for the calls of two numbers. -/
def handoverNamed : Syscalls where
  scStrOfInt i := if i = 29 then "SYS_FORK" else if i = 31 then "SYS_EXEC_CHILD" else "SYS_NOTE"
  strOfPpid _ := none
  word i := by
    split
    · exact List.all_eq_true.1 (by decide)
    · split <;> exact List.all_eq_true.1 (by decide)

/-- The record of the thread `u`, which goes on with the work of a thread with the id 1. -/
def handoverRecord (u : Traced) (sc : Int16) (ppid : Int32) : Record where
  fz := {
    tid := u.tid
    pid := u.pid.toUInt32
    cycleHigh := 7
    cycleLow := 0
    sc := sc
    rv := 0
    nm := 112
    argLen := 1
    strLen := 1
    padding := ⟨[0, 0, 0, 0], length_zeroPadding⟩ }
  args := [ppid]
  str := [49]
  args_le := Nat.le_of_ble_eq_true rfl
  argLen := rfl
  strLen := rfl

theorem logged_handoverRecord (u : Traced) (sc : Int32) (ppid : Int32) :
    Logged u.pid u.tid (logbinli sc 0 1 ppid) (handoverRecord u sc.toInt16 ppid) where
  tid := rfl
  pid := rfl
  sc := rfl
  rv := rfl
  args := rfl
  str := show [49] = (cstr (decimal (1 : ℕ) ++ [0])).map underscored by decide

/-- A thread that works on a request forks, and its child starts a program. -/
def forkExec : List (Option Traced × Stream) :=
  [(some ⟨20, 1⟩, eventOf 20 1 (.fork 10 1)), (none, eventOf 20 1 (.socket 4)),
    (some ⟨20, 2⟩, eventOf 20 2 (.exec 1))]

theorem handedOn_forkExec : HandedOn handoverNamed 29 31 ⟨10, 1⟩ forkExec := by
  have hlaunched : Launched 1 (Trace.setenvCarry ⟨[], [], 1, 0, 0, 0⟩ (ascii "/bin/sh")) :=
    .others _ rfl
  exact ⟨⟨_, .fork _, _, _, logged_handoverRecord ⟨20, 1⟩ 29 10, rfl, rfl, rfl⟩,
    ⟨_, .exec 2 hlaunched hlaunched.ptid, _, _, logged_handoverRecord ⟨20, 2⟩ 31 20, rfl, rfl, rfl⟩,
    trivial⟩

/-- The join when that thread works on the first request. -/
def working : Joiner :=
  { Joiner.start with ctx := { Ctx.empty with cDgn := [⟨⟨1, 10⟩, 1, false⟩] }, genridCt := 1 }

theorem handed_on_iff_forkExec :
    Always (descend .listed 80) (⟨10, 1⟩, working) forkExec
        (fun s => dgnGet s.2.ctx s.1.mid = dgnGet working.ctx (Traced.mid ⟨10, 1⟩)) ↔
      Along (descend .listed 80) (⟨10, 1⟩, working) forkExec (KeepsWork 80) :=
  handed_on_iff ⟨rfl, rfl⟩ handedOn_forkExec .listed 80 working

end BorderPatrol.Agg
