import BorderPatrol.Agg.Classification
import BorderPatrol.Agg.Sessions
import BorderPatrol.Logd.Common

/-!
# From traced sessions to requests

Each log call of a traced session becomes a record of the log, and the aggregator reads an event of
each record. The events of the messages say what the log calls said (`said_of_readOf`), and those of
all other log calls leave the connection as it is. So the join attributes every message that a side
receives to the request that the other side was working on when it sent it, among the events of any
other threads and processes that leave the connection to its ends (`Speaking.attributed`). This is
so for PostgreSQL and for MySQL (`sessions_attributed`).
-/

namespace BorderPatrol.Agg

open Foundations Foundations.Resumable Logd

/-! ## Events of log calls -/

/-- The event `e` is read of the record of a log call, where the processes have the ids `pid`. -/
def ReadOf (S : Syscalls) (num : Trace.Sc → Int32) (pid : Side → Int32) (q : SessionLog)
    (e : Stream) : Prop :=
  ∃ r ev, Logged (pid q.side) q.tid (logbinCall num q.call) r ∧
    streamOfLogentry S r.entry = .ok (ev, e.sType) ∧ e.sEv.pid = ev.pid ∧ e.sEv.tid = ev.tid

/-- The ends of the connection, as the aggregator sees them. -/
def tracedEnds (pid : Side → Int32) (fd : Side → ℤ) : Ends := ⟨fun x => (pid x).toInt, fd⟩

variable {S : Syscalls} {num : Trace.Sc → Int32} {pid : Side → Int32} {fd : Side → ℤ}
  {q : SessionLog} {e : Stream}

/-- The fields of an event. -/
theorem eventOfLogentry_fields {le : LogentryThaw} {ev : FullEvent}
    (h : eventOfLogentry S le = .ok ev) : ev.pid = binlogMkpid le ∧
      ev.scStr = S.scStrOfInt le.fz.sc.toInt ∧ ev.rv = le.fz.rv.toInt ∧ ev.arg1 = binlogArg1 le ∧
      ev.arg2 = binlogArg2 le ∧ ev.arg3 = binlogArg3 le ∧ ev.str = le.string := by
  unfold eventOfLogentry at h
  obtain ⟨ptid, -, h⟩ := bind_eq_ok h
  cases h
  exact ⟨rfl, rfl, rfl, rfl, rfl, rfl, rfl⟩

theorem streamOfLogentry_type {le : LogentryThaw} {ev : FullEvent} {type : EventType}
    (h : streamOfLogentry S le = .ok (ev, type)) :
    eventOfLogentry S le = .ok ev ∧ mkEventtype S ev = .ok type := by
  have hev := streamOfLogentry_ok h
  rw [streamOfLogentry, hev] at h
  obtain ⟨type', htype, h⟩ := bind_eq_ok h
  cases h
  exact ⟨hev, htype⟩

/-- The name of the event of a log call. -/
theorem scStr_logged (hnum : Numbered S num) {i : Int32} {tid : UInt64} {a : Trace.LogCall}
    {r : Record} (h : Logged i tid (logbinCall num a) r) :
    S.scStrOfInt r.fz.sc.toInt = a.sc.name := by
  have hshort := hnum.short a.sc
  have hsc : r.fz.sc = (num a.sc).toInt16 := h.sc
  rw [hsc, Int32.toInt_toInt16, Int.bmod_def, if_pos (by omega), ← hnum.name a.sc]
  congr 1
  omega

theorem toInt_ofInt32 (k : ℤ) : (Int32.ofInt k).toInt = toInt k := Int32.toInt_ofInt

/-- What is read of a log call comes from its record. -/
structure EventOf (S : Syscalls) (c : Trace.LogCall) (r : Record) (ev : FullEvent) : Prop where
  scStr : ev.scStr = c.sc.name
  rv : ev.rv = (Int32.ofInt c.rv).toInt16.toInt
  arg1 : ev.arg1 = (r.entry.arg.getD 0 0).toInt
  arg2 : ev.arg2 = (r.entry.arg.getD 1 0).toInt
  arg3 : ev.arg3 = (r.entry.arg.getD 2 0).toInt
  str : ev.str = r.entry.string

theorem readOf_event (hnum : Numbered S num) (h : ReadOf S num pid q e) :
    e.sEv.pid = (pid q.side).toInt ∧ ∃ r ev,
      Logged (pid q.side) q.tid (logbinCall num q.call) r ∧ mkEventtype S ev = .ok e.sType ∧
      EventOf S q.call r ev := by
  obtain ⟨r, ev, hlogged, hstream, hpid, -⟩ := h
  obtain ⟨hev, htype⟩ := streamOfLogentry_type hstream
  obtain ⟨hevpid, hsc, hrv, harg1, harg2, harg3, hstr⟩ := eventOfLogentry_fields hev
  refine ⟨?_, r, ev, hlogged, htype, hsc.trans (scStr_logged hnum hlogged), ?_, harg1, harg2,
    harg3, hstr⟩
  · rw [hpid, hevpid]
    change r.fz.pid.toInt32.toInt = _
    rw [hlogged.pid, Int32.toInt32_toUInt32]
  · rw [hrv]
    change r.fz.rv.toInt = _
    rw [hlogged.rv]
    rfl

/-- The event of a message. -/
theorem readOf_message (hnum : Numbered S num) {sc : Trace.Sc} {role s i : ℤ} {name : List Byte}
    (hs : 0 ≤ s ∧ s < Trace.maxFds) (hq : q.call = Trace.reports sc role s name i)
    (h : ReadOf S num pid q e) : e.sEv.pid = (pid q.side).toInt ∧ ∃ ev : FullEvent,
      mkEventtype S ev = .ok e.sType ∧ ev.scStr = sc.name ∧ ev.rv = 0 ∧ ev.arg2 = s ∧
      ev.arg3 = toInt i := by
  obtain ⟨hpid, r, ev, hlogged, htype, hev⟩ := readOf_event hnum h
  have hargs : r.args = [Int32.ofInt role, Int32.ofInt s, Int32.ofInt i] := by
    rw [hlogged.args, hq]
    rfl
  refine ⟨hpid, ev, htype, ?_, ?_, ?_, ?_⟩
  · rw [hev.scStr, hq]
    rfl
  · rw [hev.rv, hq]
    rfl
  · rw [hev.arg2]
    change ((r.args ++ _).getD 1 0).toInt = _
    rw [hargs]
    change (Int32.ofInt s).toInt = s
    rw [toInt_ofInt32, toInt_of_lt (by omega) (by rw [Trace.maxFds] at hs; omega)]
  · rw [hev.arg3]
    change ((r.args ++ _).getD 2 0).toInt = _
    rw [hargs]
    exact toInt_ofInt32 i

/-- The events that are neither of messages nor change anything. -/
def EventType.isQuiet : EventType → Bool
  | .skipEvent | .readBegin _ | .read _ | .writeBegin _ | .write _ => true
  | _ => false

theorem mkEventtype_quiet {ev : FullEvent} {type : EventType} {sc : Trace.Sc}
    (hq : sc.quiet = true) (hname : ev.scStr = sc.name) (h : mkEventtype S ev = .ok type) :
    type.isQuiet = true := by
  unfold mkEventtype at h
  rw [hname] at h
  split_ifs at h
  · cases h
    rfl
  · cases h
    rfl
  · cases sc <;> first | (cases hq; done) | (cases h; rfl)

/-- The event of a quiet log call. -/
theorem readOf_quiet (hnum : Numbered S num) (hq : q.call.sc.quiet = true)
    (h : ReadOf S num pid q e) : e.sType.isQuiet = true := by
  obtain ⟨-, r, ev, -, htype, hev⟩ := readOf_event hnum h
  exact mkEventtype_quiet hq hev.scStr htype

theorem said_of_isQuiet {E : Ends} (h : e.sType.isQuiet = true) : said E e = none := by
  unfold said
  split
  · next htype => rw [htype] at h; cases h
  · next htype => rw [htype] at h; cases h
  · rfl

theorem mkEventtype_send {ev : FullEvent} {type : EventType}
    (hname : ev.scStr = Trace.Sc.ppMsgSend.name) (hrv : ev.rv = 0)
    (h : mkEventtype S ev = .ok type) : ∃ prot, type = .messageSend prot ev.arg2 ev.arg3 := by
  rw [mkEventtype, if_neg (by omega), hname] at h
  obtain ⟨prot, -, h⟩ := bind_eq_ok h
  exact ⟨prot, (Except.ok.inj h).symm⟩

theorem mkEventtype_recv {ev : FullEvent} {type : EventType}
    (hname : ev.scStr = Trace.Sc.ppMsgRecv.name) (hrv : ev.rv = 0)
    (h : mkEventtype S ev = .ok type) : ∃ prot, type = .messageRecv prot ev.arg2 ev.arg3 := by
  rw [mkEventtype, if_neg (by omega), hname] at h
  obtain ⟨prot, -, h⟩ := bind_eq_ok h
  exact ⟨prot, (Except.ok.inj h).symm⟩

variable {σ τ : Type} {D : Dialogue σ τ}

/-- **The events say what the log calls said.** Those of all other log calls say nothing, and all
leave the connection to its ends. -/
theorem said_of_readOf (hnum : Numbered S num) (hfd : ∀ x, 0 ≤ fd x ∧ fd x < Trace.maxFds)
    (hE : (tracedEnds pid fd).Distinct) (hq : D.Reported fd q) (h : ReadOf S num pid q e) :
    said (tracedEnds pid fd) e = q.said ∧ ∀ c ctx, Apart (tracedEnds pid fd) c ctx e := by
  obtain ⟨x, tid, call⟩ := q
  rcases hq with ⟨sc, i, hsc, hcall⟩ | hquiet
  · obtain rfl : call = Trace.reports sc (D.role x) (fd x) (D.name x) i := hcall
    obtain ⟨hpid, ev, htype, hname, hrv, harg2, harg3⟩ := readOf_message hnum (hfd x) rfl h
    rcases hsc with rfl | rfl
    · obtain ⟨prot, hsend⟩ := mkEventtype_send hname hrv htype
      rw [harg2, harg3] at hsend
      refine ⟨(said_eq_sent hE).2 ⟨prot, hsend, hpid⟩, fun c ctx => ?_⟩
      rw [Apart, hsend]
      intro _
      have hside : (tracedEnds pid fd).side e.sEv.pid (fd x) = some x :=
        (side_eq_some hE).2 ⟨hpid, rfl⟩
      exact hside ▸ rfl
    · obtain ⟨prot, hrecv⟩ := mkEventtype_recv hname hrv htype
      rw [harg2, harg3] at hrecv
      refine ⟨(said_eq_received hE).2 ⟨prot, hrecv, hpid⟩, fun c ctx => ?_⟩
      rw [Apart, hrecv]
      trivial
  · have htype := readOf_quiet hnum hquiet h
    constructor
    · rw [said_of_isQuiet htype]
      refine (said_of_not_message ?_).symm
      rintro (hsc | hsc) <;>
      · change call.sc = _ at hsc
        change call.sc.quiet = true at hquiet
        rw [hsc] at hquiet
        cases hquiet
    · intro c ctx
      unfold Apart
      split <;> first | trivial | (next heq => rw [heq] at htype; cases htype)

/-! ## The events of a run -/

/-- The events `es`, each with the log call of the session that it is read of, if it is of one. They
are in the order of the log calls `log` of the session. -/
structure Gathered (S : Syscalls) (num : Trace.Sc → Int32) (pid : Side → Int32)
    (log : List SessionLog) (es : List (Option SessionLog × Stream)) : Prop where
  order : es.filterMap Prod.fst = log
  read : ∀ q e, (some q, e) ∈ es → ReadOf S num pid q e

/-- The connection `c` is one that the ends have, that is not distinguished and that the events not
of the session leave to the ends. They are not of messages at the ends. -/
structure LeftToEnds (E : Ends) (c : Conn) (o : Orders) (port : ℤ) (j : Joiner)
    (es : List (Option SessionLog × Stream)) : Prop where
  name : ∀ i, c ≠ ⟨.genSym i⟩
  plain : distinguishedConn port c = false
  fds : ∀ x, j.ctx.cFd.find? (E.pid x, E.fd x) = some c
  silent : ∀ e, (none, e) ∈ es → said E e = none
  apart : Along (fun j p => joinStep o port j p.2) j es fun j p => p.1 = none → Apart E c j.ctx p.2

variable {es : List (Option SessionLog × Stream)} {log : List SessionLog}

/-- What the events say is what the log calls said. -/
theorem said_of_gathered (hnum : Numbered S num) (hfd : ∀ x, 0 ≤ fd x ∧ fd x < Trace.maxFds)
    (hE : (tracedEnds pid fd).Distinct) (hlog : ∀ q ∈ log, D.Reported fd q)
    (hes : Gathered S num pid log es)
    (hsilent : ∀ e, (none, e) ∈ es → said (tracedEnds pid fd) e = none) :
    (es.map Prod.snd).filterMap (said (tracedEnds pid fd)) = log.filterMap SessionLog.said := by
  rw [← hes.order, List.filterMap_filterMap, List.filterMap_map]
  apply List.filterMap_congr
  rintro ⟨q, e⟩ hmem
  cases q with
  | none => exact hsilent e hmem
  | some q =>
    have hq : q ∈ log := hes.order ▸ List.mem_filterMap.2 ⟨(some q, e), hmem, rfl⟩
    exact (said_of_readOf hnum hfd hE (hlog q hq) (hes.read q e hmem)).1

/-- The messages of a session whose numbers on their way differ. -/
theorem Speaking.attributed {s : Session σ} (h : Speaking D fd s) (hnum : Numbered S num)
    (hfd : ∀ x, 0 ≤ fd x ∧ fd x < Trace.maxFds) (hE : (tracedEnds pid fd).Distinct)
    (hfresh : FreshNumbers s.said) {c : Conn} {o : Orders} {port : ℤ} {j : Joiner}
    (hes : Gathered S num pid s.log es) (hj : LeftToEnds (tracedEnds pid fd) c o port j es) :
    AllAttributed (tracedEnds pid fd) (madeSteps (joinStep o port) j (es.map Prod.snd)) := by
  have hsaid := said_of_gathered hnum hfd hE h.log hes hj.silent
  apply conversation_attributed hE hj.name hj.plain hj.fds
  · rw [hsaid]
    exact h.duplex
  · rw [hsaid]
    exact hfresh
  · apply Along.map
    intro pre p hpre j₁ j₂ hrun hstep
    obtain ⟨q, e⟩ := p
    cases q with
    | none => exact hj.apart pre (none, e) hpre j₁ j₂ hrun hstep rfl
    | some q =>
      have hmem : (some q, e) ∈ es := hpre.subset (List.mem_append_right _ List.mem_cons_self)
      have hq : q ∈ s.log := hes.order ▸ List.mem_filterMap.2 ⟨(some q, e), hmem, rfl⟩
      exact (said_of_readOf hnum hfd hE (h.log q hq) (hes.read q e hmem)).2 c j₁.ctx

/-- In every session of the dialogue, from descriptors just opened, whose calls are made in order,
all calls go through. If what was said is in `P`, then whenever the aggregator joins the events of
the log calls, among any others that leave the connection to its ends, each message that a side
receives is one that the other side sent, the next after those received before, and gives the
receiver the request that its sender was working on. -/
def SessionsAttributed (D : Dialogue σ τ) (P : List Said → Prop) : Prop :=
  ∀ (fd : Side → ℤ) (s : Session σ) (as : List SessionCall),
    (∀ x, 0 ≤ fd x ∧ fd x < Trace.maxFds) → Opened D fd s →
    Tried (sessionStep fd) s as (Orderly fd) →
      ∃ s', runSteps (sessionStep fd) s as = .ok s' ∧
        ∀ (S : Syscalls) (num : Trace.Sc → Int32) (pid : Side → Int32) (c : Conn) (o : Orders)
          (port : ℤ) (j : Joiner) (es : List (Option SessionLog × Stream)),
          Numbered S num → (tracedEnds pid fd).Distinct → P s'.said →
          Gathered S num pid s'.log es → LeftToEnds (tracedEnds pid fd) c o port j es →
            AllAttributed (tracedEnds pid fd) (madeSteps (joinStep o port) j (es.map Prod.snd))

theorem sessionsAttributed_of {P : List Said → Prop}
    (hP : ∀ fd (s : Session σ), Speaking D fd s → P s.said → FreshNumbers s.said) :
    SessionsAttributed D P := by
  intro fd s as hfd hs has
  obtain ⟨s', hrun, hspeaking⟩ := session_speaks hfd hs has
  refine ⟨s', hrun, fun S num pid c o port j es hnum hE hp hes hj => ?_⟩
  exact hspeaking.attributed hnum hfd hE (hP fd s' hspeaking hp) hes hj

/-- The header of the record of a log call. -/
def loggedHeader (pid : Int32) (tid : UInt64) (c : LogbinCall) : LogentryFrozen where
  tid := tid
  pid := pid.toUInt32
  cycleHigh := 7
  cycleLow := 0
  sc := c.sc.toInt16
  rv := c.rv.toInt16
  nm := 112
  argLen := Int8.ofInt c.args.length
  strLen := Int16.ofInt c.str.length
  padding := ⟨[0, 0, 0, 0], length_zeroPadding⟩

theorem LogbinCall.length_args_le (c : LogbinCall) : c.args.length ≤ 3 := by
  rw [LogbinCall.args]
  exact (List.length_take_le' ..)

/-- A record of a log call. -/
def loggedRecord (pid : Int32) (tid : UInt64) (c : LogbinCall) (h : c.str.length < 2 ^ 15) :
    Record where
  fz := loggedHeader pid tid c
  args := c.args
  str := c.str.map underscored
  args_le := LogbinCall.length_args_le c
  argLen := by
    have hle := LogbinCall.length_args_le c
    have hsize : Int8.size = 256 := rfl
    change (Int8.ofInt c.args.length).toInt = _
    rw [Int8.toInt_ofInt, hsize, Int.bmod_def]
    omega
  strLen := by
    have hsize : Int16.size = 65536 := rfl
    change (Int16.ofInt c.str.length).toInt = _
    rw [Int16.toInt_ofInt, hsize, Int.bmod_def, List.length_map]
    omega

theorem logged_loggedRecord (pid : Int32) (tid : UInt64) (c : LogbinCall)
    (h : c.str.length < 2 ^ 15) : Logged pid tid c (loggedRecord pid tid c h) :=
  ⟨rfl, rfl, rfl, rfl, rfl, rfl⟩

/-- The entry that the record of a log call is. -/
def loggedEntry (pid : Int32) (tid : UInt64) (c : LogbinCall) : LogentryThaw where
  fz := loggedHeader pid tid c
  str := if c.str.map underscored = [] then none else some (c.str.map underscored ++ [0])
  arg := c.args ++ List.replicate (3 - c.args.length) 0

/-- The log call can be read. -/
def readable (S : Syscalls) (num : Trace.Sc → Int32) (pid : Side → Int32) (q : SessionLog) : Bool :=
  let c := logbinCall num q.call
  c.str.length < 2 ^ 15 && (streamOfLogentry S (loggedEntry (pid q.side) q.tid c)).toBool

theorem exists_readOf (h : readable S num pid q = true) : ∃ e, ReadOf S num pid q e := by
  rw [readable, Bool.and_eq_true, decide_eq_true_eq] at h
  obtain ⟨hstr, hread⟩ := h
  rcases hx : streamOfLogentry S (loggedEntry (pid q.side) q.tid (logbinCall num q.call))
    with f | ⟨ev, type⟩
  · rw [hx] at hread
    cases hread
  · exact ⟨⟨type, ⟨0, ev.pid, ev.tid, 0, []⟩⟩, _, ev, logged_loggedRecord _ _ _ hstr, hx, rfl, rfl⟩

/-- The log calls of a session, with nothing else. -/
theorem exists_gathered {log : List SessionLog} (h : log.all (readable S num pid) = true) :
    ∃ es, Gathered S num pid log es ∧ ∀ e, (none, e) ∉ es := by
  induction log with
  | nil => exact ⟨[], ⟨rfl, fun q e he => absurd he List.not_mem_nil⟩, fun e => List.not_mem_nil⟩
  | cons q log ih =>
    rw [List.all_cons, Bool.and_eq_true] at h
    obtain ⟨e, he⟩ := exists_readOf h.1
    obtain ⟨es, hes, hnone⟩ := ih h.2
    refine ⟨(some q, e) :: es, ⟨?_, fun q' e' hmem => ?_⟩, fun e' hmem => ?_⟩
    · exact congrArg (q :: ·) hes.order
    · rcases List.mem_cons.1 hmem with heq | hmem
      · cases heq
        exact he
      · exact hes.read q' e' hmem
    · rcases List.mem_cons.1 hmem with heq | hmem
      · cases heq
      · exact hnone e' hmem

/-- `syscalls.ml` with the names of the MySQL processors. -/
def mysqlNamed : Syscalls where
  scStrOfInt := sysName
  strOfPpid
    | 11 => some "PP_MYSQLS"
    | 12 => some "PP_MYSQLC"
    | _ => none
  word := sysNamed.word

theorem numbered_mysqlNamed : Numbered mysqlNamed sysNum where
  name := numbered_sysNamed.name
  short := numbered_sysNamed.short

/-- The processes 10 and 20. -/
def connectedPid (x : Side) : Int32 := if x = .a then 10 else 20

theorem tracedEnds_connected : tracedEnds connectedPid connectedEnds.fd = connectedEnds := by
  have hpid : (fun x => (connectedPid x).toInt) = connectedEnds.pid := by
    funext x
    cases x <;> decide
  rw [tracedEnds, hpid]

theorem connectedEnds_distinct : connectedEnds.Distinct := fun h => absurd h.1 (by decide)

theorem connectedEnds_fd (x : Side) :
    0 ≤ connectedEnds.fd x ∧ connectedEnds.fd x < Trace.maxFds := by
  cases x <;> decide

theorem freshNumbers_ping : FreshNumbers [.sent .a 0, .received .b 0] := by
  have hconcat : [Said.sent .a 0, .received .b 0] = [] ++ [.sent .a 0] ++ [.received .b 0] := rfl
  rw [hconcat]
  simp only [FreshNumbers, atEach_concat]
  exact ⟨⟨atEach_nil, List.not_mem_nil, by decide⟩, trivial⟩

end BorderPatrol.Agg
