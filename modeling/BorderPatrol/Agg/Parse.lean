import BorderPatrol.Agg.Events
import BorderPatrol.Foundations.CopyText
import BorderPatrol.Foundations.OrderBy
import BorderPatrol.Logd.Fmt

/-!
# From log entries to lines and streams

`parse.ml` and the accessors of `bridge.i`: an entry of the binary log becomes an event
(`event_of_logentry`), an event is given its type by the name of its system call (`mk_eventtype`)
and written as a line of the export (`store_event_out`), and a row of the table `ev` becomes an
event again (`stream_of_dbrow`, which is in the module of the tables).
-/

namespace BorderPatrol.Agg

open Foundations Logd

/-- A character of an identifier. -/
def isWord (b : Byte) : Bool :=
  isdigit b || 65 ≤ b && b ≤ 90 || 97 ≤ b && b ≤ 122 || b = 95

/-- `syscalls.ml`, which the build generates from the sources of the tracer: the names of the system
calls, which are identifiers, and those of the protocols, where another number raises
`Protocol_render_error`. -/
structure Syscalls where
  scStrOfInt : ℤ → String
  strOfPpid : ℤ → Option String
  word : ∀ sc, ∀ b ∈ ascii (scStrOfInt sc), isWord b

/-- The exceptions of the parser. -/
inductive ParseError
  /-- `Failure`, from a number that cannot be read -/
  | failure
  | parseError (msg : String)
  | unmatchedEvent (scStr : String)
  | protocolRenderError
  deriving DecidableEq, Repr

/-- `event` with all its fields, and the three numbers of `e_args`. -/
structure FullEvent extends Event where
  ptid : ℤ
  scStr : String
  rv : ℤ
  arg1 : ℤ
  arg2 : ℤ
  arg3 : ℤ
  str : List Byte
  deriving DecidableEq, Repr

/-! ## The entries -/

/-- `binlog_mkpid` -/
def binlogMkpid (le : LogentryThaw) : ℤ := le.fz.pid.toInt32.toInt

/-- `binlog_mktid`, as the signed number that OCaml sees. -/
def binlogMktid (le : LogentryThaw) : ℤ := le.fz.tid.toInt64.toInt

/-- `binlog_mkts` -/
def binlogMkts (le : LogentryThaw) : ℤ := le.fz.cycleHigh.toNat

/-- `binlog_arg1` -/
def binlogArg1 (le : LogentryThaw) : ℤ := (le.arg.getD 0 0).toInt

/-- `binlog_arg2` -/
def binlogArg2 (le : LogentryThaw) : ℤ := (le.arg.getD 1 0).toInt

/-- `binlog_arg3` -/
def binlogArg3 (le : LogentryThaw) : ℤ := (le.arg.getD 2 0).toInt

/-- The base a number is written in, whether it is signed, and what is behind the prefix. -/
def splitBase : List Byte → ℕ × Bool × List Byte
  | 48 :: c :: t =>
    if c = 120 ∨ c = 88 then (16, false, t)
    else if c = 111 ∨ c = 79 then (8, false, t)
    else if c = 98 ∨ c = 66 then (2, false, t)
    else if c = 117 ∨ c = 85 then (10, false, t)
    else (10, true, 48 :: c :: t)
  | t => (10, true, t)

/-- `Int64.of_string`, or nothing when it fails. Underscores behind the first digit are skipped. -/
def int64OfString (s : List Byte) : Option ℤ :=
  let (neg, t) := splitSign s
  let (base, signed, t) := splitBase t
  let ds := t.take 1 ++ (t.drop 1).filter (· ≠ 95)
  let v := digitsVal base ds
  if ds = [] ∨ ∃ d ∈ ds, base ≤ digitVal d then none
  else
    let x : ℤ := if neg then -v else v
    if signed then
      if -2 ^ 63 ≤ x ∧ x < 2 ^ 63 then some x else none
    else if v < 2 ^ 64 then some (x.bmod (2 ^ 64)) else none

/-- The `e_ptid` of an event: the string of a new process names the thread it comes from. -/
def ptidOf (scStr : String) (sarg : List Byte) : Except ParseError ℤ :=
  if scStr = "SYS_EXEC_CHILD" ∨ scStr = "SYS_FORK" then
    match int64OfString sarg with
    | some x => .ok x
    | none => .error .failure
  else .ok 0

/-- `event_of_logentry` -/
def eventOfLogentry (S : Syscalls) (le : LogentryThaw) : Except ParseError FullEvent := do
  let sarg := le.string
  let scStr := S.scStrOfInt le.fz.sc.toInt
  let ptid ← ptidOf scStr sarg
  return {
    eid := 123456
    pid := binlogMkpid le
    tid := binlogMktid le
    ts := binlogMkts le
    prog := [le.fz.nm]
    ptid := ptid
    scStr := scStr
    rv := le.fz.rv.toInt
    arg1 := binlogArg1 le
    arg2 := binlogArg2 le
    arg3 := binlogArg3 le
    str := sarg }

/-- `Syscalls.str_of_ppid` -/
def Syscalls.ppid (S : Syscalls) (i : ℤ) : Except ParseError (List Byte) :=
  match S.strOfPpid i with
  | some s => .ok (ascii s)
  | none => .error .protocolRenderError

/-- `mk_eventtype` -/
def mkEventtype (S : Syscalls) (ev : FullEvent) : Except ParseError EventType :=
  if ev.rv < 0 then .ok .skipEvent
  else if (ascii "_BUF_").isPrefixOf (ascii ev.scStr) then .ok .skipEvent
  else
    match ev.scStr with
    | "SYS_RS" | "SYS_POLLMAX" | "SYS_POLL_CACHE" | "SYS_BUF_PRE" | "SYS_BUF_REFILLED"
    | "SYS_BUF_PPOFS" | "SYS_BUF_RETURNED" | "SYS_BUF_SHORT1" | "SYS_BUF_SHORT2" | "SYS_BUF_MOVED"
    | "SYS_PP_ISO_POLL" | "SYS_PP_PROP_L" | "SYS_PP_MSG_HOOK" | "SYS_REMEMBER" | "SYS_HTTPS_READ"
    | "SYS_SELECT_STATUS" | "SYS_PP_UNID1" | "SYS_PP_UNID2" | "SYS_PP_UNID3" | "SYS_PP_SUN"
    | "SYS_PP_FCGI_HMM" | "Syscall_render_error" | "SYS_RLOOK" | "SYS_RDONE" | "SYS_RSEND"
    | "SYS_PP_ISO_READ" => .ok .skipEvent
    | "SYS_START" => .ok (.start ev.pid ev.tid)
    | "SYS_FORK_BEGIN" => .ok .skipEvent
    | "SYS_FORK" => .ok (.fork ev.arg1 ev.ptid)
    | "SYS_EXEC" | "SYS_EXECL" | "SYS_EXECLP" | "SYS_EXECVE" | "SYS_EXECVP" | "SYS_EXECLE"
    | "SYS_EXECV" | "SYS_EXECP" => .ok .skipEvent
    | "SYS_EXEC_CHILD" => .ok (.exec ev.ptid)
    | "SYS_UNSETENV" | "SYS_SETENV" | "SYS_GETENV" => .ok .skipEvent
    | "SYS_DUP" | "SYS_DUP2" | "SYS_DUP_FCNTL" => .ok (.dup ev.arg1 ev.rv)
    | "SYS_SOCKET" => .ok (.socket ev.rv)
    | "SYS_BIND" | "SYS_LISTEN" => .ok .skipEvent
    | "SYS_PIPE" => .ok (.pipe ev.arg1 ev.arg2)
    | "SYS_OPEN" => .ok (.open ev.rv)
    | "SYS_CLOSE" => .ok (.close ev.arg1)
    | "SYS_ACCEPT_BEGIN" => .ok .skipEvent
    | "SYS_ACCEPT" => .ok (.accept ev.rv ev.str)
    | "SYS_CONNECT_BEGIN" => .ok .skipEvent
    | "SYS_CONNECT" => .ok (.connect ev.arg1 ev.str)
    | "SYS_WRITE_BUFFER" | "SYS_READ_BUFFER" => .ok .skipEvent
    | "SYS_WRITE_BEGIN" | "SYS_WRITEV_BEGIN" | "SYS_SEND_BEGIN" | "SYS_SENDTO_BEGIN"
    | "SYS_SENDFILE_BEGIN" | "SYS_SENDFILE64_BEGIN" => .ok (.writeBegin ev.arg1)
    | "SYS_WRITE" | "SYS_WRITEV" | "SYS_SEND" | "SYS_SENDTO" | "SYS_SENDFILE"
    | "SYS_SENDFILE64" => .ok (.write ev.arg1)
    | "SYS_READ_BEGIN" | "SYS_RECV_BEGIN" | "SYS_RECVFROM_BEGIN" => .ok (.readBegin ev.arg1)
    | "SYS_READ" | "SYS_RECV" | "SYS_RECVFROM" => .ok (.read ev.arg1)
    | "SYS_PAGEFAULT_BEGIN" | "SYS_PAGEFAULT" =>
      .ok (.todoEvent (ascii "pf: don't know pagefault's fd"))
    | "SYS_PTH_CREATE_BEGIN" | "SYS_PTH_CREATE_CHILD" | "SYS_PTH_CREATE_PARENT" =>
      .ok (.todoEvent (ascii "pth"))
    | "SYS_PP_PROP" | "SYS_PP_DATA" | "SYS_PP_ACTIVE" | "SYS_DATA_HERE" | "SYS_PP_ID" =>
      .ok .skipEvent
    | "SYS_PP_INIT" => .ok (.protocolInit ev.arg2)
    | "SYS_PP_SHUTDOWN" => .ok .skipEvent
    | "SYS_PP_MSG_SEND" => S.ppid ev.arg1 >>= fun prot => .ok (.messageSend prot ev.arg2 ev.arg3)
    | "SYS_PP_MSG_RECV" => S.ppid ev.arg1 >>= fun prot => .ok (.messageRecv prot ev.arg2 ev.arg3)
    | "SYS_PP_REQ_BEGIN" | "SYS_PP_REQ_END" | "SYS_PP_RESP_BEGIN" | "SYS_PP_RESP_END" =>
      .ok .skipEvent
    | "SYS_FATAL" => .ok (.todoEvent (ascii "fatal"))
    | "SYS_FATAL_LOCK" => .ok (.todoEvent (ascii "fata_lock"))
    | "SYS_NOTE" => .ok (.todoEvent (ascii "note"))
    | "SYS_EXIT" | "SYS_ABORT" | "SYS_SHUTDOWN" => .ok .exit
    | "SYS_POLL_BEGIN" => .ok .pollBegin
    | "SYS_POLL" => .ok (.poll (ev.rv = 0) ev.arg3)
    | "SYS_SELECT_BEGIN" => .ok .pollBegin
    | "SYS_SELECT" => .ok (.poll (ev.rv = 0) ev.arg2)
    | "SYS_PAGEFAULT_END" => .ok .skipEvent
    | scStr => .error (.unmatchedEvent scStr)

/-- `stream_of_logentry`: the event and its type. -/
def streamOfLogentry (S : Syscalls) (le : LogentryThaw) :
    Except ParseError (FullEvent × EventType) :=
  match eventOfLogentry S le with
  | .ok ev => mkEventtype S ev >>= fun type => .ok (ev, type)
  | .error .failure => .error (.parseError "stream_of_logentry: failure:")
  | .error err => .error err

/-! ## The export -/

/-- `Str.global_replace` of a character. -/
def globalReplace (c : Byte) (templ s : List Byte) : List Byte :=
  s.flatMap fun b => if b = c then templ else [b]

/-- `escape_string`: quotes and backslashes are doubled. -/
def escapeString (s : List Byte) : List Byte :=
  s.flatMap fun b => if b = 39 ∨ b = 92 then [b, b] else [b]

/-- The string of an event as it is exported, escaped twice and then cut. -/
def exportStr (s : List Byte) : List Byte :=
  let str := escapeString (globalReplace 10 (ascii "_NEWLINE_") s)
  let str2 := escapeString (globalReplace 13 (ascii "_NEWLINER_") str)
  if str2.length > 149 then str2.take 149 else str2

/-- The line of an event, without its newline. -/
def exportLine (ev : FullEvent) : List Byte :=
  decimal ev.pid ++ ascii "|" ++ decimal ev.tid ++ ascii "|" ++ decimal ev.ptid ++ ascii "|" ++
    decimal ev.ts ++ ascii "|" ++ ev.prog ++ ascii "|" ++ ascii ev.scStr ++ ascii "|" ++
    decimal ev.rv ++ ascii "|" ++ decimal ev.arg1 ++ ascii "|" ++ decimal ev.arg2 ++ ascii "|" ++
    decimal ev.arg3 ++ ascii "|" ++ exportStr ev.str

/-- An event whose string has `ADDRESS` in it is not exported. -/
def Skipped (s : List Byte) : Prop := ascii "ADDRESS" <:+: s

instance (s : List Byte) : Decidable (Skipped s) := inferInstanceAs (Decidable (_ <:+: _))

/-- `store_event_out`: what is written of an event. -/
def storeEventOut (ev : FullEvent) : List Byte :=
  if Skipped ev.str then [] else exportLine ev ++ ascii "\n"

/-- `parse`: the file that is written, and the number behind the last entry when the first one has
the number `eid`. -/
def parse (S : Syscalls) (eid : ℕ) : List LogentryThaw → Except ParseError (ℕ × List Byte)
  | [] => .ok (eid, [])
  | le :: log => do
    let stream ← streamOfLogentry S le
    let (leid, evout) ← parse S (eid + 1) log
    return (leid, storeEventOut stream.1 ++ evout)

/-! ## The events exported -/

/-- The events whose lines are in the file, each with the number of its entry. -/
def exported (S : Syscalls) (eid : ℕ) (log : List LogentryThaw) : List (ℕ × FullEvent) :=
  (log.zipIdx eid).filterMap fun e =>
    match eventOfLogentry S e.1 with
    | .ok ev => if Skipped ev.str then none else some (e.2, ev)
    | .error _ => none

/-- The lines of events, each with its newline. -/
def exportLines (evs : List FullEvent) : List Byte := evs.flatMap fun ev => exportLine ev ++ [10]

variable {S : Syscalls} {le : LogentryThaw} {log : List LogentryThaw} {ev : FullEvent} {i eid : ℕ}

theorem eventOfLogentry_ok (h : eventOfLogentry S le = .ok ev) :
    ev.ts = le.fz.cycleHigh.toNat ∧ ev.str = le.string := by
  unfold eventOfLogentry at h
  obtain ⟨ptid, -, h⟩ := bind_eq_ok h
  cases h
  exact ⟨rfl, rfl⟩

theorem streamOfLogentry_ok {stream : FullEvent × EventType}
    (h : streamOfLogentry S le = .ok stream) : eventOfLogentry S le = .ok stream.1 := by
  unfold streamOfLogentry at h
  split at h
  · next ev hev =>
    obtain ⟨type, -, h⟩ := bind_eq_ok h
    cases h
    exact hev
  · cases h
  · cases h

theorem exported_cons (hev : eventOfLogentry S le = .ok ev) :
    exported S eid (le :: log) =
      (if Skipped ev.str then [] else [(eid, ev)]) ++ exported S (eid + 1) log := by
  rw [exported, List.zipIdx_cons, List.filterMap_cons, hev]
  by_cases hskip : Skipped ev.str
  · simp only [if_pos hskip]
    rfl
  · simp only [if_neg hskip]
    rfl

/-- **The file** has the lines of the events exported. -/
theorem parse_ok {leid : ℕ} {file : List Byte} (h : parse S eid log = .ok (leid, file)) :
    file = exportLines ((exported S eid log).map Prod.snd) ∧
      ∀ le ∈ log, ∃ ev, eventOfLogentry S le = .ok ev := by
  induction log generalizing eid file with
  | nil =>
    cases h
    exact ⟨rfl, by simp⟩
  | cons le log ih =>
    rw [parse] at h
    obtain ⟨stream, hstream, h⟩ := bind_eq_ok h
    obtain ⟨⟨n, out⟩, hout, h⟩ := bind_eq_ok h
    cases h
    obtain ⟨rfl, hall⟩ := ih hout
    have hev := streamOfLogentry_ok hstream
    refine ⟨?_, List.forall_mem_cons.2 ⟨⟨_, hev⟩, hall⟩⟩
    rw [exported_cons hev, storeEventOut]
    by_cases hskip : Skipped stream.1.str
    · rw [if_pos hskip, if_pos hskip]
      rfl
    · rw [if_neg hskip, if_neg hskip]
      rfl

/-- The events are in the order of their entries. -/
theorem exported_pairwise (S : Syscalls) (eid : ℕ) (log : List LogentryThaw) :
    (exported S eid log).Pairwise fun a b => a.1 < b.1 := by
  refine (zipIdx_pairwise_lt log eid).filterMap _ fun a a' hlt b hb b' hb' => ?_
  have hnum : ∀ {a : LogentryThaw × ℕ} {b : ℕ × FullEvent},
      (match eventOfLogentry S a.1 with
        | .ok ev => if Skipped ev.str then none else some (a.2, ev)
        | .error _ => none) = some b → b.1 = a.2 := by
    intro a b hb
    split at hb
    · split at hb
      · cases hb
      · cases hb
        rfl
    · cases hb
  rw [hnum hb, hnum hb']
  exact hlt

theorem mem_exported : (i, ev) ∈ exported S 0 log ↔
    ∃ le, log[i]? = some le ∧ eventOfLogentry S le = .ok ev ∧ ¬ Skipped ev.str := by
  unfold exported
  rw [List.mem_filterMap]
  constructor
  · rintro ⟨⟨le, j⟩, hmem, h⟩
    rw [List.mk_mem_zipIdx_iff_getElem?] at hmem
    split at h
    · next ev' hev =>
      split at h
      · cases h
      · next hskip =>
        cases h
        exact ⟨le, hmem, hev, hskip⟩
    · cases h
  · rintro ⟨le, hle, hev, hskip⟩
    refine ⟨(le, i), List.mk_mem_zipIdx_iff_getElem?.2 hle, ?_⟩
    simp only [hev, if_neg hskip]

end BorderPatrol.Agg
