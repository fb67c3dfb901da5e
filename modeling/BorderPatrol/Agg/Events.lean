import BorderPatrol.Basic
import BorderPatrol.Foundations.Hashtbl

/-!
# The events of the aggregator

The types of `events.ml`: the events as they come from the database, and the context in which
`stream_join` keeps what each thread is working on (`cDgn`), which connection each descriptor has
(`cFd`) and for which request each message of a connection was sent (`cConn`). The integers of OCaml
are not bounded here.
-/

namespace BorderPatrol.Agg

open Foundations

/-- `event_type` -/
inductive EventType
  | start (pid tid : ℤ)
  | fork (pid tid : ℤ)
  | exec (tid : ℤ)
  | pollBegin
  | poll (timedOut : Bool) (fd : ℤ)
  | socket (fd : ℤ)
  | pipe (fi fo : ℤ)
  | dup (oldfd newfd : ℤ)
  | close (fd : ℤ)
  | exit
  | abort
  | shutdown
  | accept (fd : ℤ) (rdv : List Byte)
  | connect (fd : ℤ) (rdv : List Byte)
  | open (fd : ℤ)
  | writeBegin (fd : ℤ)
  | write (fd : ℤ)
  | readBegin (fd : ℤ)
  | read (fd : ℤ)
  | protocolInit (fd : ℤ)
  | messageSend (prot : List Byte) (fd msgid : ℤ)
  | messageRecv (prot : List Byte) (fd msgid : ℤ)
  | skipEvent
  | todoEvent (s : List Byte)
  | unknown
  deriving DecidableEq, Repr

/-- `event`, the fields the join reads. -/
structure Event where
  eid : ℤ
  pid : ℤ
  tid : ℤ
  ts : ℤ
  prog : List Byte
  deriving DecidableEq, Repr

/-- `stream` -/
structure Stream where
  sType : EventType
  sEv : Event
  deriving DecidableEq, Repr

/-- An event of thread `tid` of process `pid`. -/
def eventOf (pid tid : ℤ) (type : EventType) : Stream := ⟨type, ⟨0, pid, tid, 0, ascii "p"⟩⟩

/-- `mid_t`, a thread. -/
structure Mid where
  tid : ℤ
  pid : ℤ
  deriving DecidableEq, Repr

/-- `dgn_t`, what a thread is working on. -/
structure Dgn where
  mid : Mid
  rid : ℤ
  new : Bool
  deriving DecidableEq, Repr

/-- `conn_id_t` -/
inductive ConnId
  | genSym (i : ℤ)
  | sunPath (s : List Byte)
  | hostPort (rdv : List Byte)
  deriving DecidableEq, Repr

/-- `conn_t` -/
structure Conn where
  id : ConnId
  deriving DecidableEq, Repr

/-- `msg_t` -/
structure Msg where
  pid : ℤ
  ev : ℤ
  send : Bool
  prot : List Byte
  conn : List Byte
  id : ℤ
  rid : ℤ
  deriving DecidableEq, Repr

/-- `ctx_t` -/
structure Ctx where
  cDgn : List Dgn
  cFd : Hashtbl (ℤ × ℤ) Conn
  cConn : Hashtbl (Conn × ℤ) ℤ
  cMsgs : List Msg

/-- The context the join begins with. -/
def Ctx.empty : Ctx := ⟨[], .create, .create, []⟩

/-- `string_of_mid` -/
def stringOfMid (m : Mid) : List Byte := decimal m.pid ++ ascii "_" ++ decimal m.tid

/-- `string_of_conn` -/
def stringOfConn (c : Conn) : List Byte :=
  match c.id with
  | .genSym i => decimal i
  | .sunPath s => ascii "sun=" ++ s
  | .hostPort rdv => ascii "sin=" ++ rdv

/-- `conn_eq` -/
def connEq (c d : Conn) : Bool :=
  match c.id, d.id with
  | .genSym a, .genSym b => a = b
  | .sunPath s, .sunPath t => s = t
  | .hostPort rdv₁, .hostPort rdv₂ => rdv₁ = rdv₂
  | _, _ => false

theorem connEq_iff {c d : Conn} : connEq c d = true ↔ c = d := by
  obtain ⟨c⟩ := c
  obtain ⟨d⟩ := d
  cases c <;> cases d <;> simp [connEq]

/-- `mideq` -/
def mideq (m₁ m₂ : Mid) : Bool := m₁.pid = m₂.pid && m₁.tid = m₂.tid

theorem mideq_iff {m₁ m₂ : Mid} : mideq m₁ m₂ = true ↔ m₁ = m₂ := by
  obtain ⟨t₁, p₁⟩ := m₁
  obtain ⟨t₂, p₂⟩ := m₂
  simp [mideq, and_comm]

/-- `matchportbyname`, where `port` is what `getportbyname` gives for the name: the first line of
the string ends with a colon and the port. -/
def matchportbyname (port : ℤ) (s : List Byte) : Bool :=
  (ascii ":" ++ decimal port).isSuffixOf (s.takeWhile (· ≠ 10))

end BorderPatrol.Agg
