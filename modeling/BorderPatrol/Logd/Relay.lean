import BorderPatrol.Foundations.Interleaving
import BorderPatrol.Foundations.SelfDelimiting
import BorderPatrol.Logd.Binlog
import Mathlib.Logic.Function.Basic

/-!
# The relay

`logd.c`, serving sockets: the tracers connect to it and send their records, which it collects in a
buffer for each descriptor and writes to the log with their times changed to its own. A step of the
main loop serves one descriptor that `select` found ready: it accepts a connection, or it reads
from one, and when nothing comes any more it writes out what it has and closes it. Between steps
`infd` is -1, in a step of reading it is the descriptor served; `outfd` was opened. What `read`,
`write` and `gettimeofday` return are parameters of a step.
-/

namespace BorderPatrol.Logd

open Foundations

/-- `RELAY_BUF` -/
def relayBuf : ℕ := 4 * 1024 * 1024

/-- `FD_SETSIZE` -/
def fdSetsize : ℕ := 1024

/-- `timerisset` -/
def timerisset (t : Timeval) : Prop := t.sec ≠ 0 ∨ t.usec ≠ 0

instance (t : Timeval) : Decidable (timerisset t) := inferInstanceAs (Decidable (_ ∨ _))

/-- `timersub` -/
def timersub (a b : Timeval) : Timeval :=
  let r : Timeval := ⟨a.sec - b.sec, a.usec - b.usec⟩
  if r.usec < 0 then ⟨r.sec - 1, r.usec + 1000000⟩ else r

/-- `timeradd` -/
def timeradd (a b : Timeval) : Timeval :=
  let r : Timeval := ⟨a.sec + b.sec, a.usec + b.usec⟩
  if 1000000 ≤ r.usec then ⟨r.sec + 1, r.usec - 1000000⟩ else r

/-- What the statics hold for one descriptor: `relay`, `b_end`, `avail` and `timediff`. -/
structure Slot where
  relay : Option (Mem Byte)
  bEnd : ℕ
  avail : ℕ
  timediff : Timeval

/-- The state of `logd` between steps: the slots of the descriptors, and which of them are in
`active_fd_set`. -/
structure State where
  slots : ℕ → Slot
  active : ℕ → Bool

/-- What a step meets: the results of its writes and the time, at each turn of the loop. -/
structure RelayEnv where
  writes : Writes
  clock : ℕ → Timeval

/-- The log takes all that is written. -/
def RelayEnv.Complete (env : RelayEnv) : Prop := ∀ i amt, 0 < amt → env.writes i amt = amt

/-- The time in a header. -/
def LogentryFrozen.time (fz : LogentryFrozen) : Timeval := ⟨fz.cycleHigh.toNat, fz.cycleLow.toNat⟩

/-- `record_timediff` -/
def recordTimediff (s : Slot) (lentry : LogentryFrozen) (localtime : Timeval) : Slot :=
  { s with timediff := timersub localtime lentry.time }

/-- The time difference of a slot is recorded when none is set. -/
def Slot.timed (s : Slot) (lentry : LogentryFrozen) (localtime : Timeval) : Slot :=
  if timerisset s.timediff then s else recordTimediff s lentry localtime

@[simp] theorem Slot.timed_bEnd (s : Slot) (lentry : LogentryFrozen) (localtime : Timeval) :
    (s.timed lentry localtime).bEnd = s.bEnd := by
  unfold timed
  split <;> rfl

@[simp] theorem Slot.timed_avail (s : Slot) (lentry : LogentryFrozen) (localtime : Timeval) :
    (s.timed lentry localtime).avail = s.avail := by
  unfold timed
  split <;> rfl

/-- The header of an entry, at a new time. -/
def LogentryFrozen.retime (fz : LogentryFrozen) (t : Timeval) : LogentryFrozen :=
  { fz with cycleHigh := toUint32 t.sec, cycleLow := toUint32 t.usec }

/-- The loop of `transfer_out`, on a slot with the buffer `m`: the slot, and what each write added
to the log. The first argument bounds the turns. -/
def transferOutLoop (env : RelayEnv) :
    ℕ → ℕ → Mem Byte → Slot → Except Fault (Slot × List (List Byte))
  | 0, _, _, _ => .error .fuel
  | n + 1, k, m, s =>
    if s.bEnd < frozenLen then .ok ({ s with relay := some m }, [])
    else
      let frozen := thaw1 m 0
      let s := s.timed frozen (env.clock k)
      let size := (frozenSize frozen % 2 ^ 32).toNat
      if s.bEnd < size then .ok ({ s with relay := some m }, [])
      else do
        let logentry ← thaw2 m frozenLen frozen (toInt ((size : ℤ) - frozenLen))
        -- apply the time difference
        let newtime := timeradd frozen.time s.timediff
        let buf ← freeze { logentry with fz := logentry.fz.retime newtime } size
        let t := env.writes k size
        if t = -1 then .error (.exit 1)
        else if 0 < t then do
          let m := m.copyDown t.toNat (s.bEnd - size)
          let s := { s with bEnd := usub s.bEnd t.toNat, avail := s.avail + t.toNat }
          let (s, out) ← transferOutLoop env n (k + 1) m s
          return (s, buf.take t.toNat :: out)
        else transferOutLoop env n (k + 1) m s

/-- `transfer_out`. A turn takes a byte at least, as long as something is written. -/
def transferOut (env : RelayEnv) (s : Slot) : Except Fault (Slot × List (List Byte)) :=
  match s.relay with
  | none => .ok (s, [])
  | some m => transferOutLoop env (s.bEnd + 1) 0 m s

/-- `transfer_in`, where `read` gives the bytes `r` or fails: the return value, the slot, and what
each write added to the log. -/
def transferIn (env : RelayEnv) (s : Slot) (r : Option (List Byte)) :
    Except Fault (ℤ × Slot × List (List Byte)) :=
  match s.relay, r with
  | none, _ => .ok (-1, s, [])
  | some _, none => .ok (-1, s, [])
  | some m, some b =>
    if b = [] then .ok (0, s, [])
    else do
      inBounds (s.bEnd + b.length ≤ relayBuf)
      let s := { s with
        relay := some (m.store s.bEnd b)
        avail := usub s.avail b.length
        bEnd := s.bEnd + b.length }
      if frozenLen < s.bEnd then do
        let (s, out) ← transferOut env s
        return (b.length, s, out)
      else return (b.length, s, [])

/-- A step of the main loop: `accept` returns a descriptor, or an active descriptor is read. -/
inductive Step
  | accept (status : ℕ)
  | input (i : ℕ) (env : RelayEnv) (r : Option (List Byte))

/-- What the main loop does in a step: the state, and what each write added to the log. -/
def serve (st : State) : Step → Except Fault (State × List (List Byte))
  | .accept status => do
    inBounds (status < fdSetsize)
    return ({
      slots := Function.update st.slots status
        { st.slots status with relay := some fun _ => 0 }
      active := Function.update st.active status true }, [])
  | .input i env r => do
    let (ret, s, out) ← transferIn env (st.slots i) r
    if ret ≤ 0 then
      -- the client disconnected, or an error occurred
      let (s, out') ← transferOut env s
      return ({
        slots := Function.update st.slots i { s with relay := none }
        active := Function.update st.active i false }, out ++ out')
    else return ({ st with slots := Function.update st.slots i s }, out)

/-- The state when the main loop begins. -/
def State.init : State where
  slots := fun _ => ⟨none, 0, relayBuf, ⟨0, 0⟩⟩
  active := fun _ => false

/-! ## The connections -/

/-- What was sent to `logd` and what it wrote, told apart by connection. Connections are numbered as
they are accepted: `owner` is the last one on a descriptor, `sent` what it has sent, and `log` the
writes, each with the connection it was made for. -/
structure Traffic where
  count : ℕ
  owner : ℕ → Option ℕ
  sent : ℕ → List Byte
  log : List (Option ℕ × List Byte)

/-- Nothing was accepted yet. -/
def Traffic.init : Traffic := ⟨0, fun _ => none, fun _ => [], []⟩

/-- The traffic of a step in which the writes `out` were made. -/
def Traffic.step (tr : Traffic) (out : List (List Byte)) : Step → Traffic
  | .accept status =>
    { tr with count := tr.count + 1, owner := Function.update tr.owner status (some tr.count) }
  | .input i _ r =>
    { tr with
      sent :=
        match tr.owner i with
        | none => tr.sent
        | some k => Function.update tr.sent k (tr.sent k ++ r.getD [])
      log := tr.log ++ out.map (tr.owner i, ·) }

/-- The log file. -/
def Traffic.file (tr : Traffic) : List Byte := tr.log.flatMap (·.2)

/-- The writes made for a connection. -/
def Traffic.writesOf (tr : Traffic) (k : ℕ) : List (List Byte) := proj (some k) tr.log

/-- A sequence of steps, with the traffic. -/
def serveAll : State → Traffic → List Step → Except Fault (State × Traffic)
  | st, tr, [] => .ok (st, tr)
  | st, tr, a :: as => do
    let (st, out) ← serve st a
    serveAll st (tr.step out a) as

/-- Each step of the sequence, taken from the beginning, has `P` where it comes. -/
def Along (P : State → Traffic → Step → Prop) (as : List Step) : Prop :=
  ∀ pre a, pre ++ [a] <+: as →
    ∀ st tr, serveAll State.init Traffic.init pre = .ok (st, tr) → P st tr a

/-- A step that can come: `accept` returns a descriptor that is not open, and only active
descriptors are read, which give no more than there is room for. The log takes all that is written.
-/
def Allowed (st : State) (_ : Traffic) : Step → Prop
  | .accept status => status < fdSetsize ∧ st.active status = false
  | .input i env r =>
    st.active i = true ∧ (∀ b, r = some b → b.length ≤ (st.slots i).avail) ∧ env.Complete

theorem serveAll_append (st : State) (tr : Traffic) (as bs : List Step) :
    serveAll st tr (as ++ bs) = serveAll st tr as >>= fun q => serveAll q.1 q.2 bs := by
  induction as generalizing st tr with
  | nil => rfl
  | cons a as ih => simp only [List.cons_append, serveAll, ih, bind_assoc]

/-- The last step of a sequence. -/
theorem serveAll_concat (st : State) (tr : Traffic) (as : List Step) (a : Step) :
    serveAll st tr (as ++ [a]) = serveAll st tr as >>= fun q =>
      serve q.1 a >>= fun o => .ok (o.1, q.2.step o.2 a) := by
  rw [serveAll_append]
  rfl

end BorderPatrol.Logd
