import BorderPatrol.Trace.Select

/-!
# Opening and duplicating descriptors

The wrappers of `vfd.c` that give descriptors their entries of `vfd_tab`: `socket`, `bind`,
`listen`, `accept` and `connect`, and `dup`, `dup2` and `fcntl` with `F_DUPFD`, for a run with
`debug_events = 0`. What the kernel returns is a parameter of each. Each gives back the process,
the return value and the log calls.
-/

namespace BorderPatrol.Trace

open Foundations

variable {σ : Type}

/-- `dup_vfd` -/
def dupVfd (p : Process σ) (oldfd newfd : ℤ) : Except Fault (Process σ) := do
  inBounds (0 ≤ oldfd ∧ oldfd < maxFds ∧ 0 ≤ newfd ∧ newfd < maxFds)
  -- same dispatcher, data, etc, all of which but the data is then reset
  return p.setVfd newfd { vfdTabInitOne (p.vfdTab oldfd) with type := .dup, inProg := 0 }

/-- `dup_vfd`, where the kernel gave the descriptor `r`. -/
def dupWhen (p : Process σ) (oldfd r : ℤ) : Except Fault (Process σ) :=
  if 0 ≤ r then dupVfd p oldfd r else .ok p

/-- `dup`, where the kernel's returns `newfd`. -/
def dup (p : Process σ) (oldfd newfd : ℤ) : Except Fault (Process σ × ℤ × List LogCall) := do
  if oldfd < 0 ∨ maxFds ≤ oldfd then return (p, newfd, [])
  else
    let p ← dupWhen p oldfd newfd
    return (p, newfd, [logbinI .dup newfd oldfd])

/-- `dup2`, where the kernel's returns `r`. -/
def dup2 (p : Process σ) (oldfd newfd r : ℤ) : Except Fault (Process σ × ℤ × List LogCall) := do
  if oldfd < 0 ∨ maxFds ≤ oldfd ∨ newfd < 0 ∨ maxFds ≤ newfd then return (p, r, [])
  else
    let p ← dupWhen p oldfd r
    return (p, r, [logbinI .dup r oldfd])

/-- `fcntl` with `F_DUPFD`, where the kernel's returns `r`. -/
def fcntlDupfd (p : Process σ) (fd r : ℤ) : Except Fault (Process σ × ℤ × List LogCall) := do
  let p ← dupWhen p fd r
  return (p, r, [logbinI .dupFcntl r fd])

/-- `socket`, where the kernel's returns `s`. -/
def socket (p : Process σ) (domain type protocol s : ℤ) :
    Except Fault (Process σ × ℤ × List LogCall) := do
  let log := [logbinIii .socket s domain type protocol]
  if 0 ≤ s then
    inBounds (s < maxFds)
    return (p.setVfd s { vfdTabInitOne (p.vfdTab s) with type := .sock, inProg := 0 }, s, log)
  else return (p, s, log)

/-- `bind`, where the kernel's returns `r`, `pp_id_bind` gives `id` for the address and logs
`idLog`. -/
def bind (p : Process σ) (s r : ℤ) (id : Option (PpDispatcher σ)) (idLog : List LogCall) :
    Process σ × ℤ × List LogCall :=
  if s < 0 ∨ maxFds ≤ s then (p, r, [])
  else if r = 0 then (p.setVfd s { p.vfdTab s with ppDispatcher := id }, r, idLog)
  else (p, r, [])

/-- `listen`, where the kernel's returns `r`. -/
def listen (p : Process σ) (_ r : ℤ) : Process σ × ℤ × List LogCall := (p, r, [])

/-- What `accept` makes of the entry of the descriptor it returns, with `peer.id` the processor that
`pp_id_bind` gives for the local address. -/
def acceptVfd (v : Vfd σ) (newFd : ℤ) (peer : Peer σ) : Vfd σ × List LogCall :=
  let v := { vfdTabInitOne v with type := .sock, inProg := 0, ppDispatcher := peer.id }
  match peer.id with
  | none => (v, peer.idLog)
  | some pp =>
    let (d, l) := pp.ppInit newFd v.ppData
    ({ v with ppData := d }, peer.idLog ++ l)

/-- `accept`, where the kernel's returns `newFd`. -/
def accept (p : Process σ) (s newFd : ℤ) (peer : Peer σ) :
    Except Fault (Process σ × ℤ × List LogCall) := do
  if s < 0 ∨ maxFds ≤ s then return (p, newFd, [])
  else
    let p := p.clearReadableCache s
    if newFd ≠ -1 then
      inBounds (0 ≤ newFd ∧ newFd < maxFds)
      let (v, l) := acceptVfd (p.vfdTab newFd) newFd peer
      return (p.setVfd newFd v, newFd,
        [logbinI .acceptBegin 0 s] ++ l ++ [logbinIs .accept newFd s peer.rdv])
    else
      return (p, newFd, [logbinI .acceptBegin 0 s, logbinIs .accept newFd s (ascii "other->other")])

/-- `connect`, where the kernel's returns `r`, and `inProgress` says that it failed with
`EINPROGRESS`. -/
def connect (p : Process σ) (s r : ℤ) (inProgress : Bool) (peer : Peer σ) :
    Process σ × ℤ × List LogCall :=
  if s < 0 ∨ maxFds ≤ s then (p, r, [])
  -- connect succeeded now
  else if r ≠ -1 then
    let (v, l) := connectEvent (p.vfdTab s) s r peer
    (p.setVfd s v, r, [logbinI .connectBegin 0 s] ++ l)
  -- connect event will happen in the future (non-block sock)
  else if inProgress then
    (p.setVfd s { p.vfdTab s with inProg := 1 }, r,
      [logbinI .connectBegin 0 s, logbinS .debug r (ascii "connect got EINPROGRESS")])
  -- just plain failed
  else (p, r, [logbinI .connectBegin 0 s, logbinIs .connect r s (ascii "failed->failed")])

/-- The receiving wrappers, with `flags` 0. -/
def receive (p : Process σ) (fn : RecvFn) (s : ℤ) (len : ℕ) (k : Kernel) :
    Except Fault (Reply σ) :=
  match fn with
  | .read => read p s len k
  | .recv => recv p s len 0 k
  | .recvfrom => recvfrom p s len 0 k

end BorderPatrol.Trace
