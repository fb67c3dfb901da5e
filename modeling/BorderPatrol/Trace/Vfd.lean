import BorderPatrol.Trace.Log

/-!
# The virtual descriptor

A traced descriptor with a protocol processor is read through a buffer of its own: `rbuf` holds
the bytes the kernel returned and not all yet needed, and four cursors move in it. `rbuflen` is
the end of the valid bytes, `rbufofs` is where the processor has consumed to, `rlastlen` is where
the application has been given bytes to, and `tosend` is how many more it may be given before the
processor is asked again. This module is `vfd.h` and the reading and writing functions of `vfd.c`
on one descriptor (`buf_shift`, `buf_ret`, `present_pp`, `virtual_read`, `virtual_recv`,
`virtual_recvfrom`, `vwrite_req`), for a run with `debug_events = 0`.

The kernel is a parameter of each call: a function from the capacity it is offered to what it
returns. A processor is given the memory from its buffer pointer on, of which only the first `len`
bytes are valid: a C string function may run past them.
-/

namespace BorderPatrol.Trace

open Foundations

/-- `MAX_FDS` -/
def maxFds : ℤ := 1024

/-- `VBUFSIZE` -/
def vbufsize : ℕ := 65536

/-- `enum vfd_types` -/
inductive VfdType
  | none | sock | pipe | dup | file
  deriving DecidableEq, Repr

/-- `pp_dispatcher_t`, over the type `σ` of what `pp_data` points to. A processor is called on its
data, the descriptor, the memory from the buffer pointer on and the number of valid bytes; it
gives its return value, its data and what it logged. -/
structure PpDispatcher (σ : Type) where
  name : String
  ppInit : ℤ → σ → σ × List LogCall
  ppShutdown : σ → σ × List LogCall
  ppRead : σ → ℤ → List Byte → ℤ → Except Fault (ℤ × σ × List LogCall)
  ppWrite : σ → ℤ → List Byte → ℤ → Except Fault (ℤ × σ × List LogCall)

/-- `vfd_t` -/
structure Vfd (σ : Type) where
  type : VfdType
  rbuf : Mem Byte
  rbuflen : ℤ
  rbufofs : ℤ
  rlastlen : ℤ
  tosend : ℤ
  ppwantmore : ℤ
  wbuf : Mem Byte
  wbuflen : ℤ
  wbufofs : ℤ
  inProg : ℤ
  ppDispatcher : Option (PpDispatcher σ)
  ppData : σ

variable {σ : Type}

/-- `vfd_tab_init_one` -/
def vfdTabInitOne (v : Vfd σ) : Vfd σ :=
  { v with
    ppDispatcher := none, type := .none,
    rbuflen := 0, rbufofs := 0, rlastlen := 0, tosend := 0, ppwantmore := 0,
    wbuflen := 0, wbufofs := 0, inProg := 0 }

/-- An entry of `vfd_tab` before the program runs: all zero. -/
def Vfd.zero (d : σ) : Vfd σ :=
  { type := .none, rbuf := fun _ => 0, rbuflen := 0, rbufofs := 0, rlastlen := 0, tosend := 0,
    ppwantmore := 0, wbuf := fun _ => 0, wbuflen := 0, wbufofs := 0, inProg := 0,
    ppDispatcher := none, ppData := d }

/-- A descriptor as `accept` leaves it: initialised and given a processor with its data. -/
def Vfd.opened (v : Vfd σ) (p : PpDispatcher σ) (d : σ) : Vfd σ :=
  { vfdTabInitOne v with ppDispatcher := some p, ppData := d }

/-- The same with the data `pp_init` makes, from whatever `pp_data` was. -/
def Vfd.accepted (v : Vfd σ) (p : PpDispatcher σ) (s : ℤ) (d : σ) : Vfd σ :=
  v.opened p (p.ppInit s d).1

/-- The memory from `&rbuf[ofs]` on: the rest of `rbuf` and the member `rbuflen` behind it, whose
last byte is zero. -/
def Vfd.rwindow (v : Vfd σ) (ofs : ℤ) : List Byte :=
  v.rbuf.slice ofs.toNat (vbufsize - ofs.toNat) ++ intBytes v.rbuflen

/-- The memory from `&wbuf[ofs]` on, likewise. -/
def Vfd.wwindow (v : Vfd σ) (ofs : ℤ) : List Byte :=
  v.wbuf.slice ofs.toNat (vbufsize - ofs.toNat) ++ intBytes v.wbuflen

/-- What the kernel answers to a receive of capacity `c`: an error or the end of file, or at least
one and at most `c` bytes. -/
structure KernelRead (c : ℕ) where
  ret : ℤ
  bytes : List Byte
  fits : ret ≤ 0 ∧ bytes = [] ∨ 0 < ret ∧ ret = bytes.length ∧ bytes.length ≤ c

/-- The kernel at one receive: its answer at each value of `flags` and each capacity. -/
abbrev Kernel := (flags : ℤ) → (c : ℕ) → KernelRead c

/-- A kernel that has the bytes `b` to give and nothing else. -/
def Kernel.give (b : List Byte) : Kernel := fun _ c =>
  if h : (b.take c).length = 0 then ⟨0, [], Or.inl ⟨Int.le_refl _, rfl⟩⟩
  else ⟨(b.take c).length, b.take c, Or.inr ⟨by omega, rfl, List.length_take_le ..⟩⟩

/-- What a call did, in order: receives from the kernel, calls of the processor, log calls. -/
inductive Event
  | realRead (flags : ℤ) (cap : ℕ) (ret : ℤ) (bytes : List Byte)
  | ppRead (len ret : ℤ)
  | ppWrite (len ret : ℤ)
  | log (e : LogCall)

/-- The bytes the kernel returned. -/
def kernelBytes (tr : List Event) : List Byte :=
  tr.flatMap fun | .realRead _ _ _ b => b | _ => []

/-- The log calls. -/
def logs (tr : List Event) : List LogCall :=
  tr.filterMap fun | .log e => some e | _ => none

@[simp] theorem kernelBytes_nil : kernelBytes [] = [] := rfl

@[simp] theorem kernelBytes_append (t₁ t₂ : List Event) :
    kernelBytes (t₁ ++ t₂) = kernelBytes t₁ ++ kernelBytes t₂ := by
  simp [kernelBytes]

@[simp] theorem logs_nil : logs [] = [] := rfl

@[simp] theorem logs_append (t₁ t₂ : List Event) : logs (t₁ ++ t₂) = logs t₁ ++ logs t₂ := by
  simp [logs]

/-- What a reading function gives back: the descriptor, the return value, the bytes it stored in
the caller's buffer, what it did, and what it did to the descriptor's bit of `vsel_data.read`
(`none` when it left it alone). -/
structure Got (σ : Type) where
  vfd : Vfd σ
  ret : ℤ
  out : List Byte
  trace : List Event
  readable : Option Bool

/-! ## Reading -/

/-- `buf_shift`: shift the entire buffer, and all pointers, to the left. -/
def bufShift (v : Vfd σ) : Except Fault (Vfd σ) := do
  let begin' := min v.rbufofs v.rlastlen
  if begin' = 0 then return v
  else
    let tomove := v.rbuflen - begin'
    inBounds (0 ≤ begin' ∧ 0 ≤ tomove ∧ v.rbuflen ≤ vbufsize)
    return { v with
      rbuf := v.rbuf.move 0 begin'.toNat tomove.toNat
      rbufofs := v.rbufofs - begin'
      rbuflen := v.rbuflen - begin'
      rlastlen := v.rlastlen - begin' }

/-- `buf_ret`: return a piece of the buffer. -/
def bufRet (v : Vfd σ) (outRequested : ℕ) : Except Fault (Got σ) := do
  cAssert (v.tosend ≠ 0)
  cAssert (v.rlastlen < vbufsize)
  let outCando := min (toInt outRequested) v.tosend
  -- a negative count is a huge one for `memcpy`
  inBounds (0 ≤ v.rlastlen ∧ 0 ≤ outCando ∧ v.rlastlen + outCando ≤ vbufsize)
  let v' := { v with rlastlen := v.rlastlen + outCando, tosend := v.tosend - outCando }
  cAssert (0 ≤ v'.tosend)
  return {
    vfd := v'
    ret := outCando
    out := v.rbuf.slice v.rlastlen.toNat outCando.toNat
    trace := []
    readable := some (v'.rlastlen ≠ v'.rbuflen) }

/-- What `present_pp` does when the processor, called on `amt` bytes, returned `a`, left its data at
`d` and logged `l`. -/
def ppAnswered (v : Vfd σ) (amt a : ℤ) (d : σ) (l : List LogCall) : Vfd σ × List Event :=
  if a < 0 then
    ({ v with ppData := d, tosend := v.rbuflen - v.rlastlen, ppwantmore := 1 },
      l.map .log ++ [.ppRead amt a])
  else
    ({ v with
        ppData := d
        ppwantmore := 0
        rbufofs := v.rbufofs + a
        tosend := v.rbufofs + a - v.rlastlen },
      l.map .log ++ [.ppRead amt a] ++
        if a < amt then [.log (logbinIi .ppIsoRead 0 a amt)] else [])

/-- `present_pp` -/
def presentPp (v : Vfd σ) (s : ℤ) : Except Fault (Vfd σ × List Event) := do
  let amt := v.rbuflen - v.rbufofs
  if amt = 0 then return (v, [])
  else
    match v.ppDispatcher with
    | none => .error .nullPointer
    | some p =>
      let (a, d, l) ← p.ppRead v.ppData s (v.rwindow v.rbufofs) amt
      return ppAnswered v amt a d l

/-- The receive inside `virtual_read`: shift the buffer and read behind its valid bytes. The return
value is the kernel's. -/
def fetch (v : Vfd σ) (flags : ℤ) (k : Kernel) : Except Fault (Vfd σ × ℤ × Event) := do
  let v ← bufShift v
  inBounds (v.rbuflen ≤ vbufsize)
  let cap := (vbufsize - v.rbuflen).toNat
  let r := k flags cap
  let ev := Event.realRead flags cap r.ret r.bytes
  if r.ret ≤ 0 then return (v, r.ret, ev)
  else
    return ({ v with
      rbuf := v.rbuf.store v.rbuflen.toNat r.bytes
      rbuflen := v.rbuflen + r.ret }, r.ret, ev)

/-- The end of `virtual_read`, where nothing is cached for the application and the processor needs
more: read from the kernel, present the new data and return a piece. `checked` says that the
function asserts `tosend` before the last step. -/
def refill (checked : Bool) (v : Vfd σ) (s : ℤ) (len : ℕ) (flags : ℤ) (k : Kernel) :
    Except Fault (Got σ) := do
  cAssert (v.tosend = 0)
  let (v, r, ev) ← fetch v flags k
  if r ≤ 0 then return { vfd := v, ret := r, out := [], trace := [ev], readable := none }
  else
    -- having just read, present new data to PP
    let (v, tr) ← presentPp v s
    cAssert (checked = true → v.tosend ≠ 0)
    let g ← bufRet v len
    return { g with trace := ev :: tr ++ g.trace }

/-- The body that `virtual_read`, `virtual_recv` and `virtual_recvfrom` share. -/
def virtualGet (checked : Bool) (v : Vfd σ) (s : ℤ) (len : ℕ) (flags : ℤ) (k : Kernel) :
    Except Fault (Got σ) := do
  -- short loop: keep coming back
  if v.tosend ≠ 0 then bufRet v len
  -- app caught up to PP. see if PP can work with more data
  else if v.rbufofs < v.rbuflen ∧ v.ppwantmore = 0 then
    let (v, tr) ← presentPp v s
    if v.tosend ≠ 0 then
      let g ← bufRet v len
      return { g with trace := tr ++ g.trace }
    else
      let g ← refill checked v s len flags k
      return { g with trace := tr ++ g.trace }
  else refill checked v s len flags k

/-- `virtual_read`: no flags, and an assertion the other two have commented out. -/
def virtualRead (v : Vfd σ) (s : ℤ) (len : ℕ) (k : Kernel) : Except Fault (Got σ) :=
  virtualGet true v s len 0 k

/-- `virtual_recv` -/
def virtualRecv (v : Vfd σ) (s : ℤ) (len : ℕ) (flags : ℤ) (k : Kernel) : Except Fault (Got σ) :=
  virtualGet false v s len flags k

/-- `virtual_recvfrom` -/
def virtualRecvfrom (v : Vfd σ) (s : ℤ) (len : ℕ) (flags : ℤ) (k : Kernel) :
    Except Fault (Got σ) :=
  virtualGet false v s len flags k

/-- The receiving functions an application calls on a descriptor with a processor. -/
inductive RecvFn
  | read | recv | recvfrom
  deriving DecidableEq, Repr

/-- One such call, with `flags` 0: the function, the length the application asks for and the kernel
it meets. -/
structure RecvCall where
  fn : RecvFn
  len : ℕ
  kernel : Kernel

/-- The part of the wrappers `read`, `recv` and `recvfrom` for a descriptor with a processor: the
virtual function and the assertion behind it. -/
def recvOne (v : Vfd σ) (s : ℤ) (c : RecvCall) : Except Fault (Got σ) := do
  let g ← match c.fn with
    | .read => virtualRead v s c.len c.kernel
    | .recv => virtualRecv v s c.len 0 c.kernel
    | .recvfrom => virtualRecvfrom v s c.len 0 c.kernel
  cAssert (g.vfd.rbufofs ≤ g.vfd.rbuflen)
  return g

/-- A sequence of calls, and what each gave back. -/
def recvRun (s : ℤ) : Vfd σ → List RecvCall → Except Fault (Vfd σ × List (Got σ))
  | v, [] => .ok (v, [])
  | v, c :: cs => do
    let g ← recvOne v s c
    let (v, gs) ← recvRun s g.vfd cs
    return (v, g :: gs)

/-- The bytes handed to the application by a sequence of calls. -/
def handed (gs : List (Got σ)) : List Byte := gs.flatMap (·.out)

/-- What a sequence of calls did. -/
def traces (gs : List (Got σ)) : List Event := gs.flatMap (·.trace)

/-! ## Writing -/

/-- The loop of `vwrite_req`: call the processor until it returns -1, indicating it needs more
data, or nothing is left. The first argument bounds the calls. -/
def vwriteLoop : ℕ → Vfd σ → ℤ → Except Fault (Vfd σ × List Event)
  | 0, _, _ => .error .fuel
  | n + 1, v, s => do
    let vlen := v.wbuflen - v.wbufofs
    if vlen = 0 then return (v, [])
    else
      match v.ppDispatcher with
      | none => .error .nullPointer
      | some p =>
        let (req, d, l) ← p.ppWrite v.ppData s (v.wwindow v.wbufofs) vlen
        let v := { v with ppData := d }
        let ev := l.map Event.log ++ [.ppWrite vlen req]
        -- got a chunk. call me again
        if 0 < req then
          let (v, tr) ← vwriteLoop n { v with wbufofs := v.wbufofs + req } s
          return (v, ev ++ tr)
        else return (v, ev)

/-- `vwrite_req` -/
def vwriteReq (v : Vfd σ) (s : ℤ) (buf : List Byte) (len : ℤ) :
    Except Fault (Vfd σ × List Event) := do
  if v.ppDispatcher.isNone ∨ len ≤ 0 then return (v, [])
  else
    -- append the amount we wrote to the virtual buffer
    inBounds (len ≤ buf.length ∧ 0 ≤ v.wbuflen ∧ v.wbuflen + len ≤ vbufsize)
    let v := { v with
      wbuf := v.wbuf.store v.wbuflen.toNat (buf.take len.toNat)
      wbuflen := v.wbuflen + len }
    let (v, tr) ← vwriteLoop (v.wbuflen.toNat + 1) v s
    -- save what was unused for next time application calls write()
    let vlen := v.wbuflen - v.wbufofs
    inBounds (0 ≤ vlen ∧ 0 ≤ v.wbufofs ∧ v.wbuflen ≤ vbufsize)
    return ({ v with
      wbuf := v.wbuf.move 0 v.wbufofs.toNat vlen.toNat
      wbufofs := 0
      wbuflen := vlen }, tr)

end BorderPatrol.Trace
