import BorderPatrol.Trace.Select

/-!
# Sending

The wrappers `write`, `send`, `sendto` and `writev` of `vfd.c`: the kernel sends first, and what it
took is shown to the processor. What the kernel returns is a parameter of the call. The receiving
wrappers are with `select`; `IoCall` is a call of one or the other.
-/

namespace BorderPatrol.Trace

open Foundations

variable {σ : Type}

/-- The body that the wrappers `write`, `send` and `sendto` share, where the kernel returns `r` for
the bytes `buf`: `begin'` and `end'` are the log calls around it. -/
def wrapSend (begin' : LogCall) (end' : ℤ → LogCall) (p : Process σ) (s : ℤ) (buf : List Byte)
    (r : ℤ) : Except Fault (Reply σ) := do
  if s < 0 ∨ maxFds ≤ s then return { proc := p, ret := r, out := [], trace := [] }
  else
    let (v, tr) ← vwriteReq (p.vfdTab s) s buf (toInt r)
    return {
      proc := (p.setVfd s v).putVsel .write s false
      ret := r
      out := []
      trace := [.log begin'] ++ tr ++ [.log (end' r)] }

/-- `write` -/
def write (p : Process σ) (s : ℤ) (buf : List Byte) (r : ℤ) : Except Fault (Reply σ) :=
  wrapSend (logbinIi .writeBegin 0 s buf.length) (fun r => logbinIi .write r s buf.length) p s buf r

/-- `send` -/
def send (p : Process σ) (s : ℤ) (buf : List Byte) (flags r : ℤ) : Except Fault (Reply σ) :=
  wrapSend (logbinIii .sendBegin 0 s buf.length flags)
    (fun r => logbinIii .send r s buf.length flags) p s buf r

/-- `sendto` -/
def sendto (p : Process σ) (s : ℤ) (buf : List Byte) (flags r : ℤ) : Except Fault (Reply σ) :=
  wrapSend (logbinIii .sendtoBegin 0 s buf.length flags)
    (fun r => logbinIii .sendto r s buf.length flags) p s buf r

/-- The loop of `writev`: `todo` bytes of the buffers are shown to the processor. -/
def writevReq (s : ℤ) : Vfd σ → List (List Byte) → ℤ → Except Fault (Vfd σ × List Event)
  | v, [], _ => .ok (v, [])
  | v, buf :: vec, todo => do
    let try' := if todo < buf.length then todo else buf.length
    let (v, tr) ← vwriteReq v s buf try'
    if todo - try' = 0 then return (v, tr)
    else
      let (v, tr') ← writevReq s v vec (todo - try')
      return (v, tr ++ tr')

/-- What `writev` shows to the processor of the `r` bytes sent. -/
def writevShown (s : ℤ) (v : Vfd σ) (vec : List (List Byte)) (r : ℤ) :
    Except Fault (Vfd σ × List Event) :=
  if 0 < r ∧ v.ppDispatcher.isSome then writevReq s v vec r else .ok (v, [])

/-- `writev`, where the kernel returns `ret`. -/
def writev (p : Process σ) (s : ℤ) (vec : List (List Byte)) (ret : ℤ) : Except Fault (Reply σ) := do
  if s < 0 ∨ maxFds ≤ s then return { proc := p, ret := ret, out := [], trace := [] }
  else
    let r := toInt ret
    let (v, tr) ← writevShown s (p.vfdTab s) vec r
    return {
      proc := (p.setVfd s v).putVsel .write s false
      ret := r
      out := []
      trace := [.log (logbinIi .writevBegin 0 s vec.length)] ++ tr ++
        [.log (logbinIi .writev r s vec.length)] }

/-- A wrapped call that receives or sends, with what the kernel does. -/
inductive IoCall
  | read (len : ℕ) (k : Kernel)
  | recv (len : ℕ) (flags : ℤ) (k : Kernel)
  | recvfrom (len : ℕ) (flags : ℤ) (k : Kernel)
  | write (buf : List Byte) (r : ℤ)
  | writev (vec : List (List Byte)) (r : ℤ)
  | send (buf : List Byte) (flags r : ℤ)
  | sendto (buf : List Byte) (flags r : ℤ)

namespace IoCall

/-- The call on descriptor `s`. -/
def run (p : Process σ) (s : ℤ) : IoCall → Except Fault (Reply σ)
  | read len k => Trace.read p s len k
  | recv len flags k => Trace.recv p s len flags k
  | recvfrom len flags k => Trace.recvfrom p s len flags k
  | write buf r => Trace.write p s buf r
  | writev vec r => Trace.writev p s vec r
  | send buf flags r => Trace.send p s buf flags r
  | sendto buf flags r => Trace.sendto p s buf flags r

/-- The event of the call. -/
def sc : IoCall → Sc
  | read _ _ => .read
  | recv _ _ _ => .recv
  | recvfrom _ _ _ => .recvfrom
  | write _ _ => .write
  | writev _ _ => .writev
  | send _ _ _ => .send
  | sendto _ _ _ => .sendto

/-- The log call of the result `r`, with which a call on a traced descriptor ends. -/
def logged (s r : ℤ) : IoCall → LogCall
  | read len _ => logbinIi .read r s len
  | recv len flags _ => logbinIii .recv r s len flags
  | recvfrom len flags _ => logbinIii .recvfrom r s len flags
  | write buf _ => logbinIi .write r s buf.length
  | writev vec _ => logbinIi .writev r s vec.length
  | send buf flags _ => logbinIii .send r s buf.length flags
  | sendto buf flags _ => logbinIii .sendto r s buf.length flags

theorem logged_sc (c : IoCall) (s r : ℤ) : (c.logged s r).sc = c.sc := by
  cases c <;> rfl

theorem logged_rv (c : IoCall) (s r : ℤ) : (c.logged s r).rv = r := by
  cases c <;> rfl

/-- The descriptor, and one or two numbers. -/
theorem logged_args (c : IoCall) (s r : ℤ) :
    ∃ i l, (c.logged s r).args = s :: i :: l ∧ l.length ≤ 1 ∧ (c.logged s r).str = [] := by
  cases c <;> exact ⟨_, _, rfl, by simp, rfl⟩

end IoCall

variable {p : Process σ} {s : ℤ} {q : Reply σ}

/-- What a traced receive ends with. -/
theorem wrapReceive_trace {virtualFn : Vfd σ → Except Fault (Got σ)} {begin' : LogCall}
    {end' : ℤ → LogCall} {len : ℕ} {flags : ℤ} {k : Kernel} (hs : 0 ≤ s ∧ s < maxFds)
    (h : wrapReceive virtualFn begin' end' p s len flags k = .ok q) :
    ∃ tr, q.trace = tr ++ [.log (end' q.ret)] := by
  unfold wrapReceive at h
  rw [if_neg (by omega)] at h
  split at h
  · obtain ⟨g, -, h⟩ := bind_eq_ok h
    obtain ⟨u, -, h⟩ := bind_eq_ok h
    cases h
    exact ⟨_, rfl⟩
  · cases h
    exact ⟨_, rfl⟩

theorem wrapSend_trace {begin' : LogCall} {end' : ℤ → LogCall} {buf : List Byte} {r : ℤ}
    (hs : 0 ≤ s ∧ s < maxFds) (h : wrapSend begin' end' p s buf r = .ok q) :
    ∃ tr, q.trace = tr ++ [.log (end' q.ret)] := by
  unfold wrapSend at h
  rw [if_neg (by omega)] at h
  obtain ⟨a, -, h⟩ := bind_eq_ok h
  cases h
  exact ⟨_, rfl⟩

theorem writev_trace {vec : List (List Byte)} {r : ℤ} (hs : 0 ≤ s ∧ s < maxFds)
    (h : writev p s vec r = .ok q) :
    ∃ tr, q.trace = tr ++ [.log (logbinIi .writev q.ret s vec.length)] := by
  unfold writev at h
  rw [if_neg (by omega)] at h
  obtain ⟨a, -, h⟩ := bind_eq_ok h
  cases h
  exact ⟨_, rfl⟩

/-- **A traced call** ends with the log call of its result. -/
theorem IoCall.run_trace {c : IoCall} (hs : 0 ≤ s ∧ s < maxFds) (h : c.run p s = .ok q) :
    ∃ tr, q.trace = tr ++ [.log (c.logged s q.ret)] := by
  cases c with
  | read len k =>
    rw [run, Trace.read] at h
    exact wrapReceive_trace hs h
  | recv len flags k =>
    rw [run, Trace.recv] at h
    exact wrapReceive_trace hs h
  | recvfrom len flags k =>
    rw [run, Trace.recvfrom] at h
    exact wrapReceive_trace hs h
  | write buf r =>
    rw [run, Trace.write] at h
    exact wrapSend_trace hs h
  | writev vec r => exact writev_trace hs h
  | send buf flags r =>
    rw [run, Trace.send] at h
    exact wrapSend_trace hs h
  | sendto buf flags r =>
    rw [run, Trace.sendto] at h
    exact wrapSend_trace hs h

end BorderPatrol.Trace
