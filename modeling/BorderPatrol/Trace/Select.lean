import BorderPatrol.Trace.Vfd

/-!
# Descriptors of a process and their readiness

`vfd.c` keeps, beside the virtual descriptors, three descriptor sets `vsel_data`: the readiness
that `select` reported and the application was not told yet, and the descriptors whose buffers
hold bytes for it. This module is `speak_select` with the wrappers that touch these sets: `select`,
`poll`, the receiving functions and `close`, on the state of a whole process, for a run with
`debug_events = 0`.
-/

namespace BorderPatrol.Trace

open Foundations

/-- `fd_set`. Descriptors from `FD_SETSIZE`, which is `MAX_FDS`, on are outside its memory. -/
abbrev FdSet := ℤ → Bool

/-- The kinds of readiness, in the order `speak_select` looks at them. -/
inductive VfdRwe
  | read | write | except
  deriving DecidableEq, Repr

/-- Three descriptor sets: those of `vsel_data`, and those of a call. -/
structure FdSets where
  read : FdSet
  write : FdSet
  except : FdSet

namespace FdSets

def get (s : FdSets) : VfdRwe → FdSet
  | .read => s.read
  | .write => s.write
  | .except => s.except

/-- `FD_ZERO` on all three. -/
def zero : FdSets := ⟨fun _ => false, fun _ => false, fun _ => false⟩

/-- `FD_SET` (with `b`) or `FD_CLR` on the set of kind `k`. -/
def put (s : FdSets) (k : VfdRwe) (fd : ℤ) (b : Bool) : FdSets :=
  match k with
  | .read => { s with read := Function.update s.read fd b }
  | .write => { s with write := Function.update s.write fd b }
  | .except => { s with except := Function.update s.except fd b }

/-- Nothing but `fd` in the set of kind `k`. -/
def only (k : VfdRwe) (fd : ℤ) : FdSets := zero.put k fd true

/-- The loop that copies the bits below `n` of `res` into a set. -/
def absorb (s : FdSets) (n : ℤ) (res : FdSets) : FdSets where
  read i := s.read i || (decide (0 ≤ i ∧ i < n) && res.read i)
  write i := s.write i || (decide (0 ≤ i ∧ i < n) && res.write i)
  except i := s.except i || (decide (0 ≤ i ∧ i < n) && res.except i)

theorem get_put (s : FdSets) (k k' : VfdRwe) (fd i : ℤ) (b : Bool) :
    (s.put k fd b).get k' i = if k' = k ∧ i = fd then b else s.get k' i := by
  cases k <;> cases k' <;> simp [put, get, Function.update_apply]

theorem get_only (k k' : VfdRwe) (fd i : ℤ) : (only k fd).get k' i = decide (k' = k ∧ i = fd) := by
  rw [only, get_put]
  cases k' <;> simp [zero, get]

theorem get_absorb (s : FdSets) (n : ℤ) (res : FdSets) (k : VfdRwe) (i : ℤ) :
    (s.absorb n res).get k i = (s.get k i || (decide (0 ≤ i ∧ i < n) && res.get k i)) := by
  cases k <;> rfl

end FdSets

/-- The sets an application passes to `select`: null pointers are `none`. -/
structure FdArgs where
  read : Option FdSet
  write : Option FdSet
  except : Option FdSet

namespace FdArgs

/-- `speak_select` puts empty sets in the place of null pointers. -/
def sets (a : FdArgs) : FdSets where
  read := a.read.getD FdSets.zero.read
  write := a.write.getD FdSets.zero.write
  except := a.except.getD FdSets.zero.except

def get (a : FdArgs) : VfdRwe → Option FdSet
  | .read => a.read
  | .write => a.write
  | .except => a.except

/-- What the application finds in its sets: those put in the place of null pointers are freed. -/
def give (a : FdArgs) (s : FdSets) : FdArgs where
  read := a.read.map fun _ => s.read
  write := a.write.map fun _ => s.write
  except := a.except.map fun _ => s.except

theorem sets_get (a : FdArgs) (k : VfdRwe) :
    a.sets.get k = (a.get k).getD fun _ => false := by
  cases k <;> rfl

theorem give_get (a : FdArgs) (s : FdSets) (k : VfdRwe) :
    (a.give s).get k = (a.get k).map fun _ => s.get k := by
  cases k <;> rfl

end FdArgs

/-- `struct timeval` -/
structure Timeval where
  sec : ℤ
  usec : ℤ
  deriving DecidableEq, Repr

variable {σ : Type}

/-- What `connect_event` learns about a descriptor: the text it logs, the processor that
`pp_id_connect` gives for the peer's address, and what `pp_id_connect` logs. -/
structure Peer (σ : Type) where
  rdv : List Byte
  id : Option (PpDispatcher σ)
  idLog : List LogCall

/-- What one `speak_select` meets: the answer of `real_select`, its return value and what it leaves
in the sets, and the peer of each descriptor. -/
structure SelectEnv (σ : Type) where
  realSelect : ℤ → FdSets → Option Timeval → ℤ × FdSets
  peer : ℤ → Peer σ

/-- A traced process: `vfd_tab` and `vsel_data`. -/
structure Process (σ : Type) where
  vfdTab : ℤ → Vfd σ
  vselData : FdSets

namespace Process

/-- `vfd_tab[s] = v` -/
def setVfd (p : Process σ) (s : ℤ) (v : Vfd σ) : Process σ :=
  { p with vfdTab := Function.update p.vfdTab s v }

/-- `FD_SET` (with `b`) or `FD_CLR` on a set of `vsel_data`. -/
def putVsel (p : Process σ) (k : VfdRwe) (s : ℤ) (b : Bool) : Process σ :=
  { p with vselData := p.vselData.put k s b }

/-- `clear_readable_cache` -/
def clearReadableCache (p : Process σ) (s : ℤ) : Process σ := p.putVsel .read s false

/-- `set_readable_cache` -/
def setReadableCache (p : Process σ) (s : ℤ) : Process σ := p.putVsel .read s true

@[simp] theorem setVfd_vselData (p : Process σ) (s : ℤ) (v : Vfd σ) :
    (p.setVfd s v).vselData = p.vselData := rfl

@[simp] theorem putVsel_vfdTab (p : Process σ) (k : VfdRwe) (s : ℤ) (b : Bool) :
    (p.putVsel k s b).vfdTab = p.vfdTab := rfl

theorem setVfd_vfdTab (p : Process σ) (s i : ℤ) (v : Vfd σ) :
    (p.setVfd s v).vfdTab i = if i = s then v else p.vfdTab i := by
  simp [setVfd, Function.update_apply]

theorem putVsel_get (p : Process σ) (k k' : VfdRwe) (s i : ℤ) (b : Bool) :
    (p.putVsel k s b).vselData.get k' i = if k' = k ∧ i = s then b else p.vselData.get k' i :=
  FdSets.get_put ..

end Process

/-! ## Select and poll -/

/-- A loop of `speak_select` over the descriptors from `i` on, `m` of them: the first that is a hit
for some kind, with the first such kind. -/
def firstHit (hit : VfdRwe → ℤ → Bool) : ℕ → ℤ → Except Fault (Option (ℤ × VfdRwe))
  | 0, _ => .ok none
  | m + 1, i => do
    inBounds (i < maxFds)
    if hit .read i then return some (i, .read)
    else if hit .write i then return some (i, .write)
    else if hit .except i then return some (i, .except)
    else firstHit hit m (i + 1)

/-- `connect_event`, with `r` what it logs as the result. -/
def connectEvent (v : Vfd σ) (s r : ℤ) (peer : Peer σ) : Vfd σ × List LogCall :=
  let (d, l) := match peer.id with
    | none => (v.ppData, [])
    | some pp => pp.ppInit s v.ppData
  ({ v with inProg := 0, ppDispatcher := peer.id, ppData := d },
    peer.idLog ++ l ++ [logbinIs .connect r s peer.rdv])

/-- What `speak_select` gives back: the process, the return value, the descriptor found or -1, the
caller's sets, what `real_select` answered if it was called, and the log calls. -/
structure Selected (σ : Type) where
  proc : Process σ
  ret : ℤ
  rfd : ℤ
  sets : FdArgs
  asked : Option (ℤ × FdSets)
  log : List LogCall

/-- The end of `speak_select`: maybe a connect event. -/
def selDone (q : Selected σ) (env : SelectEnv σ) : Selected σ :=
  if -1 < q.rfd ∧ (q.proc.vfdTab q.rfd).inProg ≠ 0 then
    let (v, l) := connectEvent (q.proc.vfdTab q.rfd) q.rfd 1 (env.peer q.rfd)
    { q with proc := q.proc.setVfd q.rfd v, log := q.log ++ l }
  else q

/-- `speak_select` -/
def speakSelect (p : Process σ) (n : ℤ) (args : FdArgs) (timeout : Option Timeval)
    (env : SelectEnv σ) : Except Fault (Selected σ) := do
  let sets := args.sets
  -- check if our cached fd_sets can satisfy this call
  match ← firstHit (fun k i => sets.get k i && p.vselData.get k i) n.toNat 0 with
  | some (fd, rwe) =>
    return selDone {
      proc := p.putVsel rwe fd false
      ret := 1
      rfd := fd
      sets := args.give (FdSets.only rwe fd)
      asked := none
      log := [] } env
  | none =>
    let (r, res) := env.realSelect n sets timeout
    if r ≤ 0 then
      return selDone {
        proc := p, ret := r, rfd := -1, sets := args.give res, asked := some (r, res),
        log := [] } env
    else
      let vsel := p.vselData.absorb n res
      let log := if 1 < r then [logbin0 .ppIsoPoll r] else []
      -- find the first fd
      match ← firstHit vsel.get n.toNat 0 with
      | some (fd, rwe) =>
        return selDone {
          proc := { p with vselData := vsel }
          ret := 1
          rfd := fd
          sets := args.give (FdSets.only rwe fd)
          asked := some (r, res)
          log } env
      | none =>
        return selDone {
          proc := { p with vselData := vsel }
          ret := 1
          rfd := -1
          sets := args.give FdSets.zero
          asked := some (r, res)
          log } env

/-- `select` -/
def select (p : Process σ) (n : ℤ) (args : FdArgs) (timeout : Option Timeval)
    (env : SelectEnv σ) : Except Fault (Selected σ) := do
  let q ← speakSelect p n args timeout env
  return { q with
    log := [logbin0 .selectBegin 0] ++ q.log ++ [logbinIi .select q.ret n q.rfd] }

/-- `POLLIN` -/
def pollin : ℕ := 1

/-- `POLLOUT` -/
def pollout : ℕ := 4

/-- `struct pollfd` -/
structure Pollfd where
  fd : ℤ
  events : ℕ
  revents : ℕ
  deriving DecidableEq, Repr

/-- `FD_SET(fd, s)` where `c` holds. -/
def fdSetWhen (c : Bool) (s : FdSets) (k : VfdRwe) (fd : ℤ) : Except Fault FdSets :=
  if c then inBounds (0 ≤ fd ∧ fd < maxFds) >>= fun _ => .ok (s.put k fd true) else .ok s

/-- The loop of `poll` that converts `ufds` into sets and finds the largest descriptor. -/
def pollSets : List Pollfd → FdSets → ℤ → Except Fault (FdSets × ℤ)
  | [], sets, maxfd => .ok (sets, maxfd)
  | u :: ufds, sets, maxfd => do
    let sets ← fdSetWhen (u.events &&& pollin ≠ 0) sets .read u.fd
    let sets ← fdSetWhen (u.events &&& pollout ≠ 0) sets .write u.fd
    pollSets ufds sets (if maxfd < u.fd then u.fd else maxfd)

/-- The loop of `poll` that sets `revents`, all zero before it. -/
def pollRevents (sets : FdSets) (rfd : ℤ) : List Pollfd → Except Fault (List Pollfd)
  | [] => .ok []
  | u :: ufds =>
    if u.fd ≠ rfd then pollRevents sets rfd ufds >>= fun r => .ok (u :: r)
    else do
      inBounds (0 ≤ u.fd ∧ u.fd < maxFds)
      if sets.read u.fd then return { u with revents := pollin } :: ufds
      else if sets.write u.fd then return { u with revents := pollout } :: ufds
      else
        let r ← pollRevents sets rfd ufds
        return u :: r

/-- The timeout of `poll`, in milliseconds, as that of `select`: none waits forever. -/
def pollTimeout (timeout : ℤ) : Option Timeval :=
  if 0 ≤ timeout then
    some ⟨timeout.tdiv 1000, (timeout - timeout.tdiv 1000 * 1000) * 1000⟩
  else none

/-- What `poll` gives back: the entries and what `speak_select` gave. -/
structure Polled (σ : Type) where
  ufds : List Pollfd
  sel : Selected σ

/-- The call of `speak_select` in `poll`. -/
def pollSelect (p : Process σ) (ufds : List Pollfd) (timeout : ℤ) (env : SelectEnv σ) :
    Except Fault (Selected σ) := do
  let (sets, maxfd) ← pollSets ufds FdSets.zero 0
  speakSelect p (maxfd + 1) ⟨some sets.read, some sets.write, some sets.except⟩
    (pollTimeout timeout) env

/-- `poll` -/
def poll (p : Process σ) (ufds : List Pollfd) (timeout : ℤ) (env : SelectEnv σ) :
    Except Fault (Polled σ) := do
  let ufds := ufds.map fun u => { u with revents := 0 }
  let q ← pollSelect p ufds timeout env
  let ufds ← pollRevents q.sets.sets q.rfd ufds
  return {
    ufds
    sel := { q with
      log := [logbinIi .pollBegin 0 ufds.length timeout] ++ q.log ++
        [logbinIii .poll q.ret ufds.length timeout q.rfd] } }

/-! ## Receiving and closing -/

/-- What a wrapped receive gives back: the process, the return value, the bytes it stored in the
caller's buffer and what it did. -/
structure Reply (σ : Type) where
  proc : Process σ
  ret : ℤ
  out : List Byte
  trace : List Event

/-- The receive of the kernel, straight into the caller's buffer. -/
def realReceive (p : Process σ) (len : ℕ) (flags : ℤ) (k : Kernel) : Reply σ :=
  let r := k flags len
  { proc := p, ret := r.ret, out := r.bytes, trace := [.realRead flags len r.ret r.bytes] }

/-- The body that the wrappers `read`, `recv` and `recvfrom` share: `virtualFn` is the function for
a descriptor with a processor, `begin'` and `end'` are the log calls around it. -/
def wrapReceive (virtualFn : Vfd σ → Except Fault (Got σ)) (begin' : LogCall) (end' : ℤ → LogCall)
    (p : Process σ) (s : ℤ) (len : ℕ) (flags : ℤ) (k : Kernel) : Except Fault (Reply σ) := do
  if s < 0 ∨ maxFds ≤ s then return realReceive p len flags k
  else if (p.vfdTab s).ppDispatcher.isSome then
    let g ← virtualFn (p.vfdTab s)
    cAssert (g.vfd.rbufofs ≤ g.vfd.rbuflen)
    let p := p.setVfd s g.vfd
    return {
      proc := match g.readable with
        | none => p
        | some false => p.clearReadableCache s
        | some true => p.setReadableCache s
      ret := g.ret
      out := g.out
      trace := [.log begin'] ++ g.trace ++ [.log (end' g.ret)] }
  else
    let r := realReceive p len flags k
    return { r with
      proc := p.clearReadableCache s
      trace := [.log begin'] ++ r.trace ++ [.log (end' r.ret)] }

/-- `read` -/
def read (p : Process σ) (s : ℤ) (len : ℕ) (k : Kernel) : Except Fault (Reply σ) :=
  wrapReceive (fun v => virtualRead v s len k) (logbinIi .readBegin 0 s len)
    (fun r => logbinIi .read r s len) p s len 0 k

/-- `recv` -/
def recv (p : Process σ) (s : ℤ) (len : ℕ) (flags : ℤ) (k : Kernel) : Except Fault (Reply σ) :=
  wrapReceive (fun v => virtualRecv v s len flags k) (logbinIii .recvBegin 0 s len flags)
    (fun r => logbinIii .recv r s len flags) p s len flags k

/-- `recvfrom` -/
def recvfrom (p : Process σ) (s : ℤ) (len : ℕ) (flags : ℤ) (k : Kernel) : Except Fault (Reply σ) :=
  wrapReceive (fun v => virtualRecvfrom v s len flags k) (logbinIii .recvfromBegin 0 s len flags)
    (fun r => logbinIii .recvfrom r s len flags) p s len flags k

/-- `LOGD_FD` -/
def logdFd : ℤ := 79

/-- What `close` does to `vfd_tab[s]`, and what it logs. -/
def closeVfd (v : Vfd σ) : Vfd σ × List LogCall :=
  let v := { v with type := .none, inProg := 0, rbufofs := 0, rbuflen := 0 }
  match v.ppDispatcher with
  | none => (v, [])
  | some pp =>
    let (d, l) := pp.ppShutdown v.ppData
    ({ v with ppDispatcher := none, ppData := d }, l)

/-- `close`, where the kernel's returns `ret`: the process, the return value and the log calls. -/
def close (p : Process σ) (s ret : ℤ) : Process σ × ℤ × List LogCall :=
  if s = logdFd then (p, 1, [])
  else if s < 0 ∨ maxFds ≤ s then (p, ret, [])
  else
    let (v, l) := closeVfd (p.vfdTab s)
    let p := (((p.setVfd s v).putVsel .read s false).putVsel .write s false).putVsel .except s false
    (p, ret, l ++ [logbinI .close ret s])

/-! ## What the loops find -/

/-- No descriptor from `i` on is a hit before `fd` is looked at for `k`. -/
def NoneBefore (hit : VfdRwe → ℤ → Bool) (i fd : ℤ) (k : VfdRwe) : Prop :=
  (∀ j, i ≤ j → j < fd → ∀ k', hit k' j = false) ∧
    (k ≠ .read → hit .read fd = false) ∧ (k = .except → hit .write fd = false)

/-- `fd` is the first descriptor from `i` on that is a hit for some kind, and `k` its first kind. -/
def FirstHit (hit : VfdRwe → ℤ → Bool) (i fd : ℤ) (k : VfdRwe) : Prop :=
  i ≤ fd ∧ hit k fd = true ∧ NoneBefore hit i fd k

theorem firstHit_some {hit : VfdRwe → ℤ → Bool} {m : ℕ} {i fd : ℤ} {k : VfdRwe}
    (h : firstHit hit m i = .ok (some (fd, k))) :
    FirstHit hit i fd k ∧ fd < i + m ∧ fd < maxFds := by
  induction m generalizing i with
  | zero => cases h
  | succ m ih =>
    obtain ⟨u, hin, h⟩ := bind_eq_ok h
    have hi := of_inBounds hin
    have hnone : ∀ j, i ≤ j → j < i → ∀ k', hit k' j = false := fun j _ _ => by omega
    split at h
    · next hr =>
      cases h
      exact ⟨⟨le_rfl, hr, hnone, fun h => absurd rfl h, fun h => by cases h⟩, by omega, hi⟩
    · next hr =>
      split at h
      · next hw =>
        cases h
        exact ⟨⟨le_rfl, hw, hnone, fun _ => by simpa using hr, fun h => by cases h⟩, by omega, hi⟩
      · next hw =>
        split at h
        · next he =>
          cases h
          exact ⟨⟨le_rfl, he, hnone, fun _ => by simpa using hr, fun _ => by simpa using hw⟩,
            by omega, hi⟩
        · next he =>
          obtain ⟨⟨h₁, h₂, h₃, h₄⟩, h₅, h₆⟩ := ih h
          refine ⟨⟨by omega, h₂, fun j hj hlt k' => ?_, h₄⟩, by push_cast; omega, h₆⟩
          rcases eq_or_lt_of_le hj with rfl | hj
          · cases k'
            · simpa using hr
            · simpa using hw
            · simpa using he
          · exact h₃ j (by omega) hlt k'

theorem firstHit_none {hit : VfdRwe → ℤ → Bool} {m : ℕ} {i : ℤ}
    (h : firstHit hit m i = .ok none) : ∀ j, i ≤ j → j < i + m → ∀ k, hit k j = false := by
  induction m generalizing i with
  | zero => exact fun j _ _ => by omega
  | succ m ih =>
    obtain ⟨u, -, h⟩ := bind_eq_ok h
    split at h
    · cases h
    · next hr =>
      split at h
      · cases h
      · next hw =>
        split at h
        · cases h
        · next he =>
          intro j hj hlt k
          rcases eq_or_lt_of_le hj with rfl | hj
          · cases k
            · simpa using hr
            · simpa using hw
            · simpa using he
          · exact ih h j (by omega) (by push_cast at hlt ⊢; omega) k

/-- The loops stay inside the sets when the bound is at most `FD_SETSIZE`. -/
theorem firstHit_ok (hit : VfdRwe → ℤ → Bool) {m : ℕ} {i : ℤ} (h : i + m ≤ maxFds) :
    ∃ o, firstHit hit m i = .ok o := by
  induction m generalizing i with
  | zero => exact ⟨none, rfl⟩
  | succ m ih =>
    unfold firstHit
    rw [inBounds_of (by push_cast at h; omega), ok_bind]
    split
    · exact ⟨_, rfl⟩
    · split
      · exact ⟨_, rfl⟩
      · split
        · exact ⟨_, rfl⟩
        · exact ih (by push_cast at h; omega)

/-- The first hit is one. -/
theorem FirstHit.unique {hit : VfdRwe → ℤ → Bool} {i fd fd' : ℤ} {k k' : VfdRwe}
    (h : FirstHit hit i fd k) (h' : FirstHit hit i fd' k') : fd = fd' ∧ k = k' := by
  obtain ⟨h₁, h₂, h₃, h₄, h₅⟩ := h
  obtain ⟨h₁', h₂', h₃', h₄', h₅'⟩ := h'
  obtain rfl : fd = fd' := by
    rcases lt_trichotomy fd fd' with hlt | heq | hgt
    · rw [h₃' fd h₁ hlt k] at h₂
      cases h₂
    · exact heq
    · rw [h₃ fd' h₁' hgt k'] at h₂'
      cases h₂'
  refine ⟨rfl, ?_⟩
  cases k <;> cases k' <;> simp_all

end BorderPatrol.Trace
