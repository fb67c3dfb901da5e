import BorderPatrol.Foundations.Simulation
import BorderPatrol.Logd.Clients

/-!
# The main loop of the relay

`main` of `logd.c`, when it serves a port: a turn of its loop copies `active_fd_set`, has `select`
leave the descriptors with input pending in the copy, and serves these while it counts up to `nfds`
and down from the number that `select` returned. Serving may change what the loop runs on: an
`accept` sets a descriptor in `active_fd_set` and may raise `nfds`, and a client that is gone is
cleared. The steps of the relay are what all this comes to. As long as the kernel keeps to its part,
a turn takes one step for each descriptor that is ready, in ascending order and none twice, reads
only from descriptors that are active when their turn comes, and leaves all that are active below
`nfds`, where the next `select` watches them (`mainLoop_serves`).
-/

namespace BorderPatrol.Logd

open Foundations

/-- The statics of `logd` and the variables of `main`, with what is in the log file. -/
structure Daemon where
  slots : ℕ → Slot
  activeFdSet : ℕ → Bool
  nfds : ℕ
  file : List Byte

/-- What a turn of the loop meets: what `select` returns and leaves in `read_fd_set`, what `accept`
returns, what a descriptor gives when it is read, and what serving it meets. -/
structure Turn where
  selectRet : ℤ
  readFdSet : ℕ → Bool
  acceptRet : ℤ
  reads : ℕ → Option (List Byte)
  envs : ℕ → RelayEnv

/-- The state before the loop: only the socket that listens is active. -/
def Daemon.init (sock : ℕ) : Daemon where
  slots := State.init.slots
  activeFdSet := fun i => i = sock
  nfds := sock + 1
  file := []

/-- A client has connected. -/
def Daemon.add (d : Daemon) (status : ℕ) : Daemon :=
  { d with
    slots := Function.update d.slots status { d.slots status with relay := some fun _ => 0 }
    activeFdSet := Function.update d.activeFdSet status true
    nfds := if d.nfds ≤ status then status + 1 else d.nfds }

/-- A client is gone, whose slot is `s` after the last that it sent. -/
def Daemon.drop (d : Daemon) (i : ℕ) (s : Slot) (out : List (List Byte)) : Daemon where
  slots := Function.update d.slots i { s with relay := none }
  activeFdSet := Function.update d.activeFdSet i false
  nfds := if i = d.nfds then d.nfds - 1 else d.nfds
  file := d.file ++ out.flatten

/-- A connection request. -/
def acceptOn (u : Turn) (d : Daemon) : Except Fault Daemon :=
  if u.acceptRet < 0 then .error (.exit 1)
  else do
    let status := u.acceptRet.toNat
    inBounds (status < fdSetsize)
    return d.add status

/-- Data on a descriptor that is connected. -/
def inputOn (u : Turn) (d : Daemon) (i : ℕ) : Except Fault Daemon := do
  let (ret, s, out) ← transferIn (u.envs i) (d.slots i) (u.reads i)
  if ret ≤ 0 then
    -- the client disconnected, or an error occurred
    let (s, out') ← transferOut (u.envs i) s
    return d.drop i s (out ++ out')
  else return { d with slots := Function.update d.slots i s, file := d.file ++ out.flatten }

/-- A descriptor with input pending is serviced. -/
def serviceFd (sock : ℕ) (u : Turn) (d : Daemon) (i : ℕ) : Except Fault Daemon :=
  if i = sock then acceptOn u d else inputOn u d i

/-- The loop that services the sockets with input pending, from `i` on. The first argument bounds
the turns. -/
def serviceLoop (sock : ℕ) (u : Turn) : ℕ → ℕ → ℤ → Daemon → Except Fault Daemon
  | 0, _, _, _ => .error .fuel
  | n + 1, i, availFd, d =>
    if i < d.nfds then
      if u.readFdSet i then do
        let d ← serviceFd sock u d i
        if availFd - 1 = 0 then return d else serviceLoop sock u n (i + 1) (availFd - 1) d
      else serviceLoop sock u n (i + 1) availFd d
    else .ok d

/-- A turn of the main loop. -/
def mainTurn (sock : ℕ) (d : Daemon) (u : Turn) : Except Fault Daemon :=
  if u.selectRet < 0 then .error (.exit 1)
  else serviceLoop sock u (fdSetsize + 1) 0 u.selectRet d

/-! ## The steps of a turn -/

/-- The descriptors that are ready, from `i` on. -/
def Turn.readyFrom (u : Turn) (i : ℕ) : List ℕ :=
  (List.range' i (fdSetsize - i)).filter u.readFdSet

/-- How a descriptor is served. -/
def Turn.stepOn (u : Turn) (sock i : ℕ) : Step :=
  if i = sock then .accept u.acceptRet.toNat else .input i (u.envs i) (u.reads i)

/-- Each descriptor that is ready is served once. -/
def Turn.steps (sock : ℕ) (u : Turn) : List Step := (u.readyFrom 0).map (u.stepOn sock)

/-- The part of the kernel in a turn: `select` returns the number of descriptors it left in the set,
which are active and below `nfds`, and `accept` returns a new descriptor. -/
structure KernelFair (sock : ℕ) (d : Daemon) (u : Turn) : Prop where
  ready : ∀ i, u.readFdSet i = true → d.activeFdSet i = true ∧ i < d.nfds
  count : u.selectRet = (u.readyFrom 0).length
  accepted : u.readFdSet sock = true → 0 ≤ u.acceptRet ∧ u.acceptRet ≠ sock

/-- `select` watches all that are active, and can. -/
structure Daemon.Watched (d : Daemon) : Prop where
  active : ∀ i, d.activeFdSet i = true → i < d.nfds
  nfds : d.nfds ≤ fdSetsize

/-- What the relay has of the daemon. -/
structure Runs (sock : ℕ) (d : Daemon) (q : State × Traffic) : Prop where
  slots : q.1.slots = d.slots
  active : ∀ i, q.1.active i = (d.activeFdSet i && i ≠ sock)
  file : q.2.file = d.file
  watched : d.Watched

/-- A descriptor is active when it is read. -/
def OnActive (q : State × Traffic) : Step → Prop
  | .accept _ => True
  | .input i _ _ => q.1.active i = true

variable {sock : ℕ} {u : Turn} {d : Daemon} {q : State × Traffic}

theorem Turn.readyFrom_of_lt {i : ℕ} (h : i < fdSetsize) : u.readyFrom i =
    if u.readFdSet i then i :: u.readyFrom (i + 1) else u.readyFrom (i + 1) := by
  have hrange : List.range' i (fdSetsize - i) = i :: List.range' (i + 1) (fdSetsize - (i + 1)) := by
    have hsub : fdSetsize - i = fdSetsize - (i + 1) + 1 := by omega
    rw [hsub, List.range'_succ]
  rw [readyFrom, readyFrom, hrange, List.filter_cons]

theorem Turn.mem_readyFrom {i k : ℕ} (h : k ∈ u.readyFrom i) : i ≤ k ∧ u.readFdSet k = true := by
  obtain ⟨hk, hr⟩ := List.mem_filter.1 h
  exact ⟨(List.mem_range'_1.1 hk).1, hr⟩

/-- The descriptors that are still to be served are active. -/
def Turn.ActiveFrom (u : Turn) (i : ℕ) (d : Daemon) : Prop :=
  ∀ k, i ≤ k → u.readFdSet k = true → d.activeFdSet k = true ∧ k < d.nfds

theorem Turn.ActiveFrom.add {i : ℕ} (h : u.ActiveFrom i d) (status : ℕ) :
    u.ActiveFrom (i + 1) (d.add status) := by
  intro k hk hr
  obtain ⟨hact, hlt⟩ := h k (by omega) hr
  refine ⟨?_, ?_⟩
  · change Function.update d.activeFdSet status true k = true
    by_cases hks : k = status
    · rw [hks, Function.update_self]
    · rwa [Function.update_of_ne hks]
  · change k < if d.nfds ≤ status then status + 1 else d.nfds
    split <;> omega

theorem Turn.ActiveFrom.drop {i : ℕ} (h : u.ActiveFrom i d) (hlt : i < d.nfds) (s : Slot)
    (out : List (List Byte)) : u.ActiveFrom (i + 1) (d.drop i s out) := by
  intro k hk hr
  obtain ⟨hact, hk'⟩ := h k (by omega) hr
  have hnfds : (d.drop i s out).nfds = d.nfds := if_neg (Nat.ne_of_lt hlt)
  refine ⟨?_, by rwa [hnfds]⟩
  change Function.update d.activeFdSet i false k = true
  rwa [Function.update_of_ne (by omega)]

theorem file_input (tr : Traffic) (out : List (List Byte)) (i : ℕ) (env : RelayEnv)
    (r : Option (List Byte)) : (tr.step out (.input i env r)).file = tr.file ++ out.flatten := by
  change (tr.log ++ out.map (tr.owner i, ·)).flatMap (·.2) = _
  rw [List.flatMap_append, List.flatMap_map, List.flatten_eq_flatMap]
  rfl

theorem Runs.add (h : Runs sock d q) {status : ℕ} (hne : status ≠ sock)
    (hstatus : status < fdSetsize) : Runs sock (d.add status)
      ({ slots := Function.update q.1.slots status
           { q.1.slots status with relay := some fun _ => 0 }
         active := Function.update q.1.active status true }, q.2.step [] (.accept status)) := by
  obtain ⟨hslots, hactive, hfile, hwatched⟩ := h
  refine ⟨by rw [hslots]; rfl, fun i => ?_, hfile, fun i hi => ?_, ?_⟩
  · change Function.update q.1.active status true i =
      (Function.update d.activeFdSet status true i && i ≠ sock)
    by_cases hi : i = status
    · rw [hi, Function.update_self, Function.update_self]
      simp [hne]
    · rw [Function.update_of_ne hi, Function.update_of_ne hi]
      exact hactive i
  · change Function.update d.activeFdSet status true i = true at hi
    change i < if d.nfds ≤ status then status + 1 else d.nfds
    by_cases hi' : i = status
    · split <;> omega
    · rw [Function.update_of_ne hi'] at hi
      have hlt := hwatched.active i hi
      split <;> omega
  · change (if d.nfds ≤ status then status + 1 else d.nfds) ≤ fdSetsize
    have hle := hwatched.nfds
    split <;> omega

theorem Runs.drop (h : Runs sock d q) {i : ℕ} (hlt : i < d.nfds) (s : Slot)
    (out : List (List Byte)) (env : RelayEnv) (r : Option (List Byte)) : Runs sock (d.drop i s out)
      ({ slots := Function.update d.slots i { s with relay := none }
         active := Function.update q.1.active i false }, q.2.step out (.input i env r)) := by
  obtain ⟨-, hactive, hfile, hwatched⟩ := h
  -- the descriptor is below `nfds`, which therefore stays
  have hnfds : (d.drop i s out).nfds = d.nfds := if_neg (Nat.ne_of_lt hlt)
  refine ⟨rfl, fun k => ?_, ?_, fun k hk => ?_, by rw [hnfds]; exact hwatched.nfds⟩
  · change Function.update q.1.active i false k =
      (Function.update d.activeFdSet i false k && k ≠ sock)
    by_cases hk : k = i
    · rw [hk, Function.update_self, Function.update_self, Bool.false_and]
    · rw [Function.update_of_ne hk, Function.update_of_ne hk]
      exact hactive k
  · rw [file_input, hfile]
    rfl
  · change Function.update d.activeFdSet i false k = true at hk
    rw [hnfds]
    by_cases hk' : k = i
    · rwa [hk']
    · rw [Function.update_of_ne hk'] at hk
      exact hwatched.active k hk

/-- An `accept` is a step of the relay. -/
theorem acceptOn_related (h : Runs sock d q) (hacc : 0 ≤ u.acceptRet ∧ u.acceptRet ≠ sock) :
    Related (fun d' q' => Runs sock d' q' ∧ d' = d.add u.acceptRet.toNat) (acceptOn u d)
      (serveStep q (.accept u.acceptRet.toNat)) := by
  rw [acceptOn, if_neg (not_lt.2 hacc.1), serveStep, serve]
  by_cases hstatus : u.acceptRet.toNat < fdSetsize
  · simp only [inBounds_of hstatus, ok_bind, pure_bind]
    exact ⟨h.add (by omega) hstatus, rfl⟩
  · simp only [inBounds, if_neg hstatus, error_bind]
    rfl

/-- To read from a client is a step of the relay. -/
theorem inputOn_related (h : Runs sock d q) {i : ℕ} (hlt : i < d.nfds) :
    Related (fun d' q' => Runs sock d' q' ∧ ((∃ s out, d' = d.drop i s out) ∨
        d'.activeFdSet = d.activeFdSet ∧ d'.nfds = d.nfds))
      (inputOn u d i) (serveStep q (.input i (u.envs i) (u.reads i))) := by
  rw [inputOn, serveStep, serve, h.slots]
  rcases transferIn (u.envs i) (d.slots i) (u.reads i) with e | ⟨ret, s, out⟩
  · rfl
  simp only [ok_bind]
  by_cases hret : ret ≤ 0
  · rw [if_pos hret, if_pos hret]
    rcases transferOut (u.envs i) s with e | ⟨s', out'⟩
    · rfl
    · exact ⟨h.drop hlt s' (out ++ out') _ _, .inl ⟨s', out ++ out', rfl⟩⟩
  · rw [if_neg hret, if_neg hret]
    refine ⟨⟨rfl, h.active, ?_, h.watched.active, h.watched.nfds⟩, .inr ⟨rfl, rfl⟩⟩
    rw [file_input, h.file]

/-! ## Turns -/

/-- Serving a descriptor that is ready is its step, and those behind it are still active. -/
theorem serve_matched {i : ℕ} (h : Runs sock d q) (hact : u.ActiveFrom i d)
    (hr : u.readFdSet i = true)
    (hacc : u.readFdSet sock = true → 0 ≤ u.acceptRet ∧ u.acceptRet ≠ sock) :
    Matched serveStep (fun d' q' => Runs sock d' q' ∧ u.ActiveFrom (i + 1) d') OnActive
      (serviceFd sock u d i) q [u.stepOn sock i] := by
  obtain ⟨hacti, hlt⟩ := hact i (Nat.le_refl i) hr
  by_cases hi : i = sock
  · rw [serviceFd, if_pos hi, Turn.stepOn, if_pos hi]
    refine .one ((acceptOn_related h (hacc (hi ▸ hr))).mono ?_) trivial
    rintro d' q' ⟨hruns, rfl⟩
    exact ⟨hruns, hact.add _⟩
  · rw [serviceFd, if_neg hi, Turn.stepOn, if_neg hi]
    refine .one ((inputOn_related h hlt).mono ?_) ?_
    · rintro d' q' ⟨hruns, ⟨s, out, rfl⟩ | ⟨hactive, hnfds⟩⟩
      · exact ⟨hruns, hact.drop hlt s out⟩
      · refine ⟨hruns, fun k hk hrk => ?_⟩
        rw [hactive, hnfds]
        exact hact k (by omega) hrk
    · change q.1.active i = true
      rw [h.active, hacti]
      simp [hi]

/-- **The inner loop**: from `i` on the descriptors that are ready are served one after the other,
where `availFd` counts them. -/
theorem serviceLoop_matched {n i : ℕ} {availFd : ℤ} (hn : fdSetsize < n + i)
    (hi : i ≤ fdSetsize) (h : Runs sock d q) (hact : u.ActiveFrom i d)
    (hcount : availFd = (u.readyFrom i).length)
    (hacc : u.readFdSet sock = true → 0 ≤ u.acceptRet ∧ u.acceptRet ≠ sock) :
    Matched serveStep (Runs sock) OnActive (serviceLoop sock u n i availFd d) q
      ((u.readyFrom i).map (u.stepOn sock)) := by
  induction n generalizing i availFd d q with
  | zero => omega
  | succ n ih =>
    rw [serviceLoop]
    by_cases hlt : i < d.nfds
    · have hi : i < fdSetsize := Nat.lt_of_lt_of_le hlt h.watched.nfds
      rw [if_pos hlt]
      by_cases hr : u.readFdSet i = true
      · have hready : u.readyFrom i = i :: u.readyFrom (i + 1) := by
          rw [Turn.readyFrom_of_lt hi, if_pos hr]
        rw [if_pos hr, hready]
        rw [hready, List.length_cons] at hcount
        refine (serve_matched h hact hr hacc).bind fun d' q' _ hd' => ?_
        by_cases hlast : availFd - 1 = 0
        · -- the last of them
          have hnil : u.readyFrom (i + 1) = [] := List.length_eq_zero_iff.1 (by omega)
          rw [if_pos hlast, hnil]
          exact .done hd'.1
        · rw [if_neg hlast]
          exact ih (by omega) hi hd'.1 hd'.2 (by omega)
      · rw [if_neg hr]
        have hready : u.readyFrom i = u.readyFrom (i + 1) := by
          rw [Turn.readyFrom_of_lt hi, if_neg hr]
        rw [hready] at hcount ⊢
        exact ih (by omega) hi h (fun k hk => hact k (by omega)) hcount
    · rw [if_neg hlt]
      have hnil : u.readyFrom i = [] := by
        rw [List.eq_nil_iff_forall_not_mem]
        intro k hk
        obtain ⟨hik, hr⟩ := Turn.mem_readyFrom hk
        exact absurd (hact k hik hr).2 (by omega)
      rw [hnil]
      exact .done h

/-- **A turn of the main loop** serves the descriptors that are ready. -/
theorem mainTurn_matched (h : Runs sock d q) (hk : KernelFair sock d u) :
    Matched serveStep (Runs sock) OnActive (mainTurn sock d u) q (u.steps sock) := by
  have hret : ¬ u.selectRet < 0 := by
    rw [hk.count]
    omega
  rw [mainTurn, if_neg hret]
  exact serviceLoop_matched (by omega) (Nat.zero_le _) h (fun k _ hr => hk.ready k hr) hk.count
    hk.accepted

theorem runs_init (hsock : sock < fdSetsize) :
    Runs sock (Daemon.init sock) (State.init, Traffic.init) := by
  refine ⟨rfl, fun i => ?_, rfl, fun i hi => ?_, hsock⟩
  · change false = (decide (i = sock) && decide (i ≠ sock))
    simp
  · have heq : i = sock := of_decide_eq_true hi
    change i < sock + 1
    omega

/-- The turns of a run do the steps of the relay. -/
theorem mainLoop_matched (hsock : sock < fdSetsize) {us : List Turn}
    (hk : Tried (mainTurn sock) (Daemon.init sock) us (KernelFair sock)) :
    Matched serveStep (Runs sock) OnActive (runSteps (mainTurn sock) (Daemon.init sock) us)
      (State.init, Traffic.init) (us.flatMap (Turn.steps sock)) :=
  hk.matched (runs_init hsock) fun _ _ _ hruns hfair => mainTurn_matched hruns hfair

/-- **The main loop serves the relay.** In a run of turns in which the kernel does its part the
daemon does the steps of the turns one after the other: it fails as they fail, and has the slots,
the clients and the log file that they leave. Each client is active when it is read, and in all
states every descriptor that is active is watched by the next `select`. -/
theorem mainLoop_serves (hsock : sock < fdSetsize) (us : List Turn)
    (hk : Tried (mainTurn sock) (Daemon.init sock) us (KernelFair sock)) :
    Related (Runs sock) (runSteps (mainTurn sock) (Daemon.init sock) us)
        (serveAll .init .init (us.flatMap (Turn.steps sock))) ∧
      Along (fun st tr => OnActive (st, tr)) (us.flatMap (Turn.steps sock)) ∧
      Always (mainTurn sock) (Daemon.init sock) us Daemon.Watched := by
  obtain ⟨hrelated, htried⟩ := mainLoop_matched hsock hk
  refine ⟨?_, along_iff_tried.2 htried, fun pre hpre d hd => ?_⟩
  · rwa [serveAll_eq_runSteps]
  · have hk' : Tried (mainTurn sock) (Daemon.init sock) pre (KernelFair sock) :=
      fun pre' u hpre' => hk pre' u (hpre'.trans hpre)
    obtain ⟨hrelated', -⟩ := mainLoop_matched hsock hk'
    rw [hd] at hrelated'
    rcases hrun : runSteps serveStep (State.init, Traffic.init)
        (pre.flatMap (Turn.steps sock)) with e | q
    · rw [hrun] at hrelated'
      exact hrelated'.elim
    · rw [hrun] at hrelated'
      exact hrelated'.watched

/-- A turn in which the descriptors `fds` are ready, which give `data` when they are read. -/
def turnOn (fds : List ℕ) (acceptRet : ℤ) (data : ℕ → List Byte) : Turn :=
  ⟨fds.length, fun i => i ∈ fds, acceptRet, fun i => some (data i), fun _ => noon⟩

/-- A second client connects while the first sends a record; it sends the same when the first has
disconnected, and disconnects. -/
def twoClientsServed : List Turn :=
  [turnOn [3] 5 fun _ => [], turnOn [3, 5] 6 fun _ => hello.bytes,
    turnOn [5, 6] 0 fun i => if i = 5 then [] else hello.bytes, turnOn [6] 0 fun _ => []]

/-- `KernelFair`, when the descriptors below 10 are those that may be ready. -/
def checkFair (sock : ℕ) (d : Daemon) (u : Turn) : Bool :=
  (List.range 10).all (fun i => !u.readFdSet i || d.activeFdSet i && i < d.nfds) &&
    u.selectRet = (u.readyFrom 0).length &&
    (!u.readFdSet sock || 0 ≤ u.acceptRet && u.acceptRet ≠ sock)

theorem kernelFair_of_check (hu : ∀ i, u.readFdSet i = true → i < 10)
    (h : checkFair sock d u = true) : KernelFair sock d u := by
  simp only [checkFair, Bool.and_eq_true, List.all_eq_true, List.mem_range, Bool.or_eq_true,
    Bool.not_eq_true', decide_eq_true_eq] at h
  obtain ⟨⟨hready, hcount⟩, hacc⟩ := h
  refine ⟨fun i hi => ?_, hcount, fun hs => ?_⟩
  · rcases hready i (hu i hi) with hno | hyes
    · rw [hi] at hno
      cases hno
    · exact hyes
  · rcases hacc with hno | hyes
    · rw [hs] at hno
      cases hno
    · exact hyes

theorem twoClientsServed_fair :
    Tried (mainTurn 3) (Daemon.init 3) twoClientsServed (KernelFair 3) := by
  refine tried_of_check (p := checkFair 3) (fun d u hu h => kernelFair_of_check ?_ h)
    (by decide +kernel)
  intro i hi
  simp only [twoClientsServed, List.mem_cons, List.not_mem_nil, or_false] at hu
  rcases hu with rfl | rfl | rfl | rfl <;>
    simp only [turnOn, List.mem_cons, List.not_mem_nil, or_false, decide_eq_true_eq] at hi <;>
    omega

theorem mainLoop_serves_twoClientsServed :
    Related (Runs 3) (runSteps (mainTurn 3) (Daemon.init 3) twoClientsServed)
        (serveAll .init .init (twoClientsServed.flatMap (Turn.steps 3))) ∧
      Along (fun st tr => OnActive (st, tr)) (twoClientsServed.flatMap (Turn.steps 3)) ∧
      Always (mainTurn 3) (Daemon.init 3) twoClientsServed Daemon.Watched :=
  mainLoop_serves (by decide) twoClientsServed twoClientsServed_fair

end BorderPatrol.Logd
