import BorderPatrol.Trace.Readiness
import BorderPatrol.Trace.Sending
import BorderPatrol.Trace.Sockets

/-!
# Readiness is kept until it is used

`real_select` may report many descriptors in one call of `speak_select`, which tells the application
one of them. The others stay in `vsel_data`, whatever is selected, accepted, received, sent and
closed meanwhile. A bit is cleared in the one answer from the cache that tells it, by a call of its
kind on its descriptor, and when the descriptor is closed, and nowhere else (`after_keeps`). So what
is reported is remembered until then (`reported_kept`).
-/

namespace BorderPatrol.Trace

open Foundations

variable {σ : Type}

/-! ## The calls -/

/-- A wrapped call, with what it meets in the kernel. -/
inductive WrappedCall (σ : Type)
  | select (n : ℤ) (args : FdArgs) (timeout : Option Timeval) (env : SelectEnv σ)
  | poll (ufds : List Pollfd) (timeout : ℤ) (env : SelectEnv σ)
  | accept (s newFd : ℤ) (peer : Peer σ)
  | io (s : ℤ) (c : IoCall)
  | close (s ret : ℤ)

/-- The process after a call. -/
def Process.after (p : Process σ) : WrappedCall σ → Except Fault (Process σ)
  | .select n args timeout env => select p n args timeout env >>= fun q => .ok q.proc
  | .poll ufds timeout env => poll p ufds timeout env >>= fun q => .ok q.sel.proc
  | .accept s newFd peer => accept p s newFd peer >>= fun q => .ok q.1
  | .io s c => c.run p s >>= fun q => .ok q.proc
  | .close s ret => .ok (close p s ret).1

/-- The arguments of a call of `speak_select`. -/
structure SpeakArgs (σ : Type) where
  n : ℤ
  args : FdArgs
  timeout : Option Timeval
  env : SelectEnv σ

/-- The call of `speak_select`. -/
def SpeakArgs.run (c : SpeakArgs σ) (p : Process σ) : Except Fault (Selected σ) :=
  speakSelect p c.n c.args c.timeout c.env

/-- The call of `speak_select` that `select` and `poll` make. -/
def WrappedCall.speaks : WrappedCall σ → Option (SpeakArgs σ)
  | .select n args timeout env => some ⟨n, args, timeout, env⟩
  | .poll ufds timeout env => (pollSets ufds FdSets.zero 0).toOption.map fun (sets, maxfd) =>
      ⟨maxfd + 1, ⟨some sets.read, some sets.write, some sets.except⟩, pollTimeout timeout, env⟩
  | _ => none

/-- The kind of readiness that a call uses up. -/
def IoCall.kind : IoCall → VfdRwe
  | .read _ _ | .recv _ _ _ | .recvfrom _ _ _ => .read
  | .write _ _ | .writev _ _ | .send _ _ _ | .sendto _ _ _ => .write

/-- In the call, `real_select` is asked about the descriptors below `n` and reports that `i` is
ready for `k`. -/
def Reports (p : Process σ) (a : WrappedCall σ) (k : VfdRwe) (i : ℤ) : Prop :=
  ∃ c q r res, a.speaks = some c ∧ c.run p = .ok q ∧ q.asked = some (r, res) ∧ 0 < r ∧
    0 ≤ i ∧ i < c.n ∧ res.get k i = true

/-- In the call, `speak_select` answers from the cache that `i` is ready for `k`, and nothing
else. -/
def TellsCached (p : Process σ) (a : WrappedCall σ) (k : VfdRwe) (i : ℤ) : Prop :=
  ∃ c q, a.speaks = some c ∧ c.run p = .ok q ∧ q.asked = none ∧ q.rfd = i ∧
    ∀ k' i', q.sets.sets.get k' i' = true ↔ k' = k ∧ i' = i

/-- The call uses descriptor `i` for `k`: it accepts or receives from it, or sends to it. Closing it
is a use of every kind. -/
def WrappedCall.Uses : WrappedCall σ → VfdRwe → ℤ → Prop
  | .accept s _ _, k, i => s = i ∧ k = .read
  | .io s c, k, i => s = i ∧ c.kind = k
  | .close s _, _, i => s = i
  | _, _, _ => False

/-- The call takes the readiness of `i` for `k`. -/
def Takes (p : Process σ) (a : WrappedCall σ) (k : VfdRwe) (i : ℤ) : Prop :=
  TellsCached p a k i ∨ a.Uses k i

variable {p p' : Process σ} {a : WrappedCall σ} {k : VfdRwe} {i : ℤ}

/-! ## What clears a bit -/

/-- A bit that is put for one kind and descriptor leaves the others. -/
theorem putVsel_keeps {k' : VfdRwe} {s : ℤ} {b : Bool} (hbit : p.vselData.get k i = true)
    (hne : ¬ (s = i ∧ k' = k)) : (p.putVsel k' s b).vselData.get k i = true := by
  rw [Process.putVsel_get, if_neg, hbit]
  rintro ⟨rfl, rfl⟩
  exact hne ⟨rfl, rfl⟩

/-- `speak_select` clears a bit only when it tells it. -/
theorem speakSelect_keeps {c : SpeakArgs σ} {q : Selected σ} (hq : c.run p = .ok q)
    (hbit : p.vselData.get k i = true)
    (hnot : ¬ (q.asked = none ∧ q.rfd = i ∧
      ∀ k' i', q.sets.sets.get k' i' = true ↔ k' = k ∧ i' = i)) :
    q.proc.vselData.get k i = true := by
  rcases speakSelect_cases hq with ⟨fd, k₀, hfirst, -, hsets, -, hrfd, hasked, hvsel, -⟩ |
    ⟨-, -, hrest⟩
  · rw [hvsel, FdSets.get_put, if_neg, hbit]
    rintro ⟨rfl, rfl⟩
    have hhit := hfirst.2.1
    rw [Process.cachedHit, Bool.and_eq_true] at hhit
    refine hnot ⟨hasked, hrfd, fun k' i' => ?_⟩
    rw [hsets, give_only_get]
    constructor
    · exact fun h => h.2
    · rintro ⟨rfl, rfl⟩
      exact ⟨isSome_of_sets_get hhit.1, rfl, rfl⟩
  · rcases hrest with ⟨-, -, hproc⟩ | ⟨-, -, hvsel, -⟩
    · rw [hproc, hbit]
    · rw [hvsel, FdSets.get_absorb, hbit, Bool.true_or]

theorem wrapReceive_keepsBit {virtualFn : Vfd σ → Except Fault (Got σ)} {begin' : LogCall}
    {end' : ℤ → LogCall} {s : ℤ} {len : ℕ} {flags : ℤ} {kernel : Kernel} {q : Reply σ}
    (h : wrapReceive virtualFn begin' end' p s len flags kernel = .ok q)
    (hbit : p.vselData.get k i = true) (hne : ¬ (s = i ∧ VfdRwe.read = k)) :
    q.proc.vselData.get k i = true := by
  unfold wrapReceive at h
  split at h
  · cases h
    exact hbit
  · split at h
    · obtain ⟨g, -, h⟩ := bind_eq_ok h
      obtain ⟨u, -, h⟩ := bind_eq_ok h
      cases h
      rcases g.readable with _ | _ | _
      · exact hbit
      · exact putVsel_keeps hbit fun h => hne ⟨h.1, h.2⟩
      · exact putVsel_keeps hbit fun h => hne ⟨h.1, h.2⟩
    · cases h
      exact putVsel_keeps hbit hne

theorem wrapSend_keepsBit {begin' : LogCall} {end' : ℤ → LogCall} {s r : ℤ} {buf : List Byte}
    {q : Reply σ} (h : wrapSend begin' end' p s buf r = .ok q) (hbit : p.vselData.get k i = true)
    (hne : ¬ (s = i ∧ VfdRwe.write = k)) : q.proc.vselData.get k i = true := by
  unfold wrapSend at h
  split at h
  · cases h
    exact hbit
  · obtain ⟨a, -, h⟩ := bind_eq_ok h
    cases h
    exact putVsel_keeps hbit hne

theorem writev_keepsBit {s r : ℤ} {vec : List (List Byte)} {q : Reply σ}
    (h : writev p s vec r = .ok q) (hbit : p.vselData.get k i = true)
    (hne : ¬ (s = i ∧ VfdRwe.write = k)) : q.proc.vselData.get k i = true := by
  unfold writev at h
  split at h
  · cases h
    exact hbit
  · obtain ⟨a, -, h⟩ := bind_eq_ok h
    cases h
    exact putVsel_keeps hbit hne

/-- A call that receives or sends clears no bit but that of its kind on its descriptor. -/
theorem io_keepsBit {s : ℤ} {c : IoCall} {q : Reply σ} (h : c.run p s = .ok q)
    (hbit : p.vselData.get k i = true) (hne : ¬ (s = i ∧ c.kind = k)) :
    q.proc.vselData.get k i = true := by
  cases c with
  | read len kernel =>
    rw [IoCall.run, Trace.read] at h
    exact wrapReceive_keepsBit h hbit hne
  | recv len flags kernel =>
    rw [IoCall.run, Trace.recv] at h
    exact wrapReceive_keepsBit h hbit hne
  | recvfrom len flags kernel =>
    rw [IoCall.run, Trace.recvfrom] at h
    exact wrapReceive_keepsBit h hbit hne
  | write buf r =>
    rw [IoCall.run, Trace.write] at h
    exact wrapSend_keepsBit h hbit hne
  | writev vec r => exact writev_keepsBit h hbit hne
  | send buf flags r =>
    rw [IoCall.run, Trace.send] at h
    exact wrapSend_keepsBit h hbit hne
  | sendto buf flags r =>
    rw [IoCall.run, Trace.sendto] at h
    exact wrapSend_keepsBit h hbit hne

theorem accept_keepsBit {s newFd : ℤ} {peer : Peer σ} {q : Process σ × ℤ × List LogCall}
    (h : accept p s newFd peer = .ok q) (hbit : p.vselData.get k i = true)
    (hne : ¬ (s = i ∧ k = .read)) : q.1.vselData.get k i = true := by
  have hclear : (p.clearReadableCache s).vselData.get k i = true :=
    putVsel_keeps hbit fun h => hne ⟨h.1, h.2.symm⟩
  unfold accept at h
  split at h
  · cases h
    exact hbit
  · simp only at h
    split at h
    · obtain ⟨u, -, h⟩ := bind_eq_ok h
      cases h
      exact hclear
    · cases h
      exact hclear

theorem close_keepsBit {s ret : ℤ} (hbit : p.vselData.get k i = true) (hne : s ≠ i) :
    (close p s ret).1.vselData.get k i = true := by
  unfold close
  split
  · exact hbit
  · split
    · exact hbit
    · exact putVsel_keeps (putVsel_keeps (putVsel_keeps hbit fun h => hne h.1) fun h => hne h.1)
        fun h => hne h.1

/-- A `select` or `poll` that goes through has called `speak_select`, and leaves the process as that
left it. -/
theorem after_select {n : ℤ} {args : FdArgs} {timeout : Option Timeval} {env : SelectEnv σ}
    (h : p.after (.select n args timeout env) = .ok p') :
    ∃ q, speakSelect p n args timeout env = .ok q ∧ q.proc = p' := by
  obtain ⟨q', hq', hp'⟩ := bind_eq_ok h
  obtain ⟨q, hq, hret⟩ := bind_eq_ok hq'
  cases hret
  cases hp'
  exact ⟨q, hq, rfl⟩

theorem after_poll {ufds : List Pollfd} {timeout : ℤ} {env : SelectEnv σ}
    (h : p.after (.poll ufds timeout env) = .ok p') :
    ∃ c q, (WrappedCall.poll ufds timeout env).speaks = some c ∧ c.run p = .ok q ∧
      q.proc = p' := by
  obtain ⟨r, hr, hp'⟩ := bind_eq_ok h
  obtain ⟨q, hq, hproc⟩ := poll_ok hr
  cases hp'
  obtain ⟨⟨sets, maxfd⟩, hsets, hrun⟩ := bind_eq_ok hq
  have hspeaks : (WrappedCall.poll ufds timeout env).speaks =
      some ⟨maxfd + 1, ⟨some sets.read, some sets.write, some sets.except⟩, pollTimeout timeout,
        env⟩ := by
    rw [WrappedCall.speaks, hsets]
    rfl
  exact ⟨_, q, hspeaks, hrun, hproc⟩

/-- **A bit is kept** by every call that does not take it. -/
theorem after_keeps (h : p.after a = .ok p') (hbit : p.vselData.get k i = true)
    (hnot : ¬ Takes p a k i) : p'.vselData.get k i = true := by
  cases a with
  | select n args timeout env =>
    obtain ⟨q, hq, rfl⟩ := after_select h
    exact speakSelect_keeps (c := ⟨n, args, timeout, env⟩) hq hbit fun htold =>
      hnot (.inl ⟨_, q, rfl, hq, htold⟩)
  | poll ufds timeout env =>
    obtain ⟨c, q, hc, hq, rfl⟩ := after_poll h
    exact speakSelect_keeps hq hbit fun htold => hnot (.inl ⟨c, q, hc, hq, htold⟩)
  | accept s newFd peer =>
    obtain ⟨q, hq, hp'⟩ := bind_eq_ok h
    cases hp'
    exact accept_keepsBit hq hbit fun huse => hnot (.inr huse)
  | io s c =>
    obtain ⟨q, hq, hp'⟩ := bind_eq_ok h
    cases hp'
    exact io_keepsBit hq hbit fun huse => hnot (.inr huse)
  | close s ret =>
    cases h
    exact close_keepsBit hbit fun huse => hnot (.inr huse)

/-! ## What is reported -/

/-- A descriptor that is reported is in the cache after the call. -/
theorem reports_sets {c : SpeakArgs σ} {q : Selected σ} {r : ℤ} {res : FdSets}
    (hq : c.run p = .ok q) (hasked : q.asked = some (r, res)) (hr : 0 < r) (h₀ : 0 ≤ i)
    (hn : i < c.n) (hres : res.get k i = true) : q.proc.vselData.get k i = true := by
  rcases speakSelect_cases hq with ⟨fd, k₀, -, -, -, -, -, hnone, -⟩ | ⟨-, hsome, hrest⟩
  · rw [hnone] at hasked
    cases hasked
  · have henv : c.env.realSelect c.n c.args.sets c.timeout = (r, res) :=
      Option.some_inj.1 (hsome.symm.trans hasked)
    rw [henv] at hrest
    rcases hrest with ⟨hle, -⟩ | ⟨-, -, hvsel, -⟩
    · exact absurd hr (not_lt.2 hle)
    · rw [hvsel, FdSets.get_absorb, hres, decide_eq_true ⟨h₀, hn⟩, Bool.and_self, Bool.or_true]

theorem after_reports (h : p.after a = .ok p') (hrep : Reports p a k i) :
    p'.vselData.get k i = true := by
  obtain ⟨c, q, r, res, hc, hq, hasked, hr, h₀, hn, hres⟩ := hrep
  have hset := reports_sets hq hasked hr h₀ hn hres
  cases a with
  | select n args timeout env =>
    cases hc
    obtain ⟨q', hq', rfl⟩ := after_select h
    cases hq.symm.trans hq'
    exact hset
  | poll ufds timeout env =>
    obtain ⟨c', q', hc', hq', rfl⟩ := after_poll h
    cases hc.symm.trans hc'
    cases hq.symm.trans hq'
    exact hset
  | _ => cases hc

/-- **Reported readiness is kept.** What `real_select` reports in a call is in the cache after it,
and stays there through any calls that do not take it. -/
theorem reported_kept {as : List (WrappedCall σ)} (ha : p.after a = .ok p')
    (hrep : Reports p a k i) (has : Along Process.after p' as fun p a => ¬ Takes p a k i) :
    Always Process.after p' as fun p => p.vselData.get k i = true :=
  has.always (after_reports ha hrep) fun _ _ _ hbit hnot hstep => after_keeps hstep hbit hnot

/-- A process before its first call. -/
def untouched : Process PpPsqlState := ⟨fun _ => Vfd.zero ppPsqlCommonInit, FdSets.zero⟩

/-- The descriptors 3 and 5. -/
def threeAndFive : FdSets := (FdSets.only .read 3).put .read 5 true

/-- A `select` that finds both of them readable, and is told 3. -/
def selectBoth : WrappedCall PpPsqlState :=
  .select 6 ⟨some threeAndFive.read, none, none⟩ none
    ⟨fun _ _ _ => (2, threeAndFive), fun _ => ⟨[], none, []⟩⟩

theorem reported_kept_five : ∃ p', untouched.after selectBoth = .ok p' ∧
    Reports untouched selectBoth .read 5 ∧
    Always Process.after p' [.io 3 (.read 9 (Kernel.give [1])), .close 3 0]
      fun p => p.vselData.get .read 5 = true := by
  have hstep : untouched.after selectBoth = .ok _ := rfl
  have hrep : Reports untouched selectBoth .read 5 :=
    ⟨_, _, 2, threeAndFive, rfl, rfl, rfl, by decide, by decide, by decide, by decide⟩
  refine ⟨_, hstep, hrep, reported_kept hstep hrep ?_⟩
  refine along_cons.2 fun p _ => ⟨?_, along_cons.2 fun p' _ => ⟨?_, along_nil⟩⟩
  · rintro (⟨c, q, hc, -⟩ | ⟨h, -⟩)
    · cases hc
    · exact absurd h (by decide)
  · rintro (⟨c, q, hc, -⟩ | h)
    · cases hc
    · exact absurd (show (3 : ℤ) = 5 from h) (by decide)

end BorderPatrol.Trace
