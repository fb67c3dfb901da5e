import BorderPatrol.Logd.Draining
import BorderPatrol.Logd.Writers
import Mathlib.Data.Finset.Basic

/-!
# Threads and the end of their process

Any number of threads of one process, each a writer with a buffer of its own. A thread that
`pthread_create` makes logs `SYS_PTH_CREATE_CHILD` first and flushes its buffer when its start
routine returns; what `pthread_create` logs in the thread that calls it are log calls of that
thread. `exit` flushes the buffer of the thread that calls it, and then so does `vfd_shutdown`. All
that was logged is then written exactly when the buffers of the other threads are empty
(`exit_writes_all_iff`).
-/

namespace BorderPatrol.Logd

open Foundations

/-- `LOGBIN0` -/
def logbin0 (sc rv : Int32) : LogbinCall := ⟨sc, rv, 0, 0, 0, 0, none⟩

namespace Writers

/-- `start_routine_wrapper`, up to the start routine, in a new thread of the process. -/
def startRoutine (sysPthCreateChild : Int32) (W : Writers) (pid : Int32) (tid : UInt64)
    (lb : Mem Byte) (env : LogEnv) : Except Fault Writers :=
  (W.alloc pid tid lb).logBy W.count env (logbin0 sysPthCreateChild 0)

/-- `start_routine_wrapper` after the start routine, and the end of the thread. `free_ctx` does
nothing, the context is freed by its destructor. -/
def endRoutine (W : Writers) (t : ℕ) (w : Writes) : Except Fault Writers := do
  let W ← W.flushBy t w
  return W.free t

/-- `vfd_shutdown`, which the thread `x` runs in `real_exit`. -/
def vfdShutdown (sysShutdown : Int32) (W : Writers) (x : ℕ) (env : LogEnv) :
    Except Fault Writers := do
  let W ← W.logBy x env (logbin0 sysShutdown 0)
  W.flushBy x env.writes

/-- `exit` in the thread `x`: what is there when the process ends. -/
def exit (sysShutdown : Int32) (W : Writers) (x : ℕ) (w : Writes) (env : LogEnv) :
    Except Fault Writers := do
  let W ← W.flushBy x w
  W.vfdShutdown sysShutdown x env

end Writers

/-- What a thread does, or a new thread. -/
inductive ThreadStep
  | log (t : ℕ) (env : LogEnv) (c : LogbinCall)
  | flush (t : ℕ) (w : Writes)
  | start (pid : Int32) (tid : UInt64) (lb : Mem Byte) (env : LogEnv)
  | finish (t : ℕ) (w : Writes)

/-- A step of a thread. The number of `SYS_PTH_CREATE_CHILD` is given by the build. -/
def threadStep (sysPthCreateChild : Int32) (W : Writers) : ThreadStep → Except Fault Writers
  | .log t env c => W.logBy t env c
  | .flush t w => W.flushBy t w
  | .start pid tid lb env => W.startRoutine sysPthCreateChild pid tid lb env
  | .finish t w => W.endRoutine t w

namespace ThreadStep

/-- The steps that threads can make when `live` are those that run: each write writes something, and
a record fits in the buffer. The first thread has no start routine to return from. -/
def Fit (live : Finset ℕ) : ThreadStep → Prop
  | .log t env c => t ∈ live ∧ env.writes.Moves ∧ c.Sized
  | .flush t w => t ∈ live ∧ w.Moves
  | .start _ _ _ env => env.writes.Moves
  | .finish t w => t ∈ live ∧ t ≠ 0 ∧ w.Moves

/-- The number of threads there have been and the threads that run, after a step. -/
def next : ℕ × Finset ℕ → ThreadStep → ℕ × Finset ℕ
  | (n, live), .start _ _ _ _ => (n + 1, insert n live)
  | (n, live), .finish t _ => (n, live.erase t)
  | q, _ => q

end ThreadStep

/-- Steps of threads that run, where `q` says which do at first. -/
def ThreadRun : ℕ × Finset ℕ → List ThreadStep → Prop
  | _, [] => True
  | q, a :: as => a.Fit q.2 ∧ ThreadRun (a.next q) as

/-! ## One step -/

/-- The threads that run are those with a buffer. -/
structure ThreadInv (W : Writers) (rs : List (ℕ × Record)) (q : ℕ × Finset ℕ) : Prop where
  accounted : Accounted W rs
  count : W.count = q.1
  live : ∀ {t}, t ∈ q.2 ↔ ∃ ctx, W.ctx t = some ctx

variable (sysPthCreateChild sysShutdown : Int32) {W : Writers} {rs : List (ℕ × Record)}
  {q : ℕ × Finset ℕ} {t : ℕ} {env : LogEnv} {w : Writes}

/-- A thread that goes on keeps its buffer. -/
theorem ThreadInv.put {rs' : List (ℕ × Record)} {ctx' : ThreadCtx} {ws : List (List Byte)}
    {es : List Entered} (h : ThreadInv W rs q) (ht : t ∈ q.2)
    (hacc : Accounted (W.put t ctx' ws es) rs') : ThreadInv (W.put t ctx' ws es) rs' q where
  accounted := hacc
  count := h.count
  live := by
    intro s
    by_cases hst : s = t
    · subst hst
      exact ⟨fun _ => ⟨ctx', Function.update_self ..⟩, fun _ => ht⟩
    · rw [h.live, Writers.put_ctx, Function.update_of_ne hst]

theorem ThreadInv.log (h : ThreadInv W rs q) (ht : t ∈ q.2) (hw : env.writes.Moves)
    {c : LogbinCall} (hc : c.Sized) :
    ∃ W' r, W.logBy t env c = .ok W' ∧ ThreadInv W' (rs ++ [(t, r)]) q ∧
      ∀ s, s ≠ t → W'.ctx s = W.ctx s := by
  obtain ⟨ctx, hctx⟩ := h.live.1 ht
  obtain ⟨ctx', r, hlog, hacc⟩ := h.accounted.log hctx hw hc
  exact ⟨_, r, hlog, h.put ht hacc, fun s hs => Function.update_of_ne hs ..⟩

/-- After a flush the buffer is empty. -/
theorem ThreadInv.flush (h : ThreadInv W rs q) (ht : t ∈ q.2) (hw : w.Moves) :
    ∃ W' ctx', W.flushBy t w = .ok W' ∧ ThreadInv W' rs q ∧ W'.ctx t = some ctx' ∧
      ctx'.lbptr = 0 ∧ ∀ s, s ≠ t → W'.ctx s = W.ctx s := by
  obtain ⟨ctx, hctx⟩ := h.live.1 ht
  obtain ⟨hflush, hacc⟩ := h.accounted.flush hctx hw
  exact ⟨_, _, hflush, h.put ht hacc, Function.update_self .., rfl,
    fun s hs => Function.update_of_ne hs ..⟩

theorem logbin0_sized (sc rv : Int32) : (logbin0 sc rv).Sized := by
  constructor
  · change 0 ≤ (0 : Int32).toInt ∧ (0 : Int32).toInt ≤ 3
    decide
  · change (frozenLen : ℤ) + 4 * (0 : Int32).toInt + ((cstr []).length : ℤ) ≤ (pipeBuf : ℤ)
    decide

/-- One more thread. -/
theorem ThreadInv.alloc (h : ThreadInv W rs q) (pid : Int32) (tid : UInt64) (lb : Mem Byte) :
    ThreadInv (W.alloc pid tid lb) rs (q.1 + 1, insert q.1 q.2) := by
  refine ⟨h.accounted.alloc pid tid lb, congrArg (· + 1) h.count, fun {s} => ?_⟩
  rw [Writers.alloc_ctx, h.count, Finset.mem_insert, h.live]
  by_cases hs : s = q.1
  · rw [hs, Function.update_self]
    exact ⟨fun _ => ⟨_, rfl⟩, fun _ => Or.inl rfl⟩
  · rw [Function.update_of_ne hs, or_iff_right hs]

theorem ThreadInv.start (h : ThreadInv W rs q) (pid : Int32) (tid : UInt64) (lb : Mem Byte)
    (hw : env.writes.Moves) :
    ∃ W' r, W.startRoutine sysPthCreateChild pid tid lb env = .ok W' ∧
      ThreadInv W' (rs ++ [(q.1, r)]) (q.1 + 1, insert q.1 q.2) := by
  obtain ⟨W', r, hlog, hinv', -⟩ := (h.alloc pid tid lb).log (Finset.mem_insert_self ..) hw
    (logbin0_sized sysPthCreateChild 0)
  rw [← h.count] at hlog
  exact ⟨W', r, hlog, hinv'⟩

/-- What a thread logs first is not written at once. -/
theorem startRoutine_waits {pid : Int32} {tid : UInt64} {lb : Mem Byte} {W' : Writers}
    (hw : env.writes.Moves)
    (hstart : W.startRoutine sysPthCreateChild pid tid lb env = .ok W') :
    ∃ ctx, W'.ctx W.count = some ctx ∧ ctx.lbptr ≠ 0 := by
  have hin : (allocCtx pid tid lb).InBuffer := ⟨Int.le_refl 0, Int.natCast_nonneg pipeBuf⟩
  obtain ⟨ctx', out, r, hgen, -, hsum, hin', -⟩ :=
    logbinGen_spec hw (logbin0_sized sysPthCreateChild 0) hin
  have hout : out = [] := by
    rcases logbinGen_out hw hin hgen with ⟨-, rfl⟩ | ⟨-, rfl⟩
    · rfl
    · rfl
  have hget : (W.alloc pid tid lb).getCtx W.count = .ok (allocCtx pid tid lb) := by
    rw [Writers.getCtx, Writers.alloc_ctx, Function.update_self]
  rw [Writers.startRoutine, Writers.logBy, hget] at hstart
  simp only [ok_bind, hgen] at hstart
  cases hstart
  refine ⟨ctx', Function.update_self .., fun hptr => ?_⟩
  have hlen := ThreadCtx.length_held hin'
  rw [hptr, Int.natCast_eq_zero, List.length_eq_zero_iff] at hlen
  rw [hout, hlen] at hsum
  exact record_selfDelimiting.ne_nil r (List.append_eq_nil_iff.1 hsum.symm).2

theorem ThreadInv.finish (h : ThreadInv W rs q) (ht : t ∈ q.2) (hw : w.Moves) :
    ∃ W', W.endRoutine t w = .ok W' ∧ ThreadInv W' rs (q.1, q.2.erase t) := by
  obtain ⟨W₁, ctx', hflush, hinv, hctx, hptr, -⟩ := h.flush ht hw
  refine ⟨W₁.free t, ?_, hinv.accounted.free hctx hptr, hinv.count, fun {s} => ?_⟩
  · rw [Writers.endRoutine, hflush]
    rfl
  · rw [Finset.mem_erase, hinv.live, Writers.free_ctx]
    by_cases hs : s = t
    · rw [hs, Function.update_self]
      simp
    · rw [Function.update_of_ne hs, and_iff_right hs]

theorem threadStep_spec (h : ThreadInv W rs q) {a : ThreadStep} (ha : a.Fit q.2) :
    ∃ W' rs', threadStep sysPthCreateChild W a = .ok W' ∧ ThreadInv W' (rs ++ rs') (a.next q) := by
  rcases a with ⟨t, env, c⟩ | ⟨t, w⟩ | ⟨pid, tid, lb, env⟩ | ⟨t, w⟩
  · obtain ⟨W', r, hlog, hinv, -⟩ := h.log ha.1 ha.2.1 ha.2.2
    exact ⟨W', [(t, r)], hlog, hinv⟩
  · obtain ⟨W', -, hflush, hinv, -⟩ := h.flush ha.1 ha.2
    exact ⟨W', [], hflush, by rwa [List.append_nil]⟩
  · obtain ⟨W', r, hstart, hinv⟩ := h.start sysPthCreateChild pid tid lb ha
    exact ⟨W', [(q.1, r)], hstart, hinv⟩
  · obtain ⟨W', hfinish, hinv⟩ := h.finish ha.1 ha.2.2
    exact ⟨W', [], hfinish, by rwa [List.append_nil]⟩

/-! ## All steps, and the end -/

theorem threadRun_spec {as : List ThreadStep} (h : ThreadInv W rs q) (has : ThreadRun q as) :
    ∃ W' rs', runSteps (threadStep sysPthCreateChild) W as = .ok W' ∧
      ThreadInv W' rs' (as.foldl ThreadStep.next q) := by
  induction as generalizing W rs q with
  | nil => exact ⟨W, rs, rfl, h⟩
  | cons a as ih =>
    obtain ⟨ha, has⟩ := has
    obtain ⟨W₁, rs₁, hstep, hinv⟩ := threadStep_spec sysPthCreateChild h ha
    obtain ⟨W', rs', hrun, hinv'⟩ := ih hinv has
    refine ⟨W', rs', ?_, hinv'⟩
    rw [runSteps, hstep, ok_bind, hrun]

/-- The bytes written for each thread are those of all that it logged, each record once. -/
def AllWritten (W : Writers) : Prop :=
  ∃ rs : List (ℕ × Record), List.Forall₂ (fun e r => e.1 = r.1 ∧ e.2.Logs r.2) W.entered rs ∧
    ∀ t, (proj t W.log).flatten = (proj t rs).flatMap Record.bytes

/-- The length of the record of a call. -/
theorem Entered.Logs.length_eq {e : Entered} {r r' : Record} (h : e.Logs r) (h' : e.Logs r') :
    r.bytes.length = r'.bytes.length := by
  rw [Record.length_bytes, Record.length_bytes, Record.restLen_eq, Record.restLen_eq, h.args,
    h.str, h'.args, h'.str]

/-- The records of the same calls have the same lengths. -/
theorem length_records_eq {es : List (ℕ × Entered)} {rs rs' : List (ℕ × Record)}
    (h : List.Forall₂ (fun e r => e.1 = r.1 ∧ e.2.Logs r.2) es rs)
    (h' : List.Forall₂ (fun e r => e.1 = r.1 ∧ e.2.Logs r.2) es rs') (t : ℕ) :
    ((proj t rs).flatMap Record.bytes).length = ((proj t rs').flatMap Record.bytes).length := by
  induction h generalizing rs' with
  | nil =>
    cases h'
    rfl
  | cons hr _ ih =>
    cases h' with
    | cons hr' hrs' =>
      rw [proj_cons, proj_cons, ← hr.1, ← hr'.1]
      have hrest := ih hrs'
      have hlen := hr.2.length_eq hr'.2
      split
      · rw [List.flatMap_cons, List.flatMap_cons, List.length_append, List.length_append, hlen,
          hrest]
      · exact hrest

/-- All is written when, and only when, all buffers are empty. -/
theorem Accounted.allWritten_iff (h : Accounted W rs) :
    AllWritten W ↔ ∀ t ctx, W.ctx t = some ctx → ctx.lbptr = 0 := by
  constructor
  · rintro ⟨rs', hent, hall⟩ t ctx hctx
    obtain ⟨out, pend, hrs, hws, hheld⟩ := (h.live hctx).records
    have hlen := length_records_eq h.entered hent t
    have hbuf := ThreadCtx.length_held (h.live hctx).inBuffer
    rw [← hall t, hws, hrs, List.flatMap_append, List.length_append, ← hheld] at hlen
    omega
  · intro hempty
    refine ⟨rs, h.entered, fun t => ?_⟩
    rcases hctx : W.ctx t with _ | ctx
    · exact h.gone hctx
    · exact (h.live hctx).flatten_eq_iff.2 (hempty t ctx hctx)

/-- **The end of a process.** The buffers of the other threads are as they were, and that of the
thread that calls `exit` is empty. -/
theorem ThreadInv.exit (h : ThreadInv W rs q) {x : ℕ} (hx : x ∈ q.2) (hw : w.Moves)
    (henv : env.writes.Moves) :
    ∃ W', W.exit sysShutdown x w env = .ok W' ∧
      (AllWritten W' ↔ ∀ t ctx, t ≠ x → W.ctx t = some ctx → ctx.lbptr = 0) := by
  obtain ⟨W₁, -, hflush, hinv₁, -, -, hother₁⟩ := h.flush hx hw
  obtain ⟨W₂, r, hlog, hinv₂, hother₂⟩ := hinv₁.log hx henv (logbin0_sized sysShutdown 0)
  obtain ⟨W', ctx', hflush', hinv', hctx', hptr, hother'⟩ := hinv₂.flush hx henv
  refine ⟨W', ?_, ?_⟩
  · rw [Writers.exit, hflush, ok_bind, Writers.vfdShutdown, hlog, ok_bind, hflush']
  · have hother : ∀ t, t ≠ x → W'.ctx t = W.ctx t := fun t ht => by
      rw [hother' t ht, hother₂ t ht, hother₁ t ht]
    rw [hinv'.accounted.allWritten_iff]
    constructor
    · intro hempty t ctx ht hctx
      exact hempty t ctx (by rw [hother t ht, hctx])
    · intro hempty t ctx hctx
      by_cases ht : t = x
      · rw [ht, hctx', Option.some.injEq] at hctx
        rw [← hctx, hptr]
      · exact hempty t ctx ht (by rw [← hother t ht, hctx])

theorem threadInv_init (pid : Int32) (tid : UInt64) (lb : Mem Byte) :
    ThreadInv (Writers.empty.alloc pid tid lb) [] (1, {0}) := by
  refine ⟨accounted_empty.alloc pid tid lb, rfl, fun {t} => ?_⟩
  rw [Finset.mem_singleton, Writers.alloc_ctx, show Writers.empty.count = 0 from rfl]
  by_cases ht : t = 0
  · subst ht
    exact ⟨fun _ => ⟨_, Function.update_self ..⟩, fun _ => rfl⟩
  · rw [Function.update_of_ne ht]
    simp [ht, Writers.empty]

/-- **What is written when a process ends.** After any steps of its threads, `exit` in a thread `x`
writes all that was logged if and only if the buffer of every other thread that runs is empty. -/
theorem exit_writes_all_iff (sysPthCreateChild sysShutdown pid : Int32) (tid : UInt64)
    (lb : Mem Byte) (as : List ThreadStep) (has : ThreadRun (1, {0}) as) (x : ℕ)
    (hx : x ∈ (as.foldl ThreadStep.next (1, {0})).2) (w : Writes) (hw : w.Moves) (env : LogEnv)
    (henv : env.writes.Moves) :
    ∃ W W', runSteps (threadStep sysPthCreateChild) (Writers.empty.alloc pid tid lb) as = .ok W ∧
      W.exit sysShutdown x w env = .ok W' ∧
      (AllWritten W' ↔ ∀ t ctx, t ≠ x → W.ctx t = some ctx → ctx.lbptr = 0) := by
  obtain ⟨W, rs, hrun, hinv⟩ :=
    threadRun_spec sysPthCreateChild (threadInv_init pid tid lb) has
  obtain ⟨W', hexit, hiff⟩ := hinv.exit sysShutdown hx hw henv
  exact ⟨W, W', hrun, hexit, hiff⟩

/-- Writes of any size are whole. -/
def wholeEnv (now : Timeval) : LogEnv := ⟨fun _ amt => amt, now, ascii "sh"⟩

theorem wholeEnv_moves (now : Timeval) : (wholeEnv now).writes.Moves :=
  fun _ amt h _ => ⟨h, Int.le_refl amt⟩

/-- A thread is started, and then `exit` is called in the first one. -/
def startedThread : List ThreadStep := [.start 300 18 (fun _ => 0) (wholeEnv ⟨100, 7⟩)]

theorem exit_writes_all_iff_startedThread :
    ∃ W W', runSteps (threadStep 53) (Writers.empty.alloc 300 17 fun _ => 0) startedThread = .ok W ∧
      W.exit 71 0 (fun _ amt => amt) (wholeEnv ⟨100, 9⟩) = .ok W' ∧
      (AllWritten W' ↔ ∀ t ctx, t ≠ 0 → W.ctx t = some ctx → ctx.lbptr = 0) :=
  exit_writes_all_iff 53 71 300 17 (fun _ => 0) startedThread ⟨wholeEnv_moves _, trivial⟩ 0
    (by decide) _ (wholeEnv_moves ⟨100, 9⟩) _ (wholeEnv_moves _)

/-- The record of the thread is still in its buffer when the process ends. -/
theorem startedThread_lost :
    ∃ W W', runSteps (threadStep 53) (Writers.empty.alloc 300 17 fun _ => 0) startedThread = .ok W ∧
      W.exit 71 0 (fun _ amt => amt) (wholeEnv ⟨100, 9⟩) = .ok W' ∧ ¬ AllWritten W' := by
  have hinit := threadInv_init 300 17 fun _ => 0
  obtain ⟨W, r, hstart, hinv⟩ := hinit.start 53 300 18 (fun _ => 0) (wholeEnv_moves ⟨100, 7⟩)
  obtain ⟨W', hexit, hiff⟩ := hinv.exit 71 (x := 0) (by decide) (wholeEnv_moves ⟨100, 9⟩)
    (wholeEnv_moves ⟨100, 9⟩)
  obtain ⟨ctx, hctx, hptr⟩ := startRoutine_waits 53 (wholeEnv_moves _) hstart
  refine ⟨W, W', ?_, hexit, fun hall => hptr (hiff.1 hall 1 ctx (by decide) hctx)⟩
  rw [startedThread, runSteps, threadStep, hstart]
  rfl

end BorderPatrol.Logd
