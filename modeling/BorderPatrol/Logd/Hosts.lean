import BorderPatrol.Logd.Forks
import BorderPatrol.Logd.Threads

/-!
# The processes of a host

A tree of processes with any number of threads, all of them writers of one log: any thread logs and
flushes, starts another thread, ends or forks, in any order. A forked process has the thread that
forked; what the others of its parent have in their buffers is not its own. When writes of at most
`PIPE_BUF` bytes are whole, the log has whole records one after the other, and those of a thread
that has written all that it logged are the records of its calls (`Ran.records`).
-/

namespace BorderPatrol.Logd

open Foundations

/-- What a thread of a host does. -/
inductive HostStep
  | fork (k : ℕ) (w : Writes) (child : Option Child)
  | thread (a : ThreadStep)

/-- A step of a host. The numbers of `SYS_FORK` and `SYS_PTH_CREATE_CHILD` are given by the build.
-/
def hostStep (sysFork sysPthCreateChild : Int32) (W : Writers) : HostStep → Except Fault Writers
  | .fork k w child => W.fork sysFork k w child
  | .thread a => threadStep sysPthCreateChild W a

/-- The writes of a thread are whole when they have at most `PIPE_BUF` bytes. -/
def ThreadStep.Whole : ThreadStep → Prop
  | .log _ env _ => env.writes.Whole
  | .flush _ w => w.Whole
  | .start _ _ _ env => env.writes.Whole
  | .finish _ w => w.Whole

namespace HostStep

/-- The steps that can be made when the threads `live` run: their writes are whole, and a record
fits in the buffer. -/
def Fit (live : Finset ℕ) : HostStep → Prop
  | .fork k w child => k ∈ live ∧ w.Whole ∧ ∀ c ∈ child, c.env.writes.Whole
  | .thread a => a.Fit live ∧ a.Whole

/-- The number of threads there have been and the threads that run, after a step. -/
def next : ℕ × Finset ℕ → HostStep → ℕ × Finset ℕ
  | q, .fork _ _ none => q
  | (n, live), .fork _ _ (some _) => (n + 1, insert n live)
  | q, .thread a => a.next q

end HostStep

/-- Steps of threads that run, where `q` says which do at first. -/
def HostRun : ℕ × Finset ℕ → List HostStep → Prop
  | _, [] => True
  | q, a :: as => a.Fit q.2 ∧ HostRun (a.next q) as

/-! ## What is written at once -/

/-- Each write has whole records. -/
def WholeLog (W : Writers) : Prop := ∀ x ∈ W.log, Whole x.2

variable {sysFork sysPthCreateChild : Int32} {W W' : Writers} {rs : List (ℕ × Record)}
  {q : ℕ × Finset ℕ} {k : ℕ} {env : LogEnv} {w : Writes} {c : LogbinCall}

theorem getCtx_eq_ok {ctx : ThreadCtx} (h : W.getCtx k = .ok ctx) : W.ctx k = some ctx := by
  rw [Writers.getCtx] at h
  split at h
  · next hctx =>
    cases h
    exact hctx
  · cases h

theorem WholeLog.put {ctx : ThreadCtx} {ws : List (List Byte)} {es : List Entered}
    (h : WholeLog W) (hws : ∀ b ∈ ws, Whole b) : WholeLog (W.put k ctx ws es) := by
  intro x hx
  rcases List.mem_append.1 hx with hx | hx
  · exact h x hx
  · obtain ⟨b, hb, rfl⟩ := List.mem_map.1 hx
    exact hws b hb

theorem WholeLog.logBy (h : WholeLog W) (hacc : Accounted W rs) (hw : env.writes.Whole)
    (hlog : W.logBy k env c = .ok W') : WholeLog W' := by
  obtain ⟨ctx, hctx, hlog⟩ := bind_eq_ok hlog
  obtain ⟨p, -, hlog⟩ := bind_eq_ok hlog
  cases hlog
  exact h.put fun b hb =>
    ((hacc.live (getCtx_eq_ok hctx)).whole_flush hw (mem_logbinWrites hb)).2

theorem WholeLog.flushBy (h : WholeLog W) (hacc : Accounted W rs) (hw : w.Whole)
    (hflush : W.flushBy k w = .ok W') : WholeLog W' := by
  obtain ⟨ctx, hctx, hflush⟩ := bind_eq_ok hflush
  obtain ⟨p, -, hflush⟩ := bind_eq_ok hflush
  cases hflush
  exact h.put fun b hb => ((hacc.live (getCtx_eq_ok hctx)).whole_flush hw hb).2

theorem WholeLog.threadStep (h : WholeLog W) (hacc : Accounted W rs) {a : ThreadStep}
    (ha : a.Whole) (hstep : Logd.threadStep sysPthCreateChild W a = .ok W') : WholeLog W' := by
  rcases a with ⟨t, env, c⟩ | ⟨t, w⟩ | ⟨pid, tid, lb, env⟩ | ⟨t, w⟩
  · exact h.logBy hacc ha hstep
  · exact h.flushBy hacc ha hstep
  · have halloc : WholeLog (W.alloc pid tid lb) := h
    exact halloc.logBy (hacc.alloc pid tid lb) ha hstep
  · obtain ⟨W₁, hflush, hstep⟩ := bind_eq_ok hstep
    cases hstep
    have hwhole : WholeLog W₁ := h.flushBy hacc ha hflush
    exact hwhole

/-! ## A step -/

/-- The threads that run have buffers, and what was written at once are whole records. -/
structure HostInv (W : Writers) (rs : List (ℕ × Record)) (q : ℕ × Finset ℕ) : Prop where
  threads : ThreadInv W rs q
  whole : WholeLog W

/-- **A fork** flushes, and the thread of the child logs first that it was forked. -/
theorem HostInv.fork (sysFork : Int32) (h : HostInv W rs q) (hk : k ∈ q.2) (hw : w.Whole)
    {child : Option Child} (hchild : ∀ c ∈ child, c.env.writes.Whole) :
    ∃ W' rs', W.fork sysFork k w child = .ok W' ∧
      HostInv W' (rs ++ rs') ((HostStep.fork k w child).next q) := by
  obtain ⟨W₁, ctx, hflush, hinv, hctx, -, -⟩ := h.threads.flush hk hw.moves
  have hwhole := h.whole.flushBy h.threads.accounted hw hflush
  rcases child with _ | c
  · exact ⟨W₁, [], Writers.fork_none sysFork hflush hctx, by rwa [List.append_nil], hwhole⟩
  · have hnew := hinv.alloc c.pid c.tid c.lb
    have hcwhole := hchild c rfl
    obtain ⟨W', r, hlog, hinv', -⟩ := hnew.log (Finset.mem_insert_self ..) hcwhole.moves
      (logbinli_sized sysFork 0 ctx.tid ctx.pid)
    have halloc : WholeLog (W₁.alloc c.pid c.tid c.lb) := hwhole
    have hwhole' := halloc.logBy hnew.accounted hcwhole hlog
    rw [← hinv.count] at hlog
    exact ⟨W', [(q.1, r)], (Writers.fork_some sysFork hflush hctx).trans hlog, hinv', hwhole'⟩

theorem hostStep_spec (h : HostInv W rs q) {a : HostStep} (ha : a.Fit q.2) :
    ∃ W' rs', hostStep sysFork sysPthCreateChild W a = .ok W' ∧
      HostInv W' (rs ++ rs') (a.next q) := by
  rcases a with ⟨k, w, child⟩ | a
  · exact h.fork sysFork ha.1 ha.2.1 ha.2.2
  · obtain ⟨W', rs', hstep, hinv⟩ := threadStep_spec sysPthCreateChild h.threads ha.1
    exact ⟨W', rs', hstep, hinv, h.whole.threadStep h.threads.accounted ha.2 hstep⟩

theorem hostRun_spec {as : List HostStep} (h : HostInv W rs q) (has : HostRun q as) :
    ∃ W' rs', runSteps (hostStep sysFork sysPthCreateChild) W as = .ok W' ∧
      HostInv W' rs' (as.foldl HostStep.next q) := by
  induction as generalizing W rs q with
  | nil => exact ⟨W, rs, rfl, h⟩
  | cons a as ih =>
    obtain ⟨ha, has⟩ := has
    obtain ⟨W₁, rs₁, hstep, hinv⟩ := hostStep_spec h ha
    obtain ⟨W', rs', hrun, hinv'⟩ := ih hinv has
    refine ⟨W', rs', ?_, hinv'⟩
    rw [runSteps, hstep, ok_bind, hrun]

/-! ## A host that has written everything -/

/-- The threads of a host have made some steps, and written all that they logged. -/
structure Ran (sysFork sysPthCreateChild : Int32) (W : Writers) : Prop where
  run : ∃ pid tid lb as, HostRun (1, {0}) as ∧
    runSteps (hostStep sysFork sysPthCreateChild) (Writers.empty.alloc pid tid lb) as = .ok W
  written : ∀ t ctx, W.ctx t = some ctx → ctx.lbptr = 0

/-- **What they wrote** are the records of all calls. -/
theorem Ran.records (h : Ran sysFork sysPthCreateChild W) :
    ∃ R : List (ℕ × Record), W.stream = (R.map (·.2)).flatMap Record.bytes ∧
      ∀ t, List.Forall₂ Entered.Logs (proj t W.entered) (proj t R) := by
  obtain ⟨pid, tid, lb, as, has, hrun⟩ := h.run
  have hinit : HostInv (Writers.empty.alloc pid tid lb) [] (1, {0}) :=
    ⟨threadInv_init pid tid lb, fun x hx => absurd hx List.not_mem_nil⟩
  obtain ⟨W', rs, hrun', hinv⟩ := hostRun_spec hinit has
  cases hrun'.symm.trans hrun
  have hacc := hinv.threads.accounted
  obtain ⟨R, hstream, hproj⟩ := exists_records hinv.whole
  refine ⟨R, by rw [List.flatMap_map]; exact hstream, fun t => ?_⟩
  have hall : (proj t W.log).flatten = (proj t rs).flatMap Record.bytes := by
    rcases hctx : W.ctx t with _ | ctx
    · exact hacc.gone hctx
    · exact (hacc.live hctx).flatten_eq_iff.2 (h.written t ctx hctx)
  have hnil := unfinished_nil record_selfDelimiting
  have heq : proj t R = proj t rs := by
    refine (flatMap_append_inj record_selfDelimiting hnil hnil ?_).1
    rw [List.append_nil, List.append_nil, ← hproj, hall]
  rw [heq]
  exact forall₂_proj hacc.entered t

end BorderPatrol.Logd
