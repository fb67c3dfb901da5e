import BorderPatrol.Logd.Clients
import BorderPatrol.Logd.RoundTrip
import BorderPatrol.Logd.Writers

/-!
# Forked processes and the log

A tree of processes with one thread each. The wrapped `fork` flushes the buffer of the parent, and
`fork_init` gives the child a new one, although what the parent has in memory is copied. Each
process is a writer of its own, and at most one write is made in each step, so that steps interleave
as the processes do. When writes of at most `PIPE_BUF` bytes are whole, the log is an interleaving
of what the processes logged (`fork_interleaves`).
-/

namespace BorderPatrol.Logd

open Foundations

/-- `LOGBINli` -/
def logbinli (sc rv : Int32) (ptid : UInt64) (ppid : Int32) : LogbinCall :=
  ⟨sc, rv, ppid, 0, 0, 1, some (decimal ptid.toNat ++ [0])⟩

/-- The child of a `fork`: its ids, the block it allocates, and what its first log call meets. -/
structure Child where
  pid : Int32
  tid : UInt64
  lb : Mem Byte
  env : LogEnv

namespace Writers

/-- `real_fork`: one more process, with a copy of the memory of its parent. -/
def realFork (W : Writers) (k : ℕ) : Writers :=
  { W with
    count := W.count + 1
    ctx := Function.update W.ctx W.count (W.ctx k) }

/-- `fork_init`, in the process `j`. -/
def forkInit (W : Writers) (j : ℕ) (pid : Int32) (tid : UInt64) (lb : Mem Byte) : Writers :=
  { W with ctx := Function.update W.ctx j (some (allocCtx pid tid lb)) }

/-- `fork` of the process `k`, which has no child when `real_fork` fails. The number of `SYS_FORK`
is given by the build. -/
def fork (sysFork : Int32) (W : Writers) (k : ℕ) (w : Writes) (child : Option Child) :
    Except Fault Writers := do
  let W ← W.flushBy k w
  let forker ← W.getCtx k
  match child with
  | none => return W
  | some c =>
    ((W.realFork k).forkInit W.count c.pid c.tid c.lb).logBy W.count c.env
      (logbinli sysFork 0 forker.tid forker.pid)

/-- The child has a context of its own. -/
theorem forkInit_realFork (W : Writers) (k : ℕ) (pid : Int32) (tid : UInt64) (lb : Mem Byte) :
    (W.realFork k).forkInit W.count pid tid lb = W.alloc pid tid lb := by
  rw [realFork, forkInit, alloc, Function.update_idem]

end Writers

/-- What a process does. -/
inductive ForkStep
  | log (k : ℕ) (env : LogEnv) (c : LogbinCall)
  | flush (k : ℕ) (w : Writes)
  | fork (k : ℕ) (w : Writes) (child : Option Child)

/-- A step of a process. -/
def forkStep (sysFork : Int32) (W : Writers) : ForkStep → Except Fault Writers
  | .log k env c => W.logBy k env c
  | .flush k w => W.flushBy k w
  | .fork k w child => W.fork sysFork k w child

namespace ForkStep

/-- The process whose step it is. -/
def process : ForkStep → ℕ
  | .log k _ _ => k
  | .flush k _ => k
  | .fork k _ _ => k

/-- The processes it adds. -/
def forked : ForkStep → ℕ
  | .fork _ _ (some _) => 1
  | _ => 0

/-- Writes of at most `PIPE_BUF` bytes are whole, and records have no more than that. -/
def Fit : ForkStep → Prop
  | .log _ env c => env.writes.Whole ∧ c.Sized
  | .flush _ w => w.Whole
  | .fork _ w child => w.Whole ∧ ∀ c ∈ child, c.env.writes.Whole

end ForkStep

/-- Steps of processes that exist, when there are `n` processes at first. -/
def ForkRun : ℕ → List ForkStep → Prop
  | _, [] => True
  | n, a :: as => a.process < n ∧ a.Fit ∧ ForkRun (n + a.forked) as

/-! ## One step -/

/-- All processes have a buffer, and what was written at once are whole records. -/
structure ForkInv (W : Writers) (rs : List (ℕ × Record)) : Prop where
  accounted : Accounted W rs
  alive : ∀ {k}, k < W.count → ∃ ctx, W.ctx k = some ctx
  writes : ∀ q ∈ W.log, q.2.length ≤ pipeBuf ∧ Whole q.2

variable (sysFork : Int32) {W : Writers} {rs : List (ℕ × Record)} {k : ℕ} {ctx : ThreadCtx}

/-- A buffer has whole records, no more than fit in a pipe. -/
theorem Account.whole_flush {w : Writes} {ws : List (List Byte)} {rs : List Record}
    (h : Account ctx ws rs) (hw : w.Whole) {b : List Byte} (hb : b ∈ flushWrites w ctx) :
    b.length ≤ pipeBuf ∧ Whole b := by
  obtain ⟨out, pend, -, -, hheld⟩ := h.records
  have hlen := ThreadCtx.length_held h.inBuffer
  have hle := h.inBuffer.2
  rw [mem_flushWrites hw h.inBuffer hb]
  exact ⟨by omega, pend, hheld⟩

/-- A writer that goes on keeps its buffer. -/
theorem ForkInv.put {rs' : List (ℕ × Record)} {ctx' : ThreadCtx} {ws : List (List Byte)}
    {es : List Entered} (h : ForkInv W rs)
    (hacc : Accounted (W.put k ctx' ws es) rs')
    (hws : ∀ b ∈ ws, b.length ≤ pipeBuf ∧ Whole b) : ForkInv (W.put k ctx' ws es) rs' where
  accounted := hacc
  alive := by
    intro j hj
    by_cases hjk : j = k
    · subst hjk
      exact ⟨ctx', Function.update_self ..⟩
    · obtain ⟨ctx, hctx⟩ := h.alive hj
      exact ⟨ctx, (Function.update_of_ne hjk ..).trans hctx⟩
  writes := by
    intro q hq
    rcases List.mem_append.1 hq with hq | hq
    · exact h.writes q hq
    · obtain ⟨b, hb, rfl⟩ := List.mem_map.1 hq
      exact hws b hb

theorem ForkInv.log (h : ForkInv W rs) (hk : k < W.count) {env : LogEnv} {c : LogbinCall}
    (hw : env.writes.Whole) (hc : c.Sized) :
    ∃ W' r, W.logBy k env c = .ok W' ∧ W'.count = W.count ∧ ForkInv W' (rs ++ [(k, r)]) := by
  obtain ⟨ctx, hctx⟩ := h.alive hk
  obtain ⟨ctx', r, hlog, hacc⟩ := h.accounted.log hctx hw.moves hc
  exact ⟨_, r, hlog, rfl, h.put hacc fun b hb =>
    (h.accounted.live hctx).whole_flush hw (mem_logbinWrites hb)⟩

theorem ForkInv.flush (h : ForkInv W rs) (hk : k < W.count) {w : Writes} (hw : w.Whole) :
    ∃ W', W.flushBy k w = .ok W' ∧ W'.count = W.count ∧ ForkInv W' rs := by
  obtain ⟨ctx, hctx⟩ := h.alive hk
  obtain ⟨hflush, hacc⟩ := h.accounted.flush hctx hw.moves
  exact ⟨_, hflush, rfl, h.put hacc fun b hb => (h.accounted.live hctx).whole_flush hw hb⟩

theorem ForkInv.alloc (h : ForkInv W rs) (pid : Int32) (tid : UInt64) (lb : Mem Byte) :
    ForkInv (W.alloc pid tid lb) rs where
  accounted := h.accounted.alloc pid tid lb
  alive := by
    intro j hj
    by_cases hjk : j = W.count
    · subst hjk
      exact ⟨_, Function.update_self ..⟩
    · obtain ⟨ctx, hctx⟩ := h.alive (Nat.lt_of_le_of_ne (Nat.le_of_lt_succ hj) hjk)
      exact ⟨ctx, (Function.update_of_ne hjk ..).trans hctx⟩
  writes := h.writes

/-- The record of a fork is small. -/
theorem logbinli_sized (sc rv : Int32) (ptid : UInt64) (ppid : Int32) :
    (logbinli sc rv ptid ppid).Sized where
  num := by
    change 0 ≤ (1 : Int32).toInt ∧ (1 : Int32).toInt ≤ 3
    decide
  size := by
    have hlt : ptid.toNat < 10 ^ 20 := Nat.lt_trans ptid.toNat_lt (by decide)
    have hlen := length_decimal_le (by decide) hlt
    have hstr : (logbinli sc rv ptid ppid).str = decimal ptid.toNat := by
      refine cstr_append_zero fun b hb h0 => ?_
      have := (decimal_mem hb).1
      rw [h0] at this
      exact absurd this (by decide)
    rw [hstr]
    change (frozenLen : ℤ) + 4 * 1 + _ ≤ (pipeBuf : ℤ)
    simp only [frozenLen, pipeBuf]
    omega

/-- A fork without a child is a flush. -/
theorem Writers.fork_none {W₁ : Writers} {w : Writes} (hflush : W.flushBy k w = .ok W₁)
    (hctx : W₁.ctx k = some ctx) : W.fork sysFork k w none = .ok W₁ := by
  have hget : W₁.getCtx k = .ok ctx := by rw [Writers.getCtx, hctx]
  unfold Writers.fork
  rw [hflush]
  change (W₁.getCtx k >>= fun _ => Except.ok W₁) = _
  rw [hget]
  rfl

/-- A fork is a flush, a context for the child, and its log call. -/
theorem Writers.fork_some {W₁ : Writers} {w : Writes} {c : Child}
    (hflush : W.flushBy k w = .ok W₁) (hctx : W₁.ctx k = some ctx) :
    W.fork sysFork k w (some c) = (W₁.alloc c.pid c.tid c.lb).logBy W₁.count c.env
      (logbinli sysFork 0 ctx.tid ctx.pid) := by
  have hget : W₁.getCtx k = .ok ctx := by rw [Writers.getCtx, hctx]
  unfold Writers.fork
  rw [hflush]
  change (W₁.getCtx k >>= fun forker => ((W₁.realFork k).forkInit W₁.count c.pid c.tid c.lb).logBy
    W₁.count c.env (logbinli sysFork 0 forker.tid forker.pid)) = _
  rw [hget, ok_bind, Writers.forkInit_realFork]

/-- **A fork**: the child logs first that it was forked. -/
theorem ForkInv.fork (h : ForkInv W rs) (hk : k < W.count) {w : Writes} {child : Option Child}
    (hw : w.Whole) (hchild : ∀ c ∈ child, c.env.writes.Whole) :
    ∃ W' rs', W.fork sysFork k w child = .ok W' ∧
      W'.count = W.count + (ForkStep.fork k w child).forked ∧ ForkInv W' (rs ++ rs') := by
  obtain ⟨W₁, hflush, hcount, hinv⟩ := h.flush hk hw
  obtain ⟨ctx, hctx⟩ := hinv.alive (hcount ▸ hk)
  rcases child with _ | c
  · exact ⟨W₁, [], Writers.fork_none sysFork hflush hctx, hcount, by rwa [List.append_nil]⟩
  · have hlt : W₁.count < (W₁.alloc c.pid c.tid c.lb).count := Nat.lt_succ_self _
    obtain ⟨W', r, hlog, hcount', hinv'⟩ := (hinv.alloc c.pid c.tid c.lb).log hlt
      (hchild c rfl) (logbinli_sized sysFork 0 ctx.tid ctx.pid)
    refine ⟨W', [(W₁.count, r)], (Writers.fork_some sysFork hflush hctx).trans hlog, ?_, hinv'⟩
    rw [hcount', ← hcount]
    rfl

theorem forkStep_spec (h : ForkInv W rs) {a : ForkStep} (ha : a.process < W.count) (hfit : a.Fit) :
    ∃ W' rs', forkStep sysFork W a = .ok W' ∧ W'.count = W.count + a.forked ∧
      ForkInv W' (rs ++ rs') := by
  rcases a with ⟨k, env, c⟩ | ⟨k, w⟩ | ⟨k, w, child⟩
  · obtain ⟨W', r, hlog, hcount, hinv⟩ := h.log ha hfit.1 hfit.2
    exact ⟨W', [(k, r)], hlog, hcount, hinv⟩
  · obtain ⟨W', hflush, hcount, hinv⟩ := h.flush ha hfit
    exact ⟨W', [], hflush, hcount, by rwa [List.append_nil]⟩
  · exact h.fork sysFork ha hfit.1 hfit.2

/-! ## All steps -/

theorem forkRun_spec {as : List ForkStep} (h : ForkInv W rs) (has : ForkRun W.count as) :
    ∃ W' rs', runSteps (forkStep sysFork) W as = .ok W' ∧ ForkInv W' (rs ++ rs') := by
  induction as generalizing W rs with
  | nil => exact ⟨W, [], rfl, by rwa [List.append_nil]⟩
  | cons a as ih =>
    obtain ⟨ha, hfit, has⟩ := has
    obtain ⟨W₁, rs₁, hstep, hcount, hinv⟩ := forkStep_spec sysFork h ha hfit
    obtain ⟨W', rs', hrun, hinv'⟩ := ih hinv (by rwa [hcount])
    rw [List.append_assoc] at hinv'
    refine ⟨W', rs₁ ++ rs', ?_, hinv'⟩
    rw [runSteps, hstep, ok_bind, hrun]

/-- What the log has, one write behind the other. -/
def Writers.stream (W : Writers) : List Byte := (W.log.map (·.2)).flatten

/-- Writes of whole records are a sequence of records. -/
theorem exists_records {log : List (ℕ × List Byte)} (h : ∀ q ∈ log, Whole q.2) :
    ∃ R : List (ℕ × Record), (log.map (·.2)).flatten = R.flatMap (·.2.bytes) ∧
      ∀ k, (proj k log).flatten = (proj k R).flatMap Record.bytes := by
  induction log with
  | nil => exact ⟨[], rfl, fun k => rfl⟩
  | cons q log ih =>
    obtain ⟨rs, hrs⟩ := h q (by simp)
    obtain ⟨R, hR, hproj⟩ := ih fun q hq => h q (by simp [hq])
    refine ⟨rs.map (q.1, ·) ++ R, ?_, fun k => ?_⟩
    · rw [List.map_cons, List.flatten_cons, hR, hrs, List.flatMap_append, List.flatMap_map]
    · rw [proj_cons, proj_append, proj_map, List.flatMap_append, ← hproj]
      split
      · rw [List.flatten_cons, hrs]
      · rfl

/-- The records of a process that were written are its first. -/
theorem Accounted.prefix_proj (h : Accounted W rs) {R : List (ℕ × Record)}
    (hproj : (proj k W.log).flatten = (proj k R).flatMap Record.bytes) :
    proj k R <+: proj k rs := by
  have hinj : ∀ out : List Record, (proj k W.log).flatten = out.flatMap Record.bytes →
      proj k R = out := by
    intro out hout
    have hnil := unfinished_nil record_selfDelimiting
    refine (flatMap_append_inj record_selfDelimiting hnil hnil ?_).1
    rw [List.append_nil, List.append_nil, ← hproj, hout]
  rcases hctx : W.ctx k with _ | ctx
  · exact ⟨[], by rw [List.append_nil, hinj _ (h.gone hctx)]⟩
  · obtain ⟨out, pend, hrs, hws, -⟩ := (h.live hctx).records
    rw [hinj out hws, hrs]
    exact List.prefix_append ..

/-- **Forked processes share a log.** Every write is of whole records, of at most `PIPE_BUF` bytes.
What is read from the log are the records `R`, an interleaving of the first records that the
processes logged, and none of those comes twice. -/
theorem fork_interleaves (sysFork pid : Int32) (tid : UInt64) (lb : Mem Byte) (as : List ForkStep)
    (has : ForkRun 1 as) :
    ∃ W rs R, runSteps (forkStep sysFork) (Writers.empty.alloc pid tid lb) as = .ok W ∧
      List.Forall₂ (fun e r => e.1 = r.1 ∧ e.2.Logs r.2) W.entered rs ∧
      (∀ q ∈ W.log, q.2.length ≤ pipeBuf ∧ Whole q.2) ∧
      W.stream = R.flatMap (·.2.bytes) ∧ (∀ k, proj k R <+: proj k rs) ∧ R.Subperm rs ∧
      ∀ chunks : List (List Byte), (∀ b ∈ chunks, 1 ≤ b.length ∧ b.length ≤ pipeBuf) →
        chunks.flatten = W.stream → ∀ (buf : Mem Byte) (n : ℕ),
          ∃ rd, getLes false (R.length + (n + 1)) (Reader.start buf chunks) =
            .ok (R.map (fun r => some r.2.entry) ++ List.replicate (n + 1) none, rd) := by
  have hinit : ForkInv Writers.empty [] :=
    ⟨accounted_empty, fun h => absurd h (Nat.not_lt_zero _), fun q hq => absurd hq (by
      simp [Writers.empty])⟩
  obtain ⟨W, rs, hrun, hinv⟩ := forkRun_spec sysFork (hinit.alloc pid tid lb) has
  rw [List.nil_append] at hinv
  obtain ⟨R, hstream, hproj⟩ := exists_records fun q hq => (hinv.writes q hq).2
  have hpre : ∀ k, proj k R <+: proj k rs := fun k => hinv.accounted.prefix_proj (hproj k)
  refine ⟨W, rs, R, hrun, hinv.accounted.entered, hinv.writes, hstream, hpre,
    subperm_of_proj fun k => (hpre k).sublist, fun chunks hchunks hflat buf n => ?_⟩
  have hgives := gives_start buf hchunks
  rw [hflat, Writers.stream, hstream, ← List.flatMap_map] at hgives
  obtain ⟨rd, hles⟩ := getLes_records _ hgives n
  rw [List.length_map, List.map_map] at hles
  exact ⟨rd, hles⟩

/-- A process logs, forks, and fails to fork again, while its child logs and flushes. -/
def oneFork : List ForkStep :=
  [.log 0 ⟨fun _ amt => amt, ⟨100, 7⟩, ascii "sh"⟩ ⟨1, 0, 5, 6, 0, 2, none⟩,
    .fork 0 (fun _ amt => amt)
      (some ⟨301, 17, fun _ => 0, ⟨fun _ amt => amt, ⟨100, 9⟩, ascii "sh"⟩⟩),
    .log 1 ⟨fun _ amt => amt, ⟨101, 3⟩, ascii "sh"⟩ ⟨2, -1, 9, 0, 0, 1, some (ascii "a\x00")⟩,
    .fork 0 (fun _ amt => amt) none,
    .flush 1 fun _ amt => amt]

theorem fork_interleaves_oneFork :
    ∃ W rs R, runSteps (forkStep 29) (Writers.empty.alloc 300 17 fun _ => 0) oneFork = .ok W ∧
      List.Forall₂ (fun e r => e.1 = r.1 ∧ e.2.Logs r.2) W.entered rs ∧
      (∀ q ∈ W.log, q.2.length ≤ pipeBuf ∧ Whole q.2) ∧
      W.stream = R.flatMap (·.2.bytes) ∧ (∀ k, proj k R <+: proj k rs) ∧ R.Subperm rs ∧
      ∀ chunks : List (List Byte), (∀ b ∈ chunks, 1 ≤ b.length ∧ b.length ≤ pipeBuf) →
        chunks.flatten = W.stream → ∀ (buf : Mem Byte) (n : ℕ),
          ∃ rd, getLes false (R.length + (n + 1)) (Reader.start buf chunks) =
            .ok (R.map (fun r => some r.2.entry) ++ List.replicate (n + 1) none, rd) := by
  have hwhole : Writes.Whole fun _ amt => amt := fun _ _ _ _ => rfl
  have hrun : ForkRun 1 oneFork := by
    refine ⟨by decide, ⟨hwhole, by decide, by decide⟩, by decide, ⟨hwhole, ?_⟩, by decide,
      ⟨hwhole, by decide, by decide⟩, by decide, ⟨hwhole, ?_⟩, by decide, hwhole, trivial⟩
    · rintro c ⟨⟩
      exact hwhole
    · rintro c ⟨⟩
  exact fork_interleaves 29 300 17 (fun _ => 0) oneFork hrun

end BorderPatrol.Logd
