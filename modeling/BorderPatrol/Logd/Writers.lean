import BorderPatrol.Foundations.Interleaving
import BorderPatrol.Foundations.Runs
import BorderPatrol.Logd.Binlog

/-!
# Writers of one log

Processes that fork, or the threads of a process, log through buffers of their own and write to one
log. A writer is given a context by `alloc_ctx`, and then logs and flushes. Whatever the others do,
what is written for a writer are the first of its records, in order, and the others are in its
buffer (`Accounted`).

Buffers are not shared, so that a log call or a flush is one step here, and only the writes of a
flush go to what is shared. `lbFlushWrites` has them one by one.
-/

namespace BorderPatrol.Logd

open Foundations

/-! ## The writes of a flush -/

/-- What each write of the loop of `lb_flush` adds to the log. -/
def lbFlushWrites (w : Writes) (ctx : ThreadCtx) : ℕ → ℕ → ℤ → List (List Byte)
  | 0, _, _ => []
  | n + 1, i, start =>
    if start < ctx.lbptr then
      let r := w i (ctx.lbptr - start)
      ctx.lb.slice start.toNat r.toNat :: lbFlushWrites w ctx n (i + 1) (start + r)
    else []

/-- The writes of `lb_flush`. -/
def flushWrites (w : Writes) (ctx : ThreadCtx) : List (List Byte) :=
  lbFlushWrites w ctx (ctx.lbptr.toNat + 1) 0 0

/-- The writes of `LOGBIN_gen`, which flushes a buffer that is too full. -/
def logbinWrites (ctx : ThreadCtx) (env : LogEnv) (c : LogbinCall) : List (List Byte) :=
  if pipeBuf - 1 < ctx.lbptr + predictSize c.num.toInt (toInt c.str.length) then
    flushWrites env.writes ctx
  else []

variable {w : Writes} {ctx ctx' : ThreadCtx} {env : LogEnv} {c : LogbinCall}

theorem flatten_lbFlushWrites {n i : ℕ} {start : ℤ} {out : List Byte}
    (h : lbFlushLoop w ctx n i start = .ok out) :
    (lbFlushWrites w ctx n i start).flatten = out := by
  induction n generalizing i start out with
  | zero => cases h
  | succ n ih =>
    rw [lbFlushLoop] at h
    rw [lbFlushWrites]
    by_cases hlt : start < ctx.lbptr
    · rw [if_pos hlt] at h ⊢
      simp only at h
      split at h
      · cases h
      · obtain ⟨out', hout', h⟩ := bind_eq_ok h
        cases h
        rw [List.flatten_cons, ih hout']
    · rw [if_neg hlt] at h ⊢
      cases h
      rfl

theorem flatten_flushWrites (hw : w.Moves) (hctx : ctx.InBuffer) :
    (flushWrites w ctx).flatten = ctx.held := by
  have h := lbFlushLoop_spec (n := ctx.lbptr.toNat + 1) (i := 0) hw hctx (Int.le_refl 0) (by omega)
  rw [flushWrites, flatten_lbFlushWrites h, Int.sub_zero]
  rfl

/-- Whole writes: there is one, of all the buffer holds. -/
theorem flushWrites_whole (hw : w.Whole) (hctx : ctx.InBuffer) :
    flushWrites w ctx = if 0 < ctx.lbptr then [ctx.held] else [] := by
  have hle := hctx.2
  rw [flushWrites, lbFlushWrites]
  split
  · next hpos =>
    have hend : lbFlushWrites w ctx ctx.lbptr.toNat 1 (0 + ctx.lbptr) = [] := by
      obtain ⟨n, hn⟩ : ∃ n, ctx.lbptr.toNat = n + 1 := ⟨ctx.lbptr.toNat - 1, by omega⟩
      rw [hn, lbFlushWrites, if_neg (by omega)]
    simp only
    rw [Int.sub_zero, hw 0 _ (by omega) hle, hend]
    rfl
  · rfl

theorem mem_flushWrites (hw : w.Whole) (hctx : ctx.InBuffer) {b : List Byte}
    (hb : b ∈ flushWrites w ctx) : b = ctx.held := by
  rw [flushWrites_whole hw hctx] at hb
  split at hb
  · exact List.mem_singleton.1 hb
  · exact absurd hb (by simp)

theorem ThreadCtx.length_held (hctx : ctx.InBuffer) : (ctx.held.length : ℤ) = ctx.lbptr := by
  have h := hctx.1
  rw [ThreadCtx.held, Mem.length_slice]
  omega

theorem mem_logbinWrites {b : List Byte} (hb : b ∈ logbinWrites ctx env c) :
    b ∈ flushWrites env.writes ctx := by
  rw [logbinWrites] at hb
  split at hb
  · exact hb
  · exact absurd hb (by simp)

/-- A log call flushes the buffer or writes nothing. -/
theorem logbinGen_out {out : List Byte} (hw : env.writes.Moves) (hctx : ctx.InBuffer)
    (h : logbinGen ctx env c = .ok (ctx', out)) :
    (logbinWrites ctx env c = flushWrites env.writes ctx ∧ out = ctx.held) ∨
      (logbinWrites ctx env c = [] ∧ out = []) := by
  rw [logbinGen_eq] at h
  obtain ⟨a, ha, h⟩ := bind_eq_ok h
  obtain ⟨lb₁, -, h⟩ := bind_eq_ok h
  obtain ⟨lb₂, -, h⟩ := bind_eq_ok h
  obtain ⟨lb₃, -, h⟩ := bind_eq_ok h
  cases h
  rw [lbAllocEntry, lbAllocBytes] at ha
  split at ha
  · cases ha
  · by_cases hfull : (pipeBuf : ℤ) - 1 < ctx.lbptr + predictSize c.num.toInt (toInt c.str.length)
    · rw [if_pos hfull, lbFlush_spec hw hctx] at ha
      cases ha
      exact Or.inl ⟨if_pos hfull, rfl⟩
    · rw [if_neg hfull] at ha
      cases ha
      exact Or.inr ⟨if_neg hfull, rfl⟩

/-! ## The records of a writer -/

/-- The writes `ws` have the first of the records `rs`, and the buffer has the others. -/
structure Account (ctx : ThreadCtx) (ws : List (List Byte)) (rs : List Record) : Prop where
  inBuffer : ctx.InBuffer
  records : ∃ out pend, rs = out ++ pend ∧ ws.flatten = out.flatMap Record.bytes ∧
    ctx.held = pend.flatMap Record.bytes

variable {ws : List (List Byte)} {rs : List Record}

/-- A new context, of a writer all of whose records are written. -/
theorem account_alloc (pid : Int32) (tid : UInt64) (lb : Mem Byte)
    (h : ws.flatten = rs.flatMap Record.bytes) : Account (allocCtx pid tid lb) ws rs :=
  ⟨⟨Int.le_refl 0, Int.natCast_nonneg pipeBuf⟩, rs, [], (List.append_nil rs).symm, h, rfl⟩

/-- The record of a log call comes last. -/
theorem Account.log (h : Account ctx ws rs) (hw : env.writes.Moves) (hc : c.Sized) :
    ∃ ctx' out r, logbinGen ctx env c = .ok (ctx', out) ∧ Logged ctx.pid ctx.tid c r ∧
      ctx'.pid = ctx.pid ∧ ctx'.tid = ctx.tid ∧
      Account ctx' (ws ++ logbinWrites ctx env c) (rs ++ [r]) := by
  obtain ⟨out, pend, rfl, hws, hheld⟩ := h.records
  obtain ⟨ctx', o, r, hgen, hlog, hsum, hin, hpid, htid⟩ := logbinGen_spec hw hc h.inBuffer
  refine ⟨ctx', o, r, hgen, hlog, hpid, htid, hin, ?_⟩
  rcases logbinGen_out hw h.inBuffer hgen with ⟨hwrites, rfl⟩ | ⟨hwrites, rfl⟩
  · refine ⟨out ++ pend, [r], rfl, ?_, ?_⟩
    · rw [hwrites, List.flatten_append, flatten_flushWrites hw h.inBuffer, hws, hheld,
        List.flatMap_append]
    · rw [List.append_cancel_left hsum, List.flatMap_singleton]
  · refine ⟨out, pend ++ [r], List.append_assoc .., ?_, ?_⟩
    · rw [hwrites, List.append_nil, hws]
    · rw [List.nil_append] at hsum
      rw [hsum, hheld, List.flatMap_append, List.flatMap_singleton]

/-- After a flush all is written. -/
theorem Account.flush (h : Account ctx ws rs) (hw : w.Moves) :
    lbFlush w ctx = .ok ({ ctx with lbptr := 0 }, ctx.held) ∧
      Account { ctx with lbptr := 0 } (ws ++ flushWrites w ctx) rs := by
  obtain ⟨out, pend, rfl, hws, hheld⟩ := h.records
  refine ⟨lbFlush_spec hw h.inBuffer, ⟨Int.le_refl 0, Int.natCast_nonneg pipeBuf⟩, out ++ pend,
    [], (List.append_nil _).symm, ?_, rfl⟩
  rw [List.flatten_append, flatten_flushWrites hw h.inBuffer, hws, hheld, List.flatMap_append]

/-- What is written are the records, if and only if the buffer is empty. -/
theorem Account.flatten_eq_iff (h : Account ctx ws rs) :
    ws.flatten = rs.flatMap Record.bytes ↔ ctx.lbptr = 0 := by
  obtain ⟨out, pend, rfl, hws, hheld⟩ := h.records
  have hlen := ThreadCtx.length_held h.inBuffer
  rw [List.flatMap_append, hws, List.self_eq_append_right, ← hheld, ← List.length_eq_zero_iff]
  omega

/-! ## All writers -/

/-- A log call that was made, and the ids of the writer that made it. -/
structure Entered where
  pid : Int32
  tid : UInt64
  call : LogbinCall

/-- The record of the call. -/
def Entered.Logs (e : Entered) (r : Record) : Prop := Logged e.pid e.tid e.call r

/-- The writers, by number, and what they share: `log` has what each write added, under the number
of the writer. `entered` are the log calls made so far, which no writer reads. -/
structure Writers where
  count : ℕ
  ctx : ℕ → Option ThreadCtx
  log : List (ℕ × List Byte)
  entered : List (ℕ × Entered)

namespace Writers

/-- Before the first writer. -/
def empty : Writers := ⟨0, fun _ => none, [], []⟩

/-- `get_ctx` -/
def getCtx (W : Writers) (k : ℕ) : Except Fault ThreadCtx :=
  match W.ctx k with
  | some ctx => .ok ctx
  | none => .error .nullPointer

/-- `k` has the context `ctx`, wrote `ws` and made the log calls `es`. -/
def put (W : Writers) (k : ℕ) (ctx : ThreadCtx) (ws : List (List Byte)) (es : List Entered) :
    Writers :=
  { W with
    ctx := Function.update W.ctx k (some ctx)
    log := W.log ++ ws.map (k, ·)
    entered := W.entered ++ es.map (k, ·) }

/-- The log call `c` of the writer `k`. -/
def logBy (W : Writers) (k : ℕ) (env : LogEnv) (c : LogbinCall) : Except Fault Writers := do
  let ctx ← W.getCtx k
  let (ctx', _) ← logbinGen ctx env c
  return W.put k ctx' (logbinWrites ctx env c) [⟨ctx.pid, ctx.tid, c⟩]

/-- `lb_flush` of the writer `k`. -/
def flushBy (W : Writers) (k : ℕ) (w : Writes) : Except Fault Writers := do
  let ctx ← W.getCtx k
  let (ctx', _) ← lbFlush w ctx
  return W.put k ctx' (flushWrites w ctx) []

/-- `alloc_ctx` of one more writer. -/
def alloc (W : Writers) (pid : Int32) (tid : UInt64) (lb : Mem Byte) : Writers :=
  { W with
    count := W.count + 1
    ctx := Function.update W.ctx W.count (some (allocCtx pid tid lb)) }

/-- The writer `k` ends, and its context is freed. -/
def free (W : Writers) (k : ℕ) : Writers := { W with ctx := Function.update W.ctx k none }

variable (W : Writers) (k : ℕ)

@[simp] theorem put_ctx (es : List Entered) :
    (W.put k ctx ws es).ctx = Function.update W.ctx k (some ctx) := rfl

@[simp] theorem alloc_ctx (pid : Int32) (tid : UInt64) (lb : Mem Byte) :
    (W.alloc pid tid lb).ctx = Function.update W.ctx W.count (some (allocCtx pid tid lb)) := rfl

@[simp] theorem free_ctx : (W.free k).ctx = Function.update W.ctx k none := rfl

end Writers

/-- The records `rs` are those of the calls made. What is written for a writer are the first of its
records, and its buffer has the others. When it has ended, all are written. -/
structure Accounted (W : Writers) (rs : List (ℕ × Record)) : Prop where
  entered : List.Forall₂ (fun e r => e.1 = r.1 ∧ e.2.Logs r.2) W.entered rs
  live : ∀ {k ctx}, W.ctx k = some ctx → Account ctx (proj k W.log) (proj k rs)
  gone : ∀ {k}, W.ctx k = none → (proj k W.log).flatten = (proj k rs).flatMap Record.bytes
  later : ∀ {k}, W.count ≤ k → W.ctx k = none

variable {W : Writers} {rs : List (ℕ × Record)} {k : ℕ}

/-- What becomes of one writer `k`, when the others are left as they are. -/
theorem Accounted.change {W' : Writers} {rs' : List (ℕ × Record)} (h : Accounted W rs) (k : ℕ)
    (hent : List.Forall₂ (fun e r => e.1 = r.1 ∧ e.2.Logs r.2) W'.entered rs')
    (hctx : ∀ j, j ≠ k → W'.ctx j = W.ctx j) (hlog : ∀ j, j ≠ k → proj j W'.log = proj j W.log)
    (hrs : ∀ j, j ≠ k → proj j rs' = proj j rs)
    (hlive : ∀ ctx, W'.ctx k = some ctx → Account ctx (proj k W'.log) (proj k rs'))
    (hgone : W'.ctx k = none → (proj k W'.log).flatten = (proj k rs').flatMap Record.bytes)
    (hcount : W.count ≤ W'.count) (hlater : W'.count ≤ k → W'.ctx k = none) : Accounted W' rs' where
  entered := hent
  live := by
    intro j ctx hj
    by_cases hjk : j = k
    · subst hjk
      exact hlive ctx hj
    · rw [hlog j hjk, hrs j hjk]
      exact h.live (by rw [← hctx j hjk, hj])
  gone := by
    intro j hj
    by_cases hjk : j = k
    · subst hjk
      exact hgone hj
    · rw [hlog j hjk, hrs j hjk]
      exact h.gone (by rw [← hctx j hjk, hj])
  later := by
    intro j hj
    by_cases hjk : j = k
    · subst hjk
      exact hlater hj
    · rw [hctx j hjk]
      exact h.later (hcount.trans hj)

theorem accounted_empty : Accounted Writers.empty [] where
  entered := .nil
  live := fun h => by cases h
  gone := fun _ => rfl
  later := fun _ => rfl

/-- Writer `k` writes `ws` and makes the calls with the records `rs'`. -/
theorem Accounted.put {es : List Entered} {rs' : List Record} (h : Accounted W rs)
    (hk : W.ctx k = some ctx) (hes : List.Forall₂ Entered.Logs es rs')
    (hacc : Account ctx' (proj k W.log ++ ws) (proj k rs ++ rs')) :
    Accounted (W.put k ctx' ws es) (rs ++ rs'.map (k, ·)) := by
  have hself : (W.put k ctx' ws es).ctx k = some ctx' := Function.update_self ..
  have hlt : W.count ≤ k → False := by
    intro hle
    rw [h.later hle] at hk
    cases hk
  refine h.change k ?_ (fun j hj => Function.update_of_ne hj ..) (fun j hj => ?_) (fun j hj => ?_)
    (fun c hc => ?_) (fun hn => ?_) (Nat.le_refl _) fun hle => (hlt hle).elim
  · refine List.rel_append h.entered ?_
    rw [List.forall₂_map_left_iff, List.forall₂_map_right_iff]
    exact hes.imp fun _ _ hlog => ⟨rfl, hlog⟩
  · rw [Writers.put, proj_append, proj_map, if_neg (Ne.symm hj), List.append_nil]
  · rw [proj_append, proj_map, if_neg (Ne.symm hj), List.append_nil]
  · rw [hself, Option.some.injEq] at hc
    subst hc
    rwa [Writers.put, proj_append, proj_append, proj_map, proj_map, if_pos rfl, if_pos rfl]
  · rw [hself] at hn
    cases hn

/-- **A log call** of a writer adds its record. -/
theorem Accounted.log (h : Accounted W rs) (hk : W.ctx k = some ctx) (hw : env.writes.Moves)
    (hc : c.Sized) :
    ∃ ctx' r, W.logBy k env c =
        .ok (W.put k ctx' (logbinWrites ctx env c) [⟨ctx.pid, ctx.tid, c⟩]) ∧
      Accounted (W.put k ctx' (logbinWrites ctx env c) [⟨ctx.pid, ctx.tid, c⟩])
        (rs ++ [(k, r)]) := by
  obtain ⟨ctx', out, r, hgen, hlog, -, -, hacc⟩ := (h.live hk).log hw hc
  have hlogs : List.Forall₂ Entered.Logs [⟨ctx.pid, ctx.tid, c⟩] [r] := .cons hlog .nil
  refine ⟨ctx', r, ?_, h.put hk hlogs hacc⟩
  rw [Writers.logBy, Writers.getCtx, hk]
  simp only [ok_bind, hgen]
  rfl

/-- **A flush** of a writer. -/
theorem Accounted.flush (h : Accounted W rs) (hk : W.ctx k = some ctx) (hw : w.Moves) :
    W.flushBy k w = .ok (W.put k { ctx with lbptr := 0 } (flushWrites w ctx) []) ∧
      Accounted (W.put k { ctx with lbptr := 0 } (flushWrites w ctx) []) rs := by
  obtain ⟨hflush, hacc⟩ := (h.live hk).flush hw
  constructor
  · rw [Writers.flushBy, Writers.getCtx, hk]
    simp only [ok_bind, hflush]
    rfl
  · have hput := h.put hk .nil (by rwa [← List.append_nil (proj k rs)] at hacc)
    rwa [List.map_nil, List.append_nil] at hput

/-- **One more writer**, with a buffer of its own. -/
theorem Accounted.alloc (h : Accounted W rs) (pid : Int32) (tid : UInt64) (lb : Mem Byte) :
    Accounted (W.alloc pid tid lb) rs := by
  have hself : (W.alloc pid tid lb).ctx W.count = some (allocCtx pid tid lb) :=
    Function.update_self ..
  refine h.change W.count h.entered (fun j hj => Function.update_of_ne hj ..) (fun _ _ => rfl)
    (fun _ _ => rfl) (fun c hc => ?_) (fun hn => ?_) (Nat.le_succ _)
    fun hle => absurd hle (Nat.not_succ_le_self _)
  · rw [hself, Option.some.injEq] at hc
    subst hc
    exact account_alloc pid tid lb (h.gone (h.later (Nat.le_refl _)))
  · rw [hself] at hn
    cases hn

/-- A writer that ends with an empty buffer. -/
theorem Accounted.free (h : Accounted W rs) (hk : W.ctx k = some ctx) (hptr : ctx.lbptr = 0) :
    Accounted (W.free k) rs := by
  have hself : (W.free k).ctx k = none := Function.update_self ..
  refine h.change k h.entered (fun j hj => Function.update_of_ne hj ..) (fun _ _ => rfl)
    (fun _ _ => rfl) (fun c hc => ?_) (fun _ => (h.live hk).flatten_eq_iff.2 hptr) (Nat.le_refl _)
    fun _ => hself
  rw [hself] at hc
  cases hc

end BorderPatrol.Logd
