import BorderPatrol.Logd.Fmt

/-!
# The log buffer of a thread

`binlog.c`, for one thread: `LOGBIN_gen` lays a record out in the buffer `lb`, which `lb_flush`
writes to the log when it is full. What `write` returns and what `gettimeofday` says are parameters
of a call. `bb_disable_log_check` always returns 0, so that nothing here is ever skipped.

Whatever the writes return, what a call writes to the log and what it leaves in the buffer is what
was in the buffer and one record (`logbinGen_spec`).
-/

namespace BorderPatrol.Logd

open Foundations

/-- `struct timeval` -/
structure Timeval where
  sec : ℤ
  usec : ℤ
  deriving DecidableEq, Repr

/-- Conversion to `uint32_t`. -/
def toUint32 (x : ℤ) : UInt32 := UInt32.ofNat (x % 2 ^ 32).toNat

/-- `thread_ctx_t`, as far as the log goes. -/
structure ThreadCtx where
  pid : Int32
  tid : UInt64
  lbptr : ℤ
  lb : Mem Byte
  fzHigh : UInt64
  fzLow : UInt64

/-- `alloc_ctx`, on a block that held `lb` for its buffer. -/
def allocCtx (pid : Int32) (tid : UInt64) (lb : Mem Byte) : ThreadCtx := ⟨pid, tid, 0, lb, 0, 0⟩

/-- What the writes of a flush return: the result of the `i`th, asked for so many bytes. -/
abbrev Writes := (i : ℕ) → (amt : ℤ) → ℤ

/-- The writes may be short, but each writes something. -/
def Writes.Short (w : Writes) : Prop := ∀ i amt, 1 ≤ amt → 1 ≤ w i amt ∧ w i amt ≤ amt

/-- The same of the writes of at most `PIPE_BUF` bytes. -/
def Writes.Moves (w : Writes) : Prop :=
  ∀ i (amt : ℤ), 1 ≤ amt → amt ≤ pipeBuf → 1 ≤ w i amt ∧ w i amt ≤ amt

/-- The writes of at most `PIPE_BUF` bytes write all of them. -/
def Writes.Whole (w : Writes) : Prop := ∀ i (amt : ℤ), 1 ≤ amt → amt ≤ pipeBuf → w i amt = amt

theorem Writes.Short.moves {w : Writes} (hw : w.Short) : w.Moves := fun i amt h _ => hw i amt h

theorem Writes.Whole.moves {w : Writes} (hw : w.Whole) : w.Moves := fun i amt h₁ h₂ => by
  rw [hw i amt h₁ h₂]
  exact ⟨h₁, Int.le_refl amt⟩

/-- What a log call meets: the results of its writes, the time, and the name of the program. -/
structure LogEnv where
  writes : Writes
  now : Timeval
  progName : List Byte

/-- The loop of `lb_flush` over what is to be written, from `start` on: the bytes written. The first
argument bounds the writes. -/
def lbFlushLoop (w : Writes) (ctx : ThreadCtx) : ℕ → ℕ → ℤ → Except Fault (List Byte)
  | 0, _, _ => .error .fuel
  | n + 1, i, start =>
    if start < ctx.lbptr then
      let amt := ctx.lbptr - start
      let r := w i amt
      if r = -1 then .error (.exit 1)
      else do
        let out ← lbFlushLoop w ctx n (i + 1) (start + r)
        return ctx.lb.slice start.toNat r.toNat ++ out
    else .ok []

/-- `lb_flush`: the context and the bytes written to the log. -/
def lbFlush (w : Writes) (ctx : ThreadCtx) : Except Fault (ThreadCtx × List Byte) := do
  let out ← lbFlushLoop w ctx (ctx.lbptr.toNat + 1) 0 0
  return ({ ctx with lbptr := 0 }, out)

/-- `lb_alloc_bytes`: the context, where the bytes are in `lb`, and what was written to the log. -/
def lbAllocBytes (w : Writes) (ctx : ThreadCtx) (bytes : ℤ) :
    Except Fault (ThreadCtx × ℤ × List Byte) :=
  if pipeBuf < bytes then .error (.exit 1)
  else do
    let (ctx, out) ← if pipeBuf - 1 < ctx.lbptr + bytes then lbFlush w ctx else .ok (ctx, [])
    return ({ ctx with lbptr := ctx.lbptr + bytes }, ctx.lbptr, out)

/-- `lb_alloc_entry` -/
def lbAllocEntry (w : Writes) (ctx : ThreadCtx) (argLen strLen : ℤ) :
    Except Fault (ThreadCtx × ℤ × List Byte) :=
  lbAllocBytes w ctx (predictSize argLen strLen)

/-- `lb_populate`, of the header at `fz` in the buffer. -/
def lbPopulate (env : LogEnv) (ctx : ThreadCtx) (fz : ℤ) (sc rv : Int32) :
    Except Fault (Mem Byte) := do
  inBounds (0 ≤ fz ∧ fz + frozenLen ≤ pipeBuf)
  let p := fz.toNat
  let lb := ctx.lb
  let lb := lb.store (p + 24) [env.progName.headD 0]
  let lb := lb.store (p + 12) (uint32Bytes
    (if ctx.fzHigh = 0 then toUint32 env.now.sec else ctx.fzHigh.toUInt32))
  let lb := lb.store (p + 16) (uint32Bytes
    (if ctx.fzLow = 0 then toUint32 env.now.usec else ctx.fzLow.toUInt32))
  let lb := lb.store (p + 8) (uint32Bytes ctx.pid.toUInt32)
  let lb := lb.store p (uint64Bytes ctx.tid)
  let lb := lb.store (p + 20) (int16Bytes sc.toInt16)
  let lb := lb.store (p + 22) (int16Bytes rv.toInt16)
  let lb := lb.store (p + 25) [0]
  return lb.store (p + 26) (int16Bytes 0)

/-- `SETARG` -/
def setArg (lb : Mem Byte) (th : ℤ) (arg : ℕ) (val : Int32) : Except Fault (Mem Byte) := do
  let where' := th + frozenLen + (arg - 1) * 4
  inBounds (0 ≤ where' ∧ where' + 4 ≤ pipeBuf)
  return lb.store where'.toNat (int32Bytes val)

/-- What the loop of `SETSTR` makes of a character. -/
def underscored (b : Byte) : Byte := if b = 10 then 95 else b

/-- `SETSTR`, with the string `s` given without its zero. -/
def setStr (lb : Mem Byte) (th : ℤ) (s : List Byte) (slen : ℤ) : Except Fault (Mem Byte) := do
  let where' := th + frozenLen + (lb (th.toNat + 25)).toInt8.toInt * 4
  -- a negative length is a huge one for `memcpy`
  inBounds (0 ≤ where' ∧ 0 ≤ slen ∧ slen ≤ s.length ∧ where' + slen ≤ pipeBuf)
  let lb := lb.store where'.toNat (s.take slen.toNat)
  return lb.update where'.toNat slen.toNat underscored

/-- The arguments of `LOGBIN_gen`. The memory `s` points to is given from there on. -/
structure LogbinCall where
  sc : Int32
  rv : Int32
  i₁ : Int32
  i₂ : Int32
  i₃ : Int32
  num : Int32
  s : Option (List Byte)

/-- The string of a call, empty when the pointer is null. -/
def LogbinCall.str (c : LogbinCall) : List Byte := cstr (c.s.getD [])

/-- The arguments that `LOGBIN_gen` sets. -/
def setArgs (lb : Mem Byte) (th : ℤ) (c : LogbinCall) : Except Fault (Mem Byte) := do
  let lb ← if 1 ≤ c.num.toInt then setArg lb th 1 c.i₁ else .ok lb
  let lb ← if 2 ≤ c.num.toInt then setArg lb th 2 c.i₂ else .ok lb
  if 3 ≤ c.num.toInt then setArg lb th 3 c.i₃ else .ok lb

/-- `LOGBIN_gen`: the context and the bytes written to the log. -/
def logbinGen (ctx : ThreadCtx) (env : LogEnv) (c : LogbinCall) :
    Except Fault (ThreadCtx × List Byte) := do
  let slen := toInt c.str.length
  let (ctx, th, out) ← lbAllocEntry env.writes ctx c.num.toInt slen
  let lb ← lbPopulate env ctx th c.sc c.rv
  let lb := lb.store (th.toNat + 25) [c.num.toInt8.toUInt8]
  let lb := lb.store (th.toNat + 26) (int16Bytes (Int16.ofInt slen))
  let lb ← setStr lb th c.str slen
  let lb ← setArgs lb th c
  return ({ ctx with lb := lb }, out)

/-- A sequence of log calls of one thread. -/
def logbinRun : ThreadCtx → List (LogEnv × LogbinCall) → Except Fault (ThreadCtx × List Byte)
  | ctx, [] => .ok (ctx, [])
  | ctx, (env, c) :: cs => do
    let (ctx, out) ← logbinGen ctx env c
    let (ctx, out') ← logbinRun ctx cs
    return (ctx, out ++ out')

/-! ## Flushing -/

/-- What the buffer holds. -/
def ThreadCtx.held (ctx : ThreadCtx) : List Byte := ctx.lb.slice 0 ctx.lbptr.toNat

variable {w : Writes} {ctx : ThreadCtx}

/-- The buffer is as large as the log allows. -/
def ThreadCtx.InBuffer (ctx : ThreadCtx) : Prop := 0 ≤ ctx.lbptr ∧ ctx.lbptr ≤ pipeBuf

/-- Short writes write everything from where they start. -/
theorem lbFlushLoop_spec (hw : w.Moves) (hctx : ctx.InBuffer) {n i : ℕ} {start : ℤ}
    (h₀ : 0 ≤ start) (hn : (ctx.lbptr - start).toNat < n) :
    lbFlushLoop w ctx n i start =
      .ok (ctx.lb.slice start.toNat (ctx.lbptr - start).toNat) := by
  induction n generalizing i start with
  | zero => omega
  | succ n ih =>
    rw [lbFlushLoop]
    by_cases hlt : start < ctx.lbptr
    · have hle := hctx.2
      obtain ⟨h₁, h₂⟩ := hw i (ctx.lbptr - start) (by omega) (by omega)
      rw [if_pos hlt]
      simp only
      rw [if_neg (by omega), ih (by omega) (by omega)]
      simp only [bind, Except.bind, pure, Except.pure]
      rw [show (start + w i (ctx.lbptr - start)).toNat =
          start.toNat + (w i (ctx.lbptr - start)).toNat by omega, ← Mem.slice_add]
      congr 2
      omega
    · rw [if_neg hlt, show (ctx.lbptr - start).toNat = 0 by omega, Mem.slice_zero]

/-- **A flush** writes what the buffer holds, and leaves it empty. -/
theorem lbFlush_spec (hw : w.Moves) (hctx : ctx.InBuffer) :
    lbFlush w ctx = .ok ({ ctx with lbptr := 0 }, ctx.held) := by
  rw [lbFlush, lbFlushLoop_spec hw hctx (Int.le_refl _) (by omega), Int.sub_zero]
  rfl

/-! ## One record -/

/-- The calls that make a record: at most three arguments, and a record that fits in the buffer. -/
structure LogbinCall.Sized (c : LogbinCall) : Prop where
  num : 0 ≤ c.num.toInt ∧ c.num.toInt ≤ 3
  size : frozenLen + 4 * c.num.toInt + c.str.length ≤ pipeBuf

/-- The calls that are logged as they are: sixteen bits for `sc` and `rv`, at most three arguments,
and a record that fits in the buffer. -/
structure LogbinCall.Fits (c : LogbinCall) : Prop where
  sc : -2 ^ 15 ≤ c.sc.toInt ∧ c.sc.toInt < 2 ^ 15
  rv : -2 ^ 15 ≤ c.rv.toInt ∧ c.rv.toInt < 2 ^ 15
  num : 0 ≤ c.num.toInt ∧ c.num.toInt ≤ 3
  size : frozenLen + 4 * c.num.toInt + c.str.length ≤ pipeBuf

theorem LogbinCall.Fits.sized {c : LogbinCall} (h : c.Fits) : c.Sized := ⟨h.num, h.size⟩

/-- The header of the record of a call that lies at `p` in the buffer. -/
def logHeader (ctx : ThreadCtx) (env : LogEnv) (c : LogbinCall) (p : ℕ) : LogentryFrozen where
  tid := ctx.tid
  pid := ctx.pid.toUInt32
  cycleHigh := if ctx.fzHigh = 0 then toUint32 env.now.sec else ctx.fzHigh.toUInt32
  cycleLow := if ctx.fzLow = 0 then toUint32 env.now.usec else ctx.fzLow.toUInt32
  sc := c.sc.toInt16
  rv := c.rv.toInt16
  nm := env.progName.headD 0
  argLen := c.num.toInt8
  strLen := Int16.ofInt (toInt c.str.length)
  padding := ⟨ctx.lb.slice (p + 28) 4, Mem.length_slice ..⟩

/-- The arguments of a call that count. -/
def LogbinCall.args (c : LogbinCall) : List Int32 := [c.i₁, c.i₂, c.i₃].take c.num.toInt.toNat

namespace LogbinCall.Sized

variable {c : LogbinCall} (h : c.Sized)

include h

theorem length_str : c.str.length ≤ 4064 := by
  have h₁ := h.num
  have h₂ := h.size
  simp only [pipeBuf, frozenLen] at h₂
  omega

theorem toInt_slen : toInt c.str.length = c.str.length := by
  have := h.length_str
  exact toInt_natCast_lt (by omega)

theorem length_args : (c.args.length : ℤ) = c.num.toInt := by
  have h₁ := h.num
  simp only [args, List.length_take, List.length_cons, List.length_nil]
  omega

theorem toInt_argLen : c.num.toInt8.toInt = c.num.toInt := by
  have h₁ := h.num
  rw [Int32.toInt_toInt8, Int.bmod_def]
  omega

theorem toInt_strLen : (Int16.ofInt (toInt c.str.length)).toInt = c.str.length := by
  have := h.length_str
  rw [h.toInt_slen]
  exact Int16.toInt_ofInt_of_le (by omega) (by omega)

/-- The record of the call. -/
def record (ctx : ThreadCtx) (env : LogEnv) (p : ℕ) : Record where
  fz := logHeader ctx env c p
  args := c.args
  str := c.str.map underscored
  args_le := by
    have := h.length_args
    have := h.num
    omega
  argLen := by
    rw [h.length_args]
    exact h.toInt_argLen
  strLen := by
    rw [List.length_map]
    exact h.toInt_strLen

end LogbinCall.Sized

/-- The header of a record in the buffer, once `arg_len` and `str_len` are set. -/
def lbHeader (ctx : ThreadCtx) (env : LogEnv) (c : LogbinCall) (th : ℤ) :
    Except Fault (Mem Byte) := do
  let lb ← lbPopulate env ctx th c.sc c.rv
  let lb := lb.store (th.toNat + 25) [c.num.toInt8.toUInt8]
  return lb.store (th.toNat + 26) (int16Bytes (Int16.ofInt (toInt c.str.length)))

/-- The header is laid out where it is allocated, and nothing else changes. -/
theorem lbHeader_spec {env : LogEnv} {c : LogbinCall} {p : ℕ} (hp : p + frozenLen ≤ pipeBuf) :
    ∃ lb, lbHeader ctx env c p = .ok lb ∧ lb.slice p frozenLen = (logHeader ctx env c p).bytes ∧
      ∀ b n, b + n ≤ p → lb.slice b n = ctx.lb.slice b n := by
  have hb : 0 ≤ (p : ℤ) ∧ (p : ℤ) + frozenLen ≤ pipeBuf := by omega
  refine ⟨_, by simp only [lbHeader, lbPopulate, inBounds_of hb]; rfl, ?_, fun b n h => ?_⟩
  · rw [slice_fields, Int.toNat_natCast]
    simp (disch := first | rfl | (simp; done) | (simp; omega)) only
      [Mem.slice_store_of_disjoint, Mem.slice_store_eq]
    rfl
  · rw [Int.toNat_natCast]
    simp (disch := omega) only [Mem.slice_store_of_disjoint]

theorem setArg_of {p : ℕ} (lb : Mem Byte) (k : ℕ) (val : Int32)
    (h : p + frozenLen + 4 * k + 4 ≤ pipeBuf) :
    setArg lb p (k + 1) val = .ok (lb.store (p + frozenLen + 4 * k) (int32Bytes val)) := by
  have hw : (p : ℤ) + frozenLen + ((k + 1 : ℕ) - 1) * 4 = (p + frozenLen + 4 * k : ℕ) := by
    push_cast
    omega
  have hb : 0 ≤ ((p + frozenLen + 4 * k : ℕ) : ℤ) ∧
      ((p + frozenLen + 4 * k : ℕ) : ℤ) + 4 ≤ pipeBuf := by
    omega
  simp only [setArg, hw, inBounds_of hb, Int.toNat_natCast]
  rfl

/-- The arguments of a call are stored one behind the other. -/
theorem setArgs_spec {c : LogbinCall} (h : c.Sized) (lb : Mem Byte) {p : ℕ}
    (hp : p + frozenLen + 4 * c.num.toInt ≤ pipeBuf) :
    setArgs lb p c = .ok (lb.store (p + frozenLen) (c.args.flatMap int32Bytes)) := by
  have h₁ := h.num
  have hnil : lb.store (p + frozenLen) [] = lb := by
    funext i
    simp [Mem.store]
  have hcases : c.num.toInt = 0 ∨ c.num.toInt = 1 ∨ c.num.toInt = 2 ∨ c.num.toInt = 3 := by omega
  rw [LogbinCall.args]
  rcases hcases with hn | hn | hn | hn
  · simp [setArgs, hn, hnil]
  · have hset := setArg_of (p := p) lb 0 c.i₁ (by omega)
    simp [setArgs, hn, hset]
  · have hset := fun lb val => setArg_of (p := p) lb 0 val (by omega)
    have hset₁ := fun lb val => setArg_of (p := p) lb 1 val (by omega)
    simp only [setArgs, hn, Int.reduceLE, if_true, if_false, hset, hset₁, ok_bind]
    rw [Mem.store_store _ _ _ (by simp)]
    simp
  · have hset := fun lb val => setArg_of (p := p) lb 0 val (by omega)
    have hset₁ := fun lb val => setArg_of (p := p) lb 1 val (by omega)
    have hset₂ := fun lb val => setArg_of (p := p) lb 2 val (by omega)
    simp only [setArgs, hn, Int.reduceLE, if_true, hset, hset₁, hset₂, ok_bind]
    rw [Mem.store_store _ _ _ (by simp), Mem.store_store _ _ _ (by simp)]
    simp

/-- The string of a call that fits is stored behind its arguments. -/
theorem setStr_spec {c : LogbinCall} (h : c.Sized) {lb : Mem Byte} {p : ℕ}
    (hlb : lb (p + 25) = c.num.toInt8.toUInt8)
    (hp : p + frozenLen + 4 * c.num.toInt + c.str.length ≤ pipeBuf) :
    ∃ lb', setStr lb p c.str (toInt c.str.length) = .ok lb' ∧
      lb'.slice (p + frozenLen + 4 * c.args.length) c.str.length = c.str.map underscored ∧
      ∀ b n, b + n ≤ p + frozenLen + 4 * c.args.length → lb'.slice b n = lb.slice b n := by
  have h₁ := h.num
  have hlen := h.length_args
  have hw : (p : ℤ) + frozenLen + (lb ((p : ℤ).toNat + 25)).toInt8.toInt * 4 =
      (p + frozenLen + 4 * c.args.length : ℕ) := by
    rw [Int.toNat_natCast, hlb, Int8.toInt8_toUInt8, h.toInt_argLen]
    push_cast
    omega
  have hb : 0 ≤ ((p + frozenLen + 4 * c.args.length : ℕ) : ℤ) ∧ 0 ≤ (c.str.length : ℤ) ∧
      (c.str.length : ℤ) ≤ c.str.length ∧
      ((p + frozenLen + 4 * c.args.length : ℕ) : ℤ) + c.str.length ≤ pipeBuf := by
    push_cast
    omega
  refine ⟨_, by simp only [setStr, hw, h.toInt_slen, inBounds_of hb]; rfl, ?_, fun b n hn => ?_⟩
  · rw [Int.toNat_natCast, Int.toNat_natCast, List.take_length, Mem.slice_update,
      Mem.slice_store_self]
  · rw [Int.toNat_natCast, Mem.slice_update_of_disjoint _ _ (Or.inl hn),
      Mem.slice_store_of_disjoint _ _ (Or.inl hn)]

theorem LogbinCall.Sized.record_length {c : LogbinCall} (h : c.Sized) (ctx : ThreadCtx)
    (env : LogEnv) (p : ℕ) : (h.record ctx env p).bytes.length =
      frozenLen + 4 * c.args.length + c.str.length := by
  rw [Record.length_bytes, Record.restLen_eq, LogbinCall.Sized.record]
  simp only [List.length_map]
  omega

/-- **A record is laid out** in the bytes allocated for it, behind what the buffer holds. -/
theorem logbin_layout {c : LogbinCall} (h : c.Sized) (ctx : ThreadCtx) (env : LogEnv) {p : ℕ}
    (hp : p + frozenLen + 4 * c.num.toInt + c.str.length ≤ pipeBuf) :
    ∃ lb₁ lb₂ lb₃, lbHeader ctx env c p = .ok lb₁ ∧
      setStr lb₁ p c.str (toInt c.str.length) = .ok lb₂ ∧ setArgs lb₂ p c = .ok lb₃ ∧
      lb₃.slice 0 (p + (h.record ctx env p).bytes.length) =
        ctx.lb.slice 0 p ++ (h.record ctx env p).bytes := by
  have h₁ := h.num
  have hlen := h.length_args
  obtain ⟨lb₁, hlb₁, hhead, hframe₁⟩ :=
    @lbHeader_spec ctx env c p (by omega)
  have hnum : lb₁ (p + 25) = c.num.toInt8.toUInt8 := by
    have hfz := (thaw1_eq_iff lb₁ p).2 hhead
    have := congrArg LogentryFrozen.argLen hfz
    rw [← (lb₁ (p + 25)).toUInt8_toInt8]
    exact congrArg Int8.toUInt8 this
  obtain ⟨lb₂, hlb₂, hstr, hframe₂⟩ := setStr_spec h hnum hp
  refine ⟨lb₁, lb₂, _, hlb₁, hlb₂, setArgs_spec h lb₂ (by omega), ?_⟩
  have hargs : (c.args.flatMap int32Bytes).length = 4 * c.args.length :=
    Record.length_args_bytes _
  rw [h.record_length, show p + (frozenLen + 4 * c.args.length + c.str.length) =
      p + frozenLen + 4 * c.args.length + c.str.length by omega,
    Mem.slice_add, Mem.slice_add, Mem.slice_add, Nat.zero_add, Nat.zero_add, Nat.zero_add,
    Mem.slice_store_of_disjoint _ _ (Or.inl (by omega)),
    Mem.slice_store_of_disjoint _ _ (Or.inl (by omega)), Mem.slice_store_eq _ _ hargs,
    Mem.slice_store_of_disjoint _ _ (Or.inr (by omega)), hstr, hframe₂ _ _ (by omega),
    hframe₂ _ _ (by omega), hhead, hframe₁ _ _ (by omega)]
  simp only [Record.bytes, Record.rest, LogbinCall.Sized.record, List.append_assoc]

theorem logbinGen_eq (ctx : ThreadCtx) (env : LogEnv) (c : LogbinCall) :
    logbinGen ctx env c =
      lbAllocEntry env.writes ctx c.num.toInt (toInt c.str.length) >>= fun a =>
        lbHeader a.1 env c a.2.1 >>= fun lb =>
          setStr lb a.2.1 c.str (toInt c.str.length) >>= fun lb =>
            setArgs lb a.2.1 c >>= fun lb => .ok ({ a.1 with lb := lb }, a.2.2) := by
  simp only [logbinGen, lbHeader, bind_assoc, pure_bind]
  rfl

/-- Allocation flushes what the buffer holds or keeps it. -/
theorem lbAllocEntry_spec (hw : w.Moves) {c : LogbinCall} (h : c.Sized) (hctx : ctx.InBuffer) :
    ∃ (ctx' : ThreadCtx) (p : ℕ) (out : List Byte),
      lbAllocEntry w ctx c.num.toInt (toInt c.str.length) = .ok (ctx', p, out) ∧
      ctx'.lbptr = p + (frozenLen + 4 * c.num.toInt + c.str.length) ∧ ctx'.InBuffer ∧
      ctx'.pid = ctx.pid ∧ ctx'.tid = ctx.tid ∧
      out ++ ctx'.lb.slice 0 p = ctx.held := by
  have h₁ := h.num
  have h₂ := h.size
  have hsize : predictSize c.num.toInt (toInt c.str.length) =
      frozenLen + 4 * c.num.toInt + c.str.length := by
    rw [h.toInt_slen, predictSize, toInt_of_lt] <;> simp only [frozenLen, pipeBuf] at h₂ ⊢ <;> omega
  have hle : ¬ ((pipeBuf : ℤ) < predictSize c.num.toInt (toInt c.str.length)) := by omega
  rw [lbAllocEntry, lbAllocBytes, if_neg hle, hsize]
  by_cases hfull : (pipeBuf : ℤ) - 1 < ctx.lbptr + (frozenLen + 4 * c.num.toInt + c.str.length)
  · rw [if_pos hfull, lbFlush_spec hw hctx]
    refine ⟨_, 0, ctx.held, rfl, by simp, ⟨by simp only; omega, by simp only; omega⟩, rfl, rfl, ?_⟩
    simp
  · obtain ⟨p, hp⟩ : ∃ p : ℕ, ctx.lbptr = p := ⟨ctx.lbptr.toNat, by have := hctx.1; omega⟩
    rw [if_neg hfull]
    refine ⟨{ ctx with lbptr := ctx.lbptr + (frozenLen + 4 * c.num.toInt + c.str.length) }, p, [],
      by rw [← hp]; rfl, by simp only; omega, ⟨by simp only; omega, by simp only; omega⟩, rfl, rfl,
      ?_⟩
    rw [ThreadCtx.held, hp, Int.toNat_natCast, List.nil_append]

/-- The record logged by a call: what was asked for, under the ids of the thread. -/
structure Logged (pid : Int32) (tid : UInt64) (c : LogbinCall) (r : Record) : Prop where
  tid : r.fz.tid = tid
  pid : r.fz.pid = pid.toUInt32
  sc : r.fz.sc = c.sc.toInt16
  rv : r.fz.rv = c.rv.toInt16
  args : r.args = c.args
  str : r.str = c.str.map underscored

/-- **A log call** adds one record to what the log and the buffer hold together. -/
theorem logbinGen_spec {env : LogEnv} (hw : env.writes.Moves) {c : LogbinCall} (h : c.Sized)
    (hctx : ctx.InBuffer) :
    ∃ ctx' out r, logbinGen ctx env c = .ok (ctx', out) ∧ Logged ctx.pid ctx.tid c r ∧
      out ++ ctx'.held = ctx.held ++ r.bytes ∧ ctx'.InBuffer ∧ ctx'.pid = ctx.pid ∧
      ctx'.tid = ctx.tid := by
  obtain ⟨ctx₁, p, out, halloc, hptr, hin, hpid, htid, hheld⟩ := lbAllocEntry_spec hw h hctx
  have hle := hin.2
  obtain ⟨lb₁, lb₂, lb₃, hlb₁, hlb₂, hlb₃, hslice⟩ :=
    logbin_layout h ctx₁ env (p := p) (by omega)
  refine ⟨{ ctx₁ with lb := lb₃ }, out, h.record ctx₁ env p, ?_, ⟨htid, ?_, rfl, rfl, rfl, rfl⟩, ?_,
    hin, hpid, htid⟩
  · rw [logbinGen_eq, halloc, ok_bind]
    simp only [hlb₁, hlb₂, hlb₃, ok_bind]
  · rw [← hpid]
    rfl
  · have hn := h.num
    have hlen := h.length_args
    have hptr' : ctx₁.lbptr.toNat = p + (h.record ctx₁ env p).bytes.length := by
      rw [h.record_length]
      omega
    rw [ThreadCtx.held]
    simp only
    rw [hptr', hslice, ← List.append_assoc, hheld]

end BorderPatrol.Logd
