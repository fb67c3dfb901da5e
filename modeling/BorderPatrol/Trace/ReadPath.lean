import BorderPatrol.Foundations.Post
import BorderPatrol.Trace.Flow
import BorderPatrol.Trace.Vfd
import Mathlib.Tactic.Linarith

/-!
# The reading side refines a flow

`Rep v f base` says that the descriptor `v` holds the flow `f` from stream offset `base` on: the
valid bytes of `rbuf` are what has arrived since `base`, and each cursor is a position of the flow
moved by `base`. Every function of the read path is a sequence of operations of the flow
(`bufShift_spec`, `bufRet_spec`, `fetch_spec`, `presentPp_spec`), so a receive call is
(`recvOne_spec`) and so is any sequence of them (`recvRun_spec`).

What is known of the processor is a parameter: `Serves P s J E` says that the processor `P` keeps
an invariant `J` between the flow, the flag `ppwantmore`, its own data and its log, and that it
fails only with errors in `E`. The theorems about all well-behaved processors, and those about
one processor, are instances.
-/

namespace BorderPatrol.Trace

open Foundations

variable {σ : Type}

/-! ## Traces as moves of a flow -/

/-- The offset consumed up to after a trace begun at `t`. -/
def takenFrom : ℕ → List Event → ℕ
  | t, [] => t
  | t, .ppRead _ a :: tr => takenFrom (if a < 0 then t else t + a.toNat) tr
  | t, _ :: tr => takenFrom t tr

/-- The offsets the processor consumed up to in a trace begun at `t`. -/
def cutsFrom : ℕ → List Event → List ℕ
  | _, [] => []
  | t, .ppRead _ a :: tr =>
    if a < 0 then cutsFrom t tr else (t + a.toNat) :: cutsFrom (t + a.toNat) tr
  | t, _ :: tr => cutsFrom t tr

theorem takenFrom_append (t : ℕ) (t₁ t₂ : List Event) :
    takenFrom t (t₁ ++ t₂) = takenFrom (takenFrom t t₁) t₂ := by
  induction t₁ generalizing t with
  | nil => rfl
  | cons e t₁ ih => cases e <;> simp only [List.cons_append, takenFrom, ih]

theorem cutsFrom_append (t : ℕ) (t₁ t₂ : List Event) :
    cutsFrom t (t₁ ++ t₂) = cutsFrom t t₁ ++ cutsFrom (takenFrom t t₁) t₂ := by
  induction t₁ generalizing t with
  | nil => rfl
  | cons e t₁ ih =>
    cases e <;> simp only [List.cons_append, cutsFrom, takenFrom, ih]
    split <;> simp

@[simp] theorem takenFrom_logs (t : ℕ) (l : List LogCall) : takenFrom t (l.map .log) = t := by
  induction l with
  | nil => rfl
  | cons e l ih => simpa [takenFrom] using ih

@[simp] theorem cutsFrom_logs (t : ℕ) (l : List LogCall) : cutsFrom t (l.map .log) = [] := by
  induction l with
  | nil => rfl
  | cons e l ih => simpa [cutsFrom] using ih

@[simp] theorem kernelBytes_logs (l : List LogCall) : kernelBytes (l.map .log) = [] := by
  simp [kernelBytes]

@[simp] theorem logs_map_log (l : List LogCall) : logs (l.map .log) = l := by
  simp [logs, List.filterMap_map]

/-- The flow `f'` is the flow `f` after the trace `tr`, which gave the application `out` in the
spans `sp`. -/
structure Moves (f : Flow Byte) (tr : List Event) (out : List Byte) (sp : List (ℕ × ℕ))
    (f' : Flow Byte) : Prop where
  seen : f'.seen = f.seen ++ kernelBytes tr
  taken : f'.taken = takenFrom f.taken tr
  cuts : f'.cuts = f.cuts ++ cutsFrom f.taken tr
  given : f'.given = f.given + out.length
  out : f'.seen.take f'.given = f.seen.take f.given ++ out
  spans : f'.spans = f.spans ++ sp

theorem Moves.refl (f : Flow Byte) : Moves f [] [] [] f := by
  constructor <;> simp [takenFrom, cutsFrom]

theorem Moves.trans {f f₁ f₂ : Flow Byte} {t₁ t₂ : List Event} {o₁ o₂ : List Byte}
    {s₁ s₂ : List (ℕ × ℕ)} (h₁ : Moves f t₁ o₁ s₁ f₁) (h₂ : Moves f₁ t₂ o₂ s₂ f₂) :
    Moves f (t₁ ++ t₂) (o₁ ++ o₂) (s₁ ++ s₂) f₂ where
  seen := by rw [h₂.seen, h₁.seen, kernelBytes_append, List.append_assoc]
  taken := by rw [h₂.taken, h₁.taken, takenFrom_append]
  cuts := by rw [h₂.cuts, h₁.cuts, h₁.taken, cutsFrom_append, List.append_assoc]
  given := by rw [h₂.given, h₁.given, List.length_append, Nat.add_assoc]
  out := by rw [h₂.out, h₁.out, List.append_assoc]
  spans := by rw [h₂.spans, h₁.spans, List.append_assoc]

/-! ## The buffer holds the flow -/

/-- The descriptor `v` holds the flow `f` from offset `base` on. -/
structure Rep (v : Vfd σ) (f : Flow Byte) (base : ℕ) : Prop where
  len : v.rbuflen + base = f.seen.length
  ofs : v.rbufofs + base = f.taken
  last : v.rlastlen + base = f.given
  send : v.tosend + f.given = f.goal
  fits : v.rbuflen ≤ vbufsize
  ofs_nonneg : base ≤ f.taken
  last_nonneg : base ≤ f.given
  bytes : v.rbuf.slice 0 v.rbuflen.toNat = f.seen.drop base

/-- A range of the valid bytes is a range of the stream. -/
theorem Rep.slice {v : Vfd σ} {f : Flow Byte} {base : ℕ} (h : Rep v f base) {i n : ℕ}
    (hi : i + n ≤ v.rbuflen.toNat) : v.rbuf.slice i n = (f.seen.drop (base + i)).take n := by
  have hb := congrArg (fun l => (l.drop i).take n) h.bytes
  simp only [List.drop_drop] at hb
  rwa [Mem.drop_slice _ _ (by omega), Mem.take_slice _ _ (by omega), Nat.zero_add] at hb

/-- What a processor is shown: its valid bytes are those it has not consumed. -/
theorem Rep.rwindow {v : Vfd σ} {f : Flow Byte} {base : ℕ} (h : Rep v f base)
    (ht : f.taken ≤ f.seen.length) :
    (v.rwindow v.rbufofs).take f.pending.length = f.pending := by
  have h₁ := h.len
  have h₂ := h.ofs
  have h₃ := h.ofs_nonneg
  have h₄ := h.fits
  have hn : f.pending.length = f.seen.length - f.taken := List.length_drop
  rw [Vfd.rwindow, List.take_append_of_le_length (by rw [Mem.length_slice]; omega),
    Mem.take_slice _ _ (by omega), h.slice (by omega), Flow.pending,
    show base + v.rbufofs.toNat = f.taken by omega, List.take_of_length_le (by omega)]

theorem bufShift_of_ne {v : Vfd σ} (hb : min v.rbufofs v.rlastlen ≠ 0)
    (h : 0 ≤ min v.rbufofs v.rlastlen ∧ 0 ≤ v.rbuflen - min v.rbufofs v.rlastlen ∧
      v.rbuflen ≤ vbufsize) :
    bufShift v = .ok { v with
      rbuf := v.rbuf.move 0 (min v.rbufofs v.rlastlen).toNat
        (v.rbuflen - min v.rbufofs v.rlastlen).toNat
      rbufofs := v.rbufofs - min v.rbufofs v.rlastlen
      rbuflen := v.rbuflen - min v.rbufofs v.rlastlen
      rlastlen := v.rlastlen - min v.rbufofs v.rlastlen } := by
  simp only [bufShift, hb, if_false, inBounds_of h]
  rfl

/-- `buf_shift` changes where the flow lies in the buffer and nothing else. -/
theorem bufShift_spec {v : Vfd σ} {f : Flow Byte} {base : ℕ} (h : Rep v f base) (hf : f.Wf) :
    ∃ v' base', bufShift v = .ok v' ∧ Rep v' f base' ∧ v'.ppDispatcher = v.ppDispatcher ∧
      v'.ppData = v.ppData ∧ v'.ppwantmore = v.ppwantmore ∧ v'.tosend = v.tosend := by
  have hlen := h.len
  have hofs := h.ofs
  have hlast := h.last
  have hfits := h.fits
  have h₁ := h.ofs_nonneg
  have h₂ := h.last_nonneg
  have h₃ := hf.taken_le
  have h₄ := hf.goal_le
  have h₅ := hf.given_le
  by_cases hb : min v.rbufofs v.rlastlen = 0
  · exact ⟨v, base, by simp only [bufShift, hb, if_true]; rfl, h, rfl, rfl, rfl, rfl⟩
  · obtain ⟨d, hd⟩ : ∃ d : ℕ, min v.rbufofs v.rlastlen = d :=
      ⟨(min v.rbufofs v.rlastlen).toNat, by omega⟩
    refine ⟨_, base + d, bufShift_of_ne hb (by omega), ?_, rfl, rfl, rfl, rfl⟩
    have hd' : d ≤ v.rbuflen.toNat := by omega
    rw [hd]
    constructor
    · push_cast; omega
    · push_cast; omega
    · push_cast; omega
    · exact h.send
    · simp only; omega
    · omega
    · omega
    · simp only
      rw [show (v.rbuflen - (d : ℤ)).toNat = v.rbuflen.toNat - d by omega, Int.toNat_natCast]
      have hm := Mem.slice_move v.rbuf 0 d (n := v.rbuflen.toNat - d) (i := 0)
        (k := v.rbuflen.toNat - d) (by omega)
      rw [Nat.add_zero, Nat.add_zero] at hm
      rw [hm, h.slice (by omega), List.take_of_length_le (by rw [List.length_drop]; omega)]

theorem bufRet_of {v : Vfd σ} {outRequested n : ℕ} (h₁ : v.tosend ≠ 0) (h₂ : v.rlastlen < vbufsize)
    (hn : min (toInt outRequested) v.tosend = n)
    (h₃ : 0 ≤ v.rlastlen ∧ (0 : ℤ) ≤ n ∧ v.rlastlen + n ≤ vbufsize) :
    bufRet v outRequested = .ok {
      vfd := { v with rlastlen := v.rlastlen + n, tosend := v.tosend - n }
      ret := n
      out := v.rbuf.slice v.rlastlen.toNat n
      trace := []
      readable := some (v.rlastlen + n ≠ v.rbuflen) } := by
  simp only [bufRet, hn, cAssert_of h₁, cAssert_of h₂, inBounds_of h₃]
  simp only [Bind.bind, Except.bind]
  rw [cAssert_of (by omega), Int.toNat_natCast]
  rfl

/-- `buf_ret` gives the application the next bytes of the flow, as many as it asked for if the
goal allows. -/
theorem bufRet_spec {v : Vfd σ} {f : Flow Byte} {base : ℕ} (h : Rep v f base) (hf : f.Wf)
    (hg : f.given < f.goal) {len : ℕ} (hl : len < 2 ^ 31) :
    ∃ (g : Got σ) (n : ℕ), bufRet v len = .ok g ∧ n = min len (f.goal - f.given) ∧ g.ret = n ∧
      Rep g.vfd (f.deliver n) base ∧ g.out = (f.seen.drop f.given).take n ∧ g.out.length = n ∧
      g.trace = [] ∧ g.vfd.ppDispatcher = v.ppDispatcher ∧ g.vfd.ppData = v.ppData ∧
      g.vfd.ppwantmore = v.ppwantmore ∧
      g.readable = some (g.vfd.rlastlen ≠ g.vfd.rbuflen : Bool) := by
  have hlen := h.len
  have hlast := h.last
  have hsend := h.send
  have hfits := h.fits
  have h₂ := h.last_nonneg
  have h₄ := hf.goal_le
  have hint : toInt len = len := toInt_of_lt (by omega) (by omega)
  refine ⟨_, min len (f.goal - f.given), bufRet_of (by omega) (by omega) (by omega) (by omega),
    rfl, rfl, ?_, ?_, Mem.length_slice .., rfl, rfl, rfl, rfl, rfl⟩
  · constructor
    · exact h.len
    · exact h.ofs
    · simp only [Flow.deliver]; push_cast; omega
    · simp only [Flow.deliver]; push_cast; omega
    · exact h.fits
    · exact h.ofs_nonneg
    · simp only [Flow.deliver]; omega
    · exact h.bytes
  · simp only
    rw [h.slice (by omega), show base + v.rlastlen.toNat = f.given by omega]

theorem fetch_of {v v₁ : Vfd σ} (flags : ℤ) (k : Kernel) (hs : bufShift v = .ok v₁)
    (hv : v₁.rbuflen ≤ vbufsize) :
    fetch v flags k =
      let cap := (vbufsize - v₁.rbuflen).toNat
      let r := k flags cap
      .ok (if r.ret ≤ 0 then v₁ else { v₁ with
        rbuf := v₁.rbuf.store v₁.rbuflen.toNat r.bytes
        rbuflen := v₁.rbuflen + r.ret }, r.ret, .realRead flags cap r.ret r.bytes) := by
  simp only [fetch, hs, Bind.bind, Except.bind, inBounds_of hv]
  split <;> rfl

/-- The receive puts what the kernel returned behind what the flow has seen. -/
theorem fetch_spec {v : Vfd σ} {f : Flow Byte} {base : ℕ} (h : Rep v f base) (hf : f.Wf)
    (flags : ℤ) (k : Kernel) :
    ∃ v' b r ev base', fetch v flags k = .ok (v', r, ev) ∧ kernelBytes [ev] = b ∧
      (r ≤ 0 ∧ b = [] ∨ 0 < r ∧ b ≠ []) ∧ Rep v' (f.arrive b) base' ∧
      takenFrom f.taken [ev] = f.taken ∧ cutsFrom f.taken [ev] = [] ∧ logs [ev] = [] ∧
      v'.ppDispatcher = v.ppDispatcher ∧ v'.ppData = v.ppData ∧
      v'.ppwantmore = v.ppwantmore ∧ v'.tosend = v.tosend := by
  obtain ⟨v₁, base', hs, h₁, hd, hp, hw, ht⟩ := bufShift_spec h hf
  have hlen := h₁.len
  have hfits := h₁.fits
  have h₂ := h₁.last_nonneg
  have h₃ := hf.given_le
  have h₄ := hf.goal_le
  have hfetch := fetch_of flags k hs hfits
  set r := k flags (vbufsize - v₁.rbuflen).toNat with hr
  rcases r.fits with ⟨hle, hb⟩ | ⟨hpos, heq, hcap⟩
  · simp only [← hr, hle, if_true] at hfetch
    exact ⟨v₁, [], r.ret, _, base', hfetch, by simp [kernelBytes, hb], Or.inl ⟨hle, rfl⟩,
      by simpa [Flow.arrive] using h₁, rfl, rfl, rfl, hd, hp, hw, ht⟩
  · simp only [← hr, show ¬ r.ret ≤ 0 by omega, if_false] at hfetch
    refine ⟨_, r.bytes, r.ret, _, base', hfetch, by simp [kernelBytes], Or.inr ⟨hpos, ?_⟩, ?_, rfl,
      rfl, rfl, hd, hp, hw, ht⟩
    · intro hn
      rw [hn] at heq
      simp only [List.length_nil, Int.natCast_zero] at heq
      omega
    · have hn : (v₁.rbuflen + r.ret).toNat = v₁.rbuflen.toNat - 0 + r.bytes.length := by omega
      constructor
      · simp only [Flow.arrive, List.length_append]; push_cast; omega
      · exact h₁.ofs
      · exact h₁.last
      · exact h₁.send
      · simp only; omega
      · exact h₁.ofs_nonneg
      · exact h₁.last_nonneg
      · simp only [Flow.arrive]
        rw [hn, Mem.slice_store_append _ _ (Nat.zero_le _), Nat.sub_zero, h₁.bytes,
          List.drop_append_of_le_length (by omega)]

end BorderPatrol.Trace
