import BorderPatrol.Trace.Duplicates

/-!
# Peeking

A receive with `MSG_PEEK` leaves the queue of the kernel as it is. On a descriptor with a processor
it goes through the buffer like any other: the bytes that it hands out of the buffer are gone, and
those that it fetched and did not hand out are then in the buffer and in the queue. So nothing is
lost or doubled exactly when a peek finds nothing to hand out in the buffer, and hands out all that
it fetches (`peeks_keep_iff`).
-/

namespace BorderPatrol.Trace

open Foundations

variable {σ : Type}

/-! ## A socket that is peeked at -/

/-- `MSG_PEEK` -/
def msgPeek : ℤ := 2

/-- The queue of a socket in the kernel, of whose bytes the first `now` have come. A receive gets
the first of these, and the return value `err` when there are none. -/
def Kernel.queue (q : List Byte) (now : ℕ) (err : ℤ) : Kernel := fun _ c =>
  if h : ((q.take now).take c).length = 0 then ⟨min err 0, [], Or.inl ⟨min_le_right _ _, rfl⟩⟩
  else ⟨((q.take now).take c).length, (q.take now).take c,
    Or.inr ⟨by omega, rfl, List.length_take_le ..⟩⟩

/-- The receiving functions with flags. -/
inductive PeekFn
  | recv | recvfrom
  deriving DecidableEq, Repr

/-- A call of one, with `MSG_PEEK` or no flag, and what it meets in the kernel. -/
structure PeekCall where
  fn : PeekFn
  len : ℕ
  peek : Bool
  now : ℕ
  err : ℤ

/-- A process, and one of its sockets: the queue in the kernel, the bytes returned by the calls
without `MSG_PEEK`, and those returned by each call with it, behind the number of bytes returned
before without. -/
structure Peeked (σ : Type) where
  proc : Process σ
  queue : List Byte
  given : List Byte
  peeked : List (ℕ × List Byte)

namespace PeekCall

/-- The flags. -/
def flags (c : PeekCall) : ℤ := if c.peek then msgPeek else 0

/-- The kernel that the call meets. -/
def kernel (c : PeekCall) (q : List Byte) : Kernel := Kernel.queue q c.now c.err

/-- The call on descriptor `s`. -/
def run (c : PeekCall) (p : Process σ) (s : ℤ) (q : List Byte) : Except Fault (Reply σ) :=
  match c.fn with
  | .recv => recv p s c.len c.flags (c.kernel q)
  | .recvfrom => recvfrom p s c.len c.flags (c.kernel q)

end PeekCall

namespace Peeked

/-- The socket after a call. The kernel removes what it returned, unless it was peeked at. -/
def step (s : ℤ) (d : Peeked σ) (c : PeekCall) : Except Fault (Peeked σ) := do
  let r ← c.run d.proc s d.queue
  if c.peek then
    return { d with proc := r.proc, peeked := d.peeked ++ [(d.given.length, r.out)] }
  else
    return { d with
      proc := r.proc
      queue := d.queue.drop (kernelBytes r.trace).length
      given := d.given ++ r.out }

/-- Before the first call. -/
def start (p : Process σ) (stream : List Byte) : Peeked σ := ⟨p, stream, [], []⟩

/-- The bytes returned without `MSG_PEEK` are the first of the stream, and those returned by a call
with it are the first of what remained of the stream then. -/
def Right (stream : List Byte) (d : Peeked σ) : Prop :=
  d.given <+: stream ∧ ∀ x ∈ d.peeked, x.2 <+: stream.drop x.1

/-- What waits in the buffer and what is in the queue are the rest of the stream. -/
def Kept (stream : List Byte) (s : ℤ) (d : Peeked σ) : Prop :=
  d.given ++ ((d.proc.vfdTab s).unread ++ d.queue) = stream

end Peeked

/-- The buffer, with all that is in use moved to its beginning. -/
def Vfd.shifted (v : Vfd σ) : Vfd σ :=
  let begin' := min v.rbufofs v.rlastlen
  if begin' = 0 then v
  else { v with
    rbuf := v.rbuf.move 0 begin'.toNat (v.rbuflen - begin').toNat
    rbufofs := v.rbufofs - begin'
    rbuflen := v.rbuflen - begin'
    rlastlen := v.rlastlen - begin' }

/-- The bytes that the kernel returns for the room behind it. -/
def Vfd.returned (v : Vfd σ) (flags : ℤ) (k : Kernel) : List Byte :=
  (k flags (vbufsize - v.shifted.rbuflen).toNat).bytes

/-- The buffer with the bytes `b` there. -/
def Vfd.stored (v : Vfd σ) (b : List Byte) : Vfd σ :=
  { v.shifted with
    rbuf := v.shifted.rbuf.store v.shifted.rbuflen.toNat b
    rbuflen := v.shifted.rbuflen + b.length }

/-- `v'` is the descriptor when the processor has been shown the bytes that it has not consumed, and
has answered. -/
def Vfd.Answered (v : Vfd σ) (s : ℤ) (v' : Vfd σ) : Prop :=
  ∃ P a d l, v.ppDispatcher = some P ∧
    P.ppRead v.ppData s (v.rwindow v.rbufofs) (v.rbuflen - v.rbufofs) = .ok (a, d, l) ∧
    v' = (ppAnswered v (v.rbuflen - v.rbufofs) a d l).1

/-- Where the kernel returns bytes, what is left behind the piece that may be handed out by the
answer to them, and is asked for, is what waited before. (When nothing waited before, this piece is
all that the kernel returned.) -/
def Vfd.RefillKeeps (v : Vfd σ) (s : ℤ) (len : ℕ) (flags : ℤ) (k : Kernel) : Prop :=
  v.returned flags k ≠ [] → ∀ v', (v.stored (v.returned flags k)).Answered s v' →
    (v.unread ++ v.returned flags k).drop (min (toInt len) v'.tosend).toNat = v.unread

/-- A peek finds nothing that it may hand out in the buffer, also when the processor has answered to
what it can still work with, or is asked for nothing; and what the kernel returns is handed out. -/
def Vfd.PeekKeeps (v : Vfd σ) (s : ℤ) (len : ℕ) (flags : ℤ) (k : Kernel) : Prop :=
  if v.tosend ≠ 0 then toInt len = 0
  else if v.rbufofs < v.rbuflen ∧ v.ppwantmore = 0 then
    ∀ v', v.Answered s v' →
      if v'.tosend ≠ 0 then toInt len = 0 else v'.RefillKeeps s len flags k
  else v.RefillKeeps s len flags k

/-! ## What a call leaves in the buffer -/

variable {v : Vfd σ} {g : Got σ} {s : ℤ} {len : ℕ} {flags : ℤ} {k : Kernel} {checked : Bool}

/-- The length of a piece. -/
theorem bufRet_length (v : Vfd σ) (len : ℕ) :
    Post (bufRet v len) (fun g => v.tosend ≠ 0 ∧ 0 ≤ min (toInt len) v.tosend ∧
      g.out.length = (min (toInt len) v.tosend).toNat) AnyFault := by
  unfold bufRet
  refine (cAssert_post fun _ => trivial).bind fun _ hsend => ?_
  refine (cAssert_post fun _ => trivial).bind fun _ _ => ?_
  refine (inBounds_post fun _ => trivial).bind fun _ hin => ?_
  refine (cAssert_post fun _ => trivial).bind fun _ _ => ?_
  exact ⟨hsend, hin.2.1, Mem.length_slice ..⟩

/-- What waits after a piece was handed out. -/
theorem bufRet_unread (h : v.Bounded) (hg : bufRet v len = .ok g)
    (hofs : g.vfd.rbufofs ≤ g.vfd.rbuflen) :
    g.vfd.unread = v.unread.drop (min (toInt len) v.tosend).toNat := by
  obtain ⟨-, -, hlen⟩ := (bufRet_length v len).of_eq_ok hg
  obtain ⟨⟨-, hbytes⟩, -⟩ := (bufRet_carries h len).of_eq_ok hg hofs
  rw [List.append_nil] at hbytes
  rw [hbytes, ← hlen, List.drop_left]

/-- A piece of the buffer leaves what waits as it is only if no bytes are asked for. -/
theorem bufRet_keeps_iff (h : v.Bounded) (hg : bufRet v len = .ok g)
    (hofs : g.vfd.rbufofs ≤ g.vfd.rbuflen) : g.vfd.unread = v.unread ↔ toInt len = 0 := by
  obtain ⟨hsend, hge, hlen⟩ := (bufRet_length v len).of_eq_ok hg
  obtain ⟨⟨-, hbytes⟩, -⟩ := (bufRet_carries h len).of_eq_ok hg hofs
  rw [List.append_nil] at hbytes
  have hzero : toInt len = 0 ↔ g.out.length = 0 := by omega
  rw [hzero, List.length_eq_zero_iff, hbytes]
  exact List.self_eq_append_left

/-- A receive returns what the kernel answered at the capacity it was offered. -/
theorem fetch_answer {v' : Vfd σ} {r : ℤ} {ev : Event} (h : fetch v flags k = .ok (v', r, ev)) :
    ∃ cap, r = (k flags cap).ret ∧ kernelBytes [ev] = (k flags cap).bytes := by
  unfold fetch at h
  obtain ⟨v₁, -, h⟩ := bind_eq_ok h
  obtain ⟨u, -, h⟩ := bind_eq_ok h
  refine ⟨(vbufsize - v₁.rbuflen).toNat, ?_⟩
  simp only at h
  split at h
  · cases h
    exact ⟨rfl, by simp [kernelBytes]⟩
  · cases h
    exact ⟨rfl, by simp [kernelBytes]⟩

theorem bufShift_shifted (h : v.Ordered) : bufShift v = .ok v.shifted := by
  have hlast := h.last
  have hofs := h.ofs
  have hle := h.ofs_le
  have hfits := h.fits
  by_cases hb : min v.rbufofs v.rlastlen = 0
  · rw [bufShift, Vfd.shifted]
    simp only [if_pos hb]
    rfl
  · rw [bufShift_of_ne hb ⟨by omega, by omega, hfits⟩, Vfd.shifted]
    simp only [if_neg hb]

theorem Vfd.Ordered.shifted (h : v.Ordered) : v.shifted.Ordered :=
  ((bufShift_carries h).of_eq_ok (bufShift_shifted h)).1

/-- A receive stores what the kernel returns. -/
theorem fetch_returned (h : v.Ordered) {v₂ : Vfd σ} {r : ℤ} {ev : Event}
    (hfetch : fetch v flags k = .ok (v₂, r, ev)) :
    kernelBytes [ev] = v.returned flags k ∧
      (r ≤ 0 ∧ v.returned flags k = [] ∨
        0 < r ∧ v.returned flags k ≠ [] ∧ v₂ = v.stored (v.returned flags k)) := by
  rw [fetch, bufShift_shifted h, ok_bind] at hfetch
  obtain ⟨u, -, hfetch⟩ := bind_eq_ok hfetch
  simp only at hfetch
  have hfits := (k flags (vbufsize - v.shifted.rbuflen).toNat).fits
  split at hfetch
  · next hret =>
    cases hfetch
    refine ⟨by simp [kernelBytes, Vfd.returned], .inl ⟨hret, ?_⟩⟩
    rcases hfits with ⟨-, hnil⟩ | ⟨hpos, -⟩
    · exact hnil
    · omega
  · next hret =>
    cases hfetch
    refine ⟨by simp [kernelBytes, Vfd.returned], .inr ⟨not_le.1 hret, ?_⟩⟩
    rcases hfits with ⟨hneg, -⟩ | ⟨hpos, hlen, -⟩
    · omega
    · refine ⟨fun hnil => ?_, by rw [Vfd.stored, Vfd.returned, hlen]⟩
      rw [Vfd.returned, ← List.length_eq_zero_iff] at hnil
      omega

/-- What is stored comes behind what waits. -/
theorem fetch_stored (h : v.Ordered) {v₂ : Vfd σ} {r : ℤ} {ev : Event}
    (hfetch : fetch v flags k = .ok (v₂, r, ev)) :
    (r ≤ 0 ∧ v.returned flags k = [] ∧ v₂.unread = v.unread) ∨
      (0 < r ∧ v.returned flags k ≠ [] ∧ v₂ = v.stored (v.returned flags k) ∧ v₂.Ordered ∧
        v₂.unread = v.unread ++ v.returned flags k) := by
  obtain ⟨hord, hunread⟩ := (fetch_carries h flags k).of_eq_ok hfetch
  obtain ⟨hbytes, hcase⟩ := fetch_returned h hfetch
  simp only at hord hunread
  rw [hbytes] at hunread
  rcases hcase with ⟨hr, hnil⟩ | ⟨hr, hne, hstored⟩
  · rw [hnil, List.append_nil] at hunread
    exact .inl ⟨hr, hnil, hunread⟩
  · exact .inr ⟨hr, hne, hstored, hord, hunread⟩

/-- Where there is something to show, the processor is asked. -/
theorem answered_iff (hne : v.rbuflen - v.rbufofs ≠ 0) {v' : Vfd σ} :
    v.Answered s v' ↔ ∃ tr, presentPp v s = .ok (v', tr) := by
  constructor
  · rintro ⟨P, a, d, l, hP, hread, rfl⟩
    refine ⟨(ppAnswered v (v.rbuflen - v.rbufofs) a d l).2, ?_⟩
    rw [presentPp]
    simp only [if_neg hne, hP, hread, ok_bind]
    rfl
  · rintro ⟨tr, hpres⟩
    rw [presentPp] at hpres
    simp only [if_neg hne] at hpres
    rcases hP : v.ppDispatcher with _ | P
    · rw [hP] at hpres
      cases hpres
    · rw [hP] at hpres
      obtain ⟨⟨a, d, l⟩, hread, hret⟩ := bind_eq_ok hpres
      exact ⟨P, a, d, l, hP, hread, congrArg Prod.fst (Except.ok.inj hret).symm⟩

/-- When a piece of what the kernel returns is handed out, the answer to it decides. -/
theorem refill_keeps_iff (h : v.Ordered) (hg : refill checked v s len flags k = .ok g)
    (hofs : g.vfd.rbufofs ≤ g.vfd.rbuflen) :
    g.vfd.unread = v.unread ↔ v.RefillKeeps s len flags k := by
  unfold refill at hg
  obtain ⟨u, -, hg⟩ := bind_eq_ok hg
  obtain ⟨⟨v₂, r, ev⟩, hfetch, hg⟩ := bind_eq_ok hg
  rcases fetch_stored h hfetch with ⟨hr, hnil, hunread⟩ | ⟨hr, hne, hstored, hord, hunread⟩
  · -- the kernel returned nothing
    simp only [if_pos hr] at hg
    cases hg
    exact iff_of_true hunread fun hne => absurd hnil hne
  · simp only [if_neg (not_le.2 hr)] at hg
    obtain ⟨⟨v₃, tr⟩, hpres, hg⟩ := bind_eq_ok hg
    obtain ⟨u', -, hg⟩ := bind_eq_ok hg
    obtain ⟨g', hg', hg⟩ := bind_eq_ok hg
    cases hg
    obtain ⟨hbounded, hunread₃, -⟩ := (presentPp_carries hord s).of_eq_ok hpres
    have hleft := bufRet_unread hbounded hg' hofs
    simp only at hunread₃ hleft
    rw [hunread₃, hunread] at hleft
    have hshown : v₂.rbuflen - v₂.rbufofs ≠ 0 := by
      have hle := h.shifted.ofs_le
      have hlen := List.length_pos_of_ne_nil hne
      have hlen₂ : v₂.rbuflen = v.shifted.rbuflen + (v.returned flags k).length := by
        rw [hstored, Vfd.stored]
      have hofs₂ : v₂.rbufofs = v.shifted.rbufofs := by rw [hstored, Vfd.stored]
      omega
    have hanswered := (answered_iff hshown).2 ⟨tr, hpres⟩
    rw [hstored] at hanswered
    simp only [hleft]
    constructor
    · intro heq _ v' hv'
      rw [← hstored, answered_iff hshown] at hv'
      obtain ⟨tr', hpres'⟩ := hv'
      cases hpres.symm.trans hpres'
      exact heq
    · exact fun hall => hall hne v₃ hanswered

/-- **One call** leaves what waits in the buffer as it is if and only if it meets the condition. -/
theorem virtualGet_keeps_iff (h : v.Ordered) (hg : virtualGet checked v s len flags k = .ok g)
    (hofs : g.vfd.rbufofs ≤ g.vfd.rbuflen) :
    g.vfd.unread = v.unread ↔ v.PeekKeeps s len flags k := by
  unfold virtualGet at hg
  rw [Vfd.PeekKeeps]
  split at hg
  · next hsend => rw [if_pos hsend, bufRet_keeps_iff h.toBounded hg hofs]
  · next hsend =>
    rw [if_neg hsend]
    split at hg
    · next hcan =>
      obtain ⟨⟨v₁, tr⟩, hpres, hg⟩ := bind_eq_ok hg
      obtain ⟨hbounded, hunread, -, hord⟩ := (presentPp_carries h s).of_eq_ok hpres
      simp only at hg hbounded hunread hord
      -- the processor has one answer
      have hanswer : ∀ v', v.Answered s v' ↔ v' = v₁ := by
        intro v'
        rw [answered_iff (by omega)]
        constructor
        · rintro ⟨tr', hpres'⟩
          cases hpres.symm.trans hpres'
          rfl
        · rintro rfl
          exact ⟨tr, hpres⟩
      simp only [if_pos hcan, hanswer, forall_eq]
      split at hg
      · next hsend₁ =>
        obtain ⟨g', hg', hg⟩ := bind_eq_ok hg
        cases hg
        rw [if_pos hsend₁, ← hunread, bufRet_keeps_iff hbounded hg' hofs]
      · next hsend₁ =>
        obtain ⟨g', hg', hg⟩ := bind_eq_ok hg
        cases hg
        rw [if_neg hsend₁, ← hunread, refill_keeps_iff (hord (not_not.1 hsend₁)) hg' hofs]
    · next hcan => rw [if_neg hcan, refill_keeps_iff h hg hofs]

/-! ## What a call takes from the queue -/

variable {q : List Byte} {now : ℕ} {err : ℤ}

theorem Kernel.queue_prefix (q : List Byte) (now : ℕ) (err flags : ℤ) (cap : ℕ) :
    (Kernel.queue q now err flags cap).bytes <+: q := by
  unfold Kernel.queue
  split
  · exact List.nil_prefix
  · exact (List.take_prefix ..).trans (List.take_prefix ..)

theorem refill_queue (checked : Bool) (v : Vfd σ) (s : ℤ) (len : ℕ) (flags : ℤ) :
    Post (refill checked v s len flags (Kernel.queue q now err))
      (fun g => kernelBytes g.trace <+: q) AnyFault := by
  unfold refill
  refine (anyFault_post _).bind fun _ _ => ?_
  rcases hfetch : fetch v flags (Kernel.queue q now err) with e | ⟨v₂, r, ev⟩
  · trivial
  obtain ⟨cap, -, hbytes⟩ := fetch_answer hfetch
  have hpre : kernelBytes [ev] <+: q := hbytes ▸ Kernel.queue_prefix ..
  rw [ok_bind]
  dsimp only
  split
  · exact hpre
  · refine (presentPp_kernelBytes v₂ s).bind fun p hp => ?_
    refine (anyFault_post _).bind fun _ _ => ?_
    refine (bufRet_kernelBytes p.1 len (ev :: p.2)).mono fun g hg => ?_
    rwa [hg, ← List.singleton_append, kernelBytes_append, hp, List.append_nil]

/-- The bytes that the kernel returns in a call are the first of its queue. -/
theorem virtualGet_queue (checked : Bool) (v : Vfd σ) (s : ℤ) (len : ℕ) (flags : ℤ) :
    Post (virtualGet checked v s len flags (Kernel.queue q now err))
      (fun g => kernelBytes g.trace <+: q) AnyFault := by
  unfold virtualGet
  split
  · refine (bufRet_trace v len).mono fun g hg => ?_
    rw [hg]
    exact List.nil_prefix
  · split
    · refine (presentPp_kernelBytes v s).bind ?_
      rintro ⟨v₁, tr⟩ htr
      simp only at htr ⊢
      split
      · refine (bufRet_kernelBytes v₁ len tr).mono fun g hg => ?_
        rw [hg, htr]
        exact List.nil_prefix
      · refine (refill_queue checked v₁ s len flags).bind fun g hg => ?_
        rwa [Post.pure_iff, kernelBytes_append, htr, List.nil_append]
    · exact refill_queue checked v s len flags

/-! ## Runs -/

variable {p : Process σ} {stream : List Byte} {d d' : Peeked σ} {c : PeekCall}

/-- A call without `MSG_PEEK`, or one with it that leaves what waits in the buffer. -/
def Peeked.Keeps (s : ℤ) (d : Peeked σ) (c : PeekCall) : Prop :=
  c.peek = true → (d.proc.vfdTab s).PeekKeeps s c.len c.flags (c.kernel d.queue)

/-- The descriptor has a processor, and its cursors are in order. -/
structure Peeked.Ready (s : ℤ) (d : Peeked σ) : Prop where
  disp : (d.proc.vfdTab s).ppDispatcher.isSome = true
  ordered : (d.proc.vfdTab s).Ordered

/-- A call that goes through: it hands out the next bytes of the buffer and the queue, and what
waits in the buffer after it is what waited before exactly when it meets the condition. -/
theorem PeekCall.run_spec (hs : 0 ≤ s ∧ s < maxFds) (h : d.Ready s) {r : Reply σ}
    (hr : c.run d.proc s d.queue = .ok r) :
    Peeked.Ready s { d with proc := r.proc } ∧ kernelBytes r.trace <+: d.queue ∧
      (d.proc.vfdTab s).unread ++ kernelBytes r.trace = r.out ++ (r.proc.vfdTab s).unread ∧
      ((r.proc.vfdTab s).unread = (d.proc.vfdTab s).unread ↔
        (d.proc.vfdTab s).PeekKeeps s c.len c.flags (c.kernel d.queue)) := by
  obtain ⟨begin', end', heq⟩ : ∃ begin' end', c.run d.proc s d.queue =
      wrapReceive (fun v => virtualGet false v s c.len c.flags (c.kernel d.queue)) begin' end'
        d.proc s c.len c.flags (c.kernel d.queue) := by
    unfold PeekCall.run
    cases c.fn with
    | recv => exact ⟨_, _, rfl⟩
    | recvfrom => exact ⟨_, _, rfl⟩
  rw [heq] at hr
  obtain ⟨g, hg, hofs, htab, hout, htrace⟩ := wrapReceive_ok hs h.disp hr
  have hself : r.proc.vfdTab s = g.vfd := by rw [htab, Function.update_self]
  obtain ⟨hbounded, hbytes⟩ :=
    (virtualGet_carries false h.ordered s c.len c.flags (c.kernel d.queue)).of_eq_ok hg hofs
  have hdisp := (virtualGet_marks false (d.proc.vfdTab s) s c.len c.flags _).of_eq_ok hg |>.disp
  have hqueue := (virtualGet_queue false (d.proc.vfdTab s) s c.len c.flags).of_eq_ok hg
  refine ⟨⟨?_, ?_⟩, ?_, ?_, ?_⟩
  · simp only [hself, hdisp, h.disp]
  · simp only [hself]
    exact ⟨hbounded, hofs⟩
  · rwa [htrace]
  · rw [htrace, hout, hself, hbytes]
  · rw [hself]
    exact virtualGet_keeps_iff h.ordered hg hofs

/-- The bytes that a call hands out are the first of the rest of the stream. -/
theorem Peeked.Kept.out_prefix (hkept : d.Kept stream s) {got out left : List Byte}
    (hgot : got <+: d.queue) (hbytes : (d.proc.vfdTab s).unread ++ got = out ++ left) :
    ∃ rest, d.queue = got ++ rest ∧ d.given ++ (out ++ (left ++ rest)) = stream := by
  obtain ⟨rest, hrest⟩ := hgot
  refine ⟨rest, hrest.symm, ?_⟩
  rw [← hkept, ← hrest, ← List.append_assoc out, ← hbytes, List.append_assoc]

/-- **One call** keeps the stream if and only if it meets the condition. -/
theorem peek_step (hs : 0 ≤ s ∧ s < maxFds) (h : d.Ready s)
    (hq : d.Right stream ∧ d.Kept stream s) (hd : d.step s c = .ok d') :
    d'.Ready s ∧ (d'.Right stream ∧ d'.Kept stream s ↔ d.Keeps s c) := by
  obtain ⟨⟨hgiven, hpeeked⟩, hkept⟩ := hq
  obtain ⟨r, hr, hd⟩ := bind_eq_ok hd
  obtain ⟨hready, hqueue, hbytes, hiff⟩ := PeekCall.run_spec hs h hr
  obtain ⟨rest, hrest, hstream⟩ := hkept.out_prefix hqueue hbytes
  split at hd
  · next hpeek =>
    cases hd
    refine ⟨⟨hready.disp, hready.ordered⟩, ?_⟩
    rw [Peeked.Keeps, ← hiff]
    have hout : r.out <+: stream.drop d.given.length := by
      rw [← hstream, List.drop_left]
      exact List.prefix_append ..
    have hright : Peeked.Right stream
        { d with proc := r.proc, peeked := d.peeked ++ [(d.given.length, r.out)] } := by
      refine ⟨hgiven, fun x hx => ?_⟩
      rcases List.mem_append.1 hx with hx | hx
      · exact hpeeked x hx
      · rw [List.mem_singleton.1 hx]
        exact hout
    constructor
    · rintro ⟨-, hkept'⟩ -
      have heq : d.given ++ ((r.proc.vfdTab s).unread ++ d.queue) =
          d.given ++ ((d.proc.vfdTab s).unread ++ d.queue) := hkept'.trans hkept.symm
      exact List.append_cancel_right (List.append_cancel_left heq)
    · intro heq
      refine ⟨hright, ?_⟩
      change d.given ++ ((r.proc.vfdTab s).unread ++ d.queue) = stream
      rw [heq hpeek]
      exact hkept
  · next hpeek =>
    cases hd
    refine ⟨⟨hready.disp, hready.ordered⟩, iff_of_true ⟨⟨?_, hpeeked⟩, ?_⟩ fun h => absurd h hpeek⟩
    · refine ⟨(r.proc.vfdTab s).unread ++ rest, ?_⟩
      rw [← hstream, List.append_assoc]
    · change d.given ++ r.out ++ ((r.proc.vfdTab s).unread ++ d.queue.drop _) = stream
      rw [hrest, List.drop_left, List.append_assoc, hstream]

/-- **Peeking.** In any run of `recv` and `recvfrom`, with `MSG_PEEK` or without, what is returned
is right and nothing of the stream is lost or doubled in the buffer and the queue, if and only if
every call with `MSG_PEEK` leaves what waits in the buffer. -/
theorem peeks_keep_iff (h : Opened p s) (stream : List Byte) (cs : List PeekCall) :
    Always (Peeked.step s) (Peeked.start p stream) cs
        (fun d => d.Right stream ∧ d.Kept stream s) ↔
      Along (Peeked.step s) (Peeked.start p stream) cs (Peeked.Keeps s) := by
  refine always_iff_along (I := Peeked.Ready s) ⟨h.disp, h.fresh.ordered⟩ ?_ ?_
  · refine ⟨⟨List.nil_prefix, fun x hx => absurd hx List.not_mem_nil⟩, ?_⟩
    rw [Peeked.Kept, Peeked.start, h.fresh.unread_eq]
    rfl
  · intro d c d' hready hq hd
    exact peek_step h.fd hready hq hd

/-- A client's start-up message is peeked at with a length, and then received. -/
def peekThenRecv (len : ℕ) : List PeekCall := [⟨.recv, len, true, 8, 0⟩, ⟨.recv, 8, false, 8, 0⟩]

/-- When all of it is peeked at, the whole message is received. -/
theorem peeks_keep_iff_wholeMessage :
    Always (Peeked.step 5) (Peeked.start psqlServer startup) (peekThenRecv 8)
        (fun d => d.Right startup ∧ d.Kept startup 5) ↔
      Along (Peeked.step 5) (Peeked.start psqlServer startup) (peekThenRecv 8) (Peeked.Keeps 5) :=
  peeks_keep_iff opened_psqlServer startup (peekThenRecv 8)

/-- When four of its eight bytes are peeked at, the other four are received as the first. -/
theorem peek_consumes :
    ¬ Always (Peeked.step 5) (Peeked.start psqlServer startup) (peekThenRecv 4)
      (Peeked.Right startup) := by
  intro h
  have hbytes : (runSteps (Peeked.step 5) (Peeked.start psqlServer startup)
      (peekThenRecv 4)).toOption.map Peeked.given = some [0, 3, 0, 0] := by decide +kernel
  rcases hrun : runSteps (Peeked.step 5) (Peeked.start psqlServer startup) (peekThenRecv 4)
    with e | d
  · rw [hrun] at hbytes
    cases hbytes
  · rw [hrun] at hbytes
    have hgiven : d.given = [0, 3, 0, 0] := Option.some_inj.1 hbytes
    obtain ⟨hpre, -⟩ := h (peekThenRecv 4) (List.prefix_refl _) d hrun
    rw [hgiven] at hpre
    revert hpre
    decide

end BorderPatrol.Trace
