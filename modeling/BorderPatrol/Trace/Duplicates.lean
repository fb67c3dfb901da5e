import BorderPatrol.Foundations.Runs
import BorderPatrol.Trace.Readiness
import BorderPatrol.Trace.Sockets
import Mathlib.Data.Finset.Basic

/-!
# Duplicates of a descriptor

A socket with several descriptors. One of them has a processor, and is read through a buffer; a
duplicate has neither, and is read straight from the kernel. A call through the buffer hands the
application the next of the bytes that were received, whatever the processor answers
(`receive_carries`). The stream goes on over all descriptors exactly when no bytes are waiting in
the buffer when another descriptor is read, and none when it is given up (`dup_keeps_iff`).
-/

namespace BorderPatrol.Trace

open Foundations

variable {σ : Type}

/-! ## The bytes that wait in a buffer -/

/-- The bytes received and not yet given to the application. -/
def Vfd.unread (v : Vfd σ) : List Byte :=
  v.rbuf.slice v.rlastlen.toNat (v.rbuflen - v.rlastlen).toNat

/-- The cursors lie in the buffer, and do so in order when the processor did not claim more than it
was shown. -/
structure Vfd.Bounded (v : Vfd σ) : Prop where
  last : 0 ≤ v.rlastlen ∧ v.rlastlen ≤ v.rbuflen
  ofs : 0 ≤ v.rbufofs
  fits : v.rbuflen ≤ vbufsize
  send : v.rbufofs ≤ v.rbuflen → v.rlastlen + v.tosend ≤ v.rbuflen

/-- The cursors between calls. -/
structure Vfd.Ordered (v : Vfd σ) : Prop extends v.Bounded where
  ofs_le : v.rbufofs ≤ v.rbuflen

/-- What `v'` still has to give, after the bytes `out` were given and the kernel returned `got`. -/
structure Carries (v : Vfd σ) (got out : List Byte) (v' : Vfd σ) : Prop where
  bounded : v'.Bounded
  bytes : v.unread ++ got = out ++ v'.unread

variable {v v' : Vfd σ}

theorem Vfd.Fresh.ordered (h : v.Fresh) : v.Ordered := by
  obtain ⟨h₁, h₂, h₃, h₄, -⟩ := h
  refine ⟨⟨by omega, by omega, ?_, by omega⟩, by omega⟩
  rw [h₁]
  exact Int.natCast_nonneg vbufsize

theorem Vfd.Fresh.unread_eq (h : v.Fresh) : v.unread = [] := by
  obtain ⟨h₁, -, h₃, -⟩ := h
  rw [Vfd.unread, h₁, h₃]
  rfl

/-- A piece that `buf_ret` gives is the first of what waits. -/
theorem bufRet_carries (h : v.Bounded) (len : ℕ) :
    Post (bufRet v len) (fun g => g.vfd.rbufofs ≤ g.vfd.rbuflen →
      Carries v [] g.out g.vfd ∧ g.trace = []) AnyFault := by
  unfold bufRet
  refine (cAssert_post fun _ => trivial).bind fun _ _ => ?_
  refine (cAssert_post fun _ => trivial).bind fun _ _ => ?_
  refine (inBounds_post fun _ => trivial).bind fun _ hin => ?_
  refine (cAssert_post fun _ => trivial).bind fun _ _ => ?_
  intro hofs
  have hsend := h.send hofs
  have hlast := h.last
  obtain ⟨n, hn⟩ : ∃ n : ℕ, min (toInt len) v.tosend = n := ⟨(min (toInt len) v.tosend).toNat,
    by omega⟩
  have hle : (n : ℤ) ≤ v.tosend := by omega
  simp only [hn] at hofs ⊢
  refine ⟨⟨⟨⟨by simp only; omega, by simp only; omega⟩, h.ofs, h.fits,
    fun _ => by simp only; omega⟩, ?_⟩, trivial⟩
  rw [Vfd.unread, Vfd.unread, List.append_nil, Int.toNat_natCast]
  simp only
  rw [show (v.rbuflen - v.rlastlen).toNat = n + (v.rbuflen - (v.rlastlen + n)).toNat by omega,
    Mem.slice_add, show (v.rlastlen + n).toNat = v.rlastlen.toNat + n by omega]

/-- The processor moves its own cursor only. -/
theorem presentPp_carries (h : v.Ordered) (s : ℤ) :
    Post (presentPp v s) (fun q => q.1.Bounded ∧ q.1.unread = v.unread ∧ kernelBytes q.2 = [] ∧
      (q.1.tosend = 0 → q.1.Ordered)) AnyFault := by
  have hlast := h.last
  have hofs := h.ofs
  have hle := h.ofs_le
  have hfits := h.fits
  have hnone := presentPp_kernelBytes v s
  rcases hpres : presentPp v s with e | q
  · trivial
  rw [hpres, Post.ok_iff] at hnone
  suffices hq : Post (presentPp v s) (fun q => q.1.Bounded ∧ q.1.unread = v.unread ∧
      (q.1.tosend = 0 → q.1.Ordered)) AnyFault by
    have := hq.of_eq_ok hpres
    exact ⟨this.1, this.2.1, hnone, this.2.2⟩
  unfold presentPp
  simp only
  split
  · exact ⟨h.toBounded, rfl, fun _ => h⟩
  · split
    · trivial
    · refine (anyFault_post _).bind ?_
      rintro ⟨a, d, l⟩ -
      simp only [ppAnswered]
      split
      · exact ⟨⟨hlast, hofs, hfits, fun _ => by simp only; omega⟩, rfl,
          fun _ => ⟨⟨hlast, hofs, hfits, fun _ => by simp only; omega⟩, hle⟩⟩
      · next ha =>
        have hb : ∀ w : ℤ, Vfd.Bounded { v with
            ppData := d, ppwantmore := w, rbufofs := v.rbufofs + a,
            tosend := v.rbufofs + a - v.rlastlen } := fun w =>
          ⟨hlast, by simp only; omega, hfits, fun hle => by simp only at hle ⊢; omega⟩
        exact ⟨hb 0, rfl, fun h0 => ⟨hb 0, by simp only at h0 ⊢; omega⟩⟩

/-- What waits is moved with the buffer. -/
theorem bufShift_carries (h : v.Ordered) :
    Post (bufShift v) (fun v' => v'.Ordered ∧ v'.unread = v.unread) AnyFault := by
  have hlast := h.last
  have hofs := h.ofs
  have hle := h.ofs_le
  have hfits := h.fits
  have hsend := h.send hle
  unfold bufShift
  simp only
  split
  · exact ⟨h, rfl⟩
  · refine (inBounds_post fun _ => trivial).bind fun _ _ => ?_
    obtain ⟨b, hb⟩ : ∃ b : ℕ, min v.rbufofs v.rlastlen = b :=
      ⟨(min v.rbufofs v.rlastlen).toNat, by omega⟩
    simp only [hb, Post.pure_iff]
    refine ⟨⟨⟨⟨by simp only; omega, by simp only; omega⟩, by simp only; omega, by simp only; omega,
      fun _ => by simp only; omega⟩, by simp only; omega⟩, ?_⟩
    rw [Vfd.unread, Vfd.unread]
    simp only [Int.toNat_natCast]
    have hmove := Mem.slice_move v.rbuf 0 b (n := (v.rbuflen - b).toNat)
      (i := (v.rlastlen - b).toNat) (k := (v.rbuflen - v.rlastlen).toNat) (by omega)
    rw [Nat.zero_add] at hmove
    rw [show v.rbuflen - b - (v.rlastlen - b) = v.rbuflen - v.rlastlen by omega, hmove,
      show b + (v.rlastlen - b).toNat = v.rlastlen.toNat by omega]

/-- What the kernel returns comes behind what waits. -/
theorem fetch_carries (h : v.Ordered) (flags : ℤ) (k : Kernel) :
    Post (fetch v flags k) (fun q => q.1.Ordered ∧ q.1.unread = v.unread ++ kernelBytes [q.2.2])
      AnyFault := by
  unfold fetch
  refine (bufShift_carries h).bind ?_
  rintro v₁ ⟨h₁, hunread⟩
  refine (inBounds_post fun _ => trivial).bind fun _ _ => ?_
  simp only
  generalize hr : k flags (vbufsize - v₁.rbuflen).toNat = r
  have hfits := r.fits
  have hone : ∀ f c ret b, kernelBytes [.realRead f c ret b] = b := fun _ _ _ _ => by
    simp [kernelBytes]
  have hlast := h₁.last
  have hofs := h₁.ofs
  have hle := h₁.ofs_le
  have hsend := h₁.send hle
  have hsize := h₁.fits
  split
  · refine ⟨h₁, ?_⟩
    rw [hone]
    rcases hfits with ⟨-, hnil⟩ | ⟨hpos, -⟩
    · rw [hnil, List.append_nil, hunread]
    · omega
  · obtain ⟨hret, hlen⟩ :
        r.ret = r.bytes.length ∧ r.bytes.length ≤ (vbufsize - v₁.rbuflen).toNat := by
      rcases hfits with ⟨hneg, -⟩ | ⟨-, hret, hlen⟩
      · omega
      · exact ⟨hret, hlen⟩
    rw [Post.pure_iff, hone, ← hunread]
    refine ⟨⟨⟨⟨hlast.1, by simp only; omega⟩, hofs, by simp only; omega,
      fun _ => by simp only; omega⟩, by simp only; omega⟩, ?_⟩
    rw [Vfd.unread, Vfd.unread]
    simp only [hret]
    have hstore := Mem.slice_store_append v₁.rbuf r.bytes (a := v₁.rbuflen.toNat)
      (b := v₁.rlastlen.toNat) (by omega)
    rw [show (v₁.rbuflen + r.bytes.length - v₁.rlastlen).toNat =
        v₁.rbuflen.toNat - v₁.rlastlen.toNat + r.bytes.length by omega,
      show (v₁.rbuflen - v₁.rlastlen).toNat = v₁.rbuflen.toNat - v₁.rlastlen.toNat by omega]
    exact hstore

/-- A piece returned behind a trace that moved no bytes. -/
theorem bufRet_trace_carries (h : v.Bounded) (len : ℕ) {tr : List Event}
    (htr : kernelBytes tr = []) :
    Post (bufRet v len >>= fun g => pure { g with trace := tr ++ g.trace }) (fun g =>
      g.vfd.rbufofs ≤ g.vfd.rbuflen → Carries v (kernelBytes g.trace) g.out g.vfd) AnyFault := by
  refine (bufRet_carries h len).bind fun g hg hofs => ?_
  obtain ⟨hcarries, htrace⟩ := hg hofs
  rwa [htrace, List.append_nil, htr]

theorem refill_carries (checked : Bool) (h : v.Ordered) (s : ℤ) (len : ℕ) (flags : ℤ) (k : Kernel) :
    Post (refill checked v s len flags k) (fun g => g.vfd.rbufofs ≤ g.vfd.rbuflen →
      Carries v (kernelBytes g.trace) g.out g.vfd) AnyFault := by
  unfold refill
  refine (anyFault_post _).bind fun _ _ => ?_
  refine (fetch_carries h flags k).bind ?_
  rintro ⟨v₁, r, ev⟩ ⟨h₁, hunread₁⟩
  simp only at h₁ hunread₁ ⊢
  split
  · exact fun _ => ⟨h₁.toBounded, by rw [List.nil_append, hunread₁]⟩
  · refine (presentPp_carries h₁ s).bind ?_
    rintro ⟨v₂, tr⟩ ⟨h₂, hunread₂, htr, -⟩
    simp only at h₂ hunread₂ htr
    refine (anyFault_post _).bind fun _ _ => ?_
    refine (bufRet_carries h₂ len).bind fun g hg hofs => ?_
    obtain ⟨hcarries, htrace⟩ := hg hofs
    refine ⟨hcarries.bounded, ?_⟩
    have hbytes := hcarries.bytes
    rw [List.append_nil, hunread₂, hunread₁] at hbytes
    rw [htrace, List.append_nil, ← List.singleton_append, kernelBytes_append, htr, List.append_nil,
      hbytes]

/-- **A receive past a processor** hands out the next of the bytes that wait, and of those that the
kernel returns. -/
theorem virtualGet_carries (checked : Bool) (h : v.Ordered) (s : ℤ) (len : ℕ) (flags : ℤ)
    (k : Kernel) :
    Post (virtualGet checked v s len flags k) (fun g => g.vfd.rbufofs ≤ g.vfd.rbuflen →
      Carries v (kernelBytes g.trace) g.out g.vfd) AnyFault := by
  unfold virtualGet
  split
  · refine (bufRet_carries h.toBounded len).mono fun g hg hofs => ?_
    obtain ⟨hcarries, htrace⟩ := hg hofs
    rwa [htrace]
  · split
    · refine (presentPp_carries h s).bind ?_
      rintro ⟨v₁, tr⟩ ⟨h₁, hunread, htr, hord⟩
      simp only at h₁ hunread htr hord ⊢
      split
      · refine (bufRet_trace_carries h₁ len htr).mono fun g hg hofs => ?_
        obtain ⟨hb, hbytes⟩ := hg hofs
        exact ⟨hb, by rwa [← hunread]⟩
      · next h0 =>
        refine (refill_carries checked (hord (not_not.1 h0)) s len flags k).bind fun g hg hofs => ?_
        obtain ⟨hb, hbytes⟩ := hg hofs
        refine ⟨hb, ?_⟩
        rwa [kernelBytes_append, htr, List.nil_append, ← hunread]
    · exact refill_carries checked h s len flags k

variable {p : Process σ} {fn : RecvFn} {s : ℤ} {len : ℕ} {k : Kernel}

/-- The three receiving wrappers differ in an assertion and in what they log. -/
theorem receive_eq (p : Process σ) (fn : RecvFn) (s : ℤ) (len : ℕ) (k : Kernel) :
    ∃ checked begin' end', receive p fn s len k =
      wrapReceive (fun v => virtualGet checked v s len 0 k) begin' end' p s len 0 k := by
  cases fn with
  | read => exact ⟨true, logbinIi .readBegin 0 s len, fun r => logbinIi .read r s len, rfl⟩
  | recv => exact ⟨false, logbinIii .recvBegin 0 s len 0, fun r => logbinIii .recv r s len 0, rfl⟩
  | recvfrom =>
    exact ⟨false, logbinIii .recvfromBegin 0 s len 0, fun r => logbinIii .recvfrom r s len 0, rfl⟩

theorem kernelBytes_around (b e : LogCall) (tr : List Event) :
    kernelBytes ([.log b] ++ tr ++ [.log e]) = kernelBytes tr := by
  have hlog : ∀ c : LogCall, kernelBytes [.log c] = [] := fun c => by simp [kernelBytes]
  rw [kernelBytes_append, kernelBytes_append, hlog, hlog, List.nil_append, List.append_nil]

/-- A wrapped receive that goes through on a descriptor with a processor has called the function for
it, whose cursors are in order. -/
theorem wrapReceive_ok {virtualFn : Vfd σ → Except Fault (Got σ)} {begin' : LogCall}
    {end' : ℤ → LogCall} {flags : ℤ} {r : Reply σ} (hs : 0 ≤ s ∧ s < maxFds)
    (hd : (p.vfdTab s).ppDispatcher.isSome = true)
    (h : wrapReceive virtualFn begin' end' p s len flags k = .ok r) :
    ∃ g, virtualFn (p.vfdTab s) = .ok g ∧ g.vfd.rbufofs ≤ g.vfd.rbuflen ∧
      r.proc.vfdTab = Function.update p.vfdTab s g.vfd ∧ r.out = g.out ∧
      kernelBytes r.trace = kernelBytes g.trace := by
  rw [wrapReceive, if_neg (by omega), if_pos hd] at h
  obtain ⟨g, hg, h⟩ := bind_eq_ok h
  obtain ⟨u, hofs, h⟩ := bind_eq_ok h
  cases h
  refine ⟨g, hg, (cAssert_post (E := AnyFault) fun _ => trivial).of_eq_ok hofs, ?_, rfl,
    kernelBytes_around ..⟩
  rcases g.readable with _ | _ | _ <;> rfl

/-- **A receive on a descriptor with a processor.** -/
theorem receive_carries (hs : 0 ≤ s ∧ s < maxFds) (hd : (p.vfdTab s).ppDispatcher.isSome = true)
    (h : (p.vfdTab s).Ordered) :
    Post (receive p fn s len k) (fun r => ∃ v', r.proc.vfdTab = Function.update p.vfdTab s v' ∧
      v'.Ordered ∧ v'.ppDispatcher = (p.vfdTab s).ppDispatcher ∧
      (p.vfdTab s).unread ++ kernelBytes r.trace = r.out ++ v'.unread) AnyFault := by
  rcases hr : receive p fn s len k with e | r
  · trivial
  obtain ⟨checked, begin', end', heq⟩ := receive_eq p fn s len k
  rw [heq] at hr
  obtain ⟨g, hg, hofs, htab, hout, htrace⟩ := wrapReceive_ok hs hd hr
  obtain ⟨hbounded, hbytes⟩ := (virtualGet_carries checked h s len 0 k).of_eq_ok hg hofs
  have hmarks := (virtualGet_marks checked (p.vfdTab s) s len 0 k).of_eq_ok hg
  exact ⟨g.vfd, htab, ⟨hbounded, hofs⟩, hmarks.disp, by rw [htrace, hout, hbytes]⟩

/-- **A receive on another descriptor** is one from the kernel. -/
theorem receive_plain (fn : RecvFn) (len : ℕ) (k : Kernel)
    (hd : 0 ≤ s ∧ s < maxFds → (p.vfdTab s).ppDispatcher = none) :
    ∃ r, receive p fn s len k = .ok r ∧ r.proc.vfdTab = p.vfdTab ∧ r.out = (k 0 len).bytes ∧
      kernelBytes r.trace = (k 0 len).bytes := by
  obtain ⟨checked, begin', end', heq⟩ := receive_eq p fn s len k
  have hone : ∀ ret b, kernelBytes [.realRead 0 len ret b] = b := fun _ _ => by
    simp [kernelBytes]
  rw [heq, wrapReceive]
  split
  · exact ⟨_, rfl, rfl, rfl, hone ..⟩
  · rw [hd (by omega)]
    refine ⟨_, rfl, rfl, rfl, ?_⟩
    simp only [kernelBytes_around]
    exact hone ..

/-! ## A socket and its descriptors -/

/-- A process and one of its sockets: the descriptors of the socket, the bytes that the kernel
returned from it and those that the application was handed, in the order of the calls. -/
structure Dups (σ : Type) where
  proc : Process σ
  fds : Finset ℤ
  kernel : List Byte
  handed : List Byte

/-- A call on a descriptor of the socket, with what the kernel answers. After `close` the kernel may
have `freed` the descriptor whatever it returns. -/
inductive DupCall
  | receive (fn : RecvFn) (s : ℤ) (len : ℕ) (k : Kernel)
  | dup (oldfd newfd : ℤ)
  | dup2 (oldfd newfd r : ℤ)
  | fcntl (fd r : ℤ)
  | close (s ret : ℤ) (freed : Bool)

/-- The descriptors after a call. The wrapped `close` leaves `LOGD_FD` alone. -/
def DupCall.fdsAfter (fds : Finset ℤ) : DupCall → Finset ℤ
  | .receive _ _ _ _ => fds
  | .dup _ r | .dup2 _ _ r | .fcntl _ r => if 0 ≤ r then insert r fds else fds
  | .close s _ freed => if s ≠ logdFd ∧ freed then fds.erase s else fds

namespace Dups

/-- The socket after a call. -/
def step (d : Dups σ) (c : DupCall) : Except Fault (Dups σ) :=
  match c with
  | .receive fn s len k => do
    let r ← receive d.proc fn s len k
    return { d with
      proc := r.proc
      kernel := d.kernel ++ kernelBytes r.trace
      handed := d.handed ++ r.out }
  | .dup oldfd newfd => do
    let (p, _) ← dup d.proc oldfd newfd
    return { d with proc := p, fds := c.fdsAfter d.fds }
  | .dup2 oldfd newfd r => do
    let (p, _) ← dup2 d.proc oldfd newfd r
    return { d with proc := p, fds := c.fdsAfter d.fds }
  | .fcntl fd r => do
    let (p, _) ← fcntlDupfd d.proc fd r
    return { d with proc := p, fds := c.fdsAfter d.fds }
  | .close s ret _ =>
    .ok { d with proc := (close d.proc s ret).1, fds := c.fdsAfter d.fds }

/-- The socket has one descriptor, `s₀`. -/
def start (p : Process σ) (s₀ : ℤ) : Dups σ := ⟨p, {s₀}, [], []⟩

/-- A duplicate `r` of `oldfd` has no processor of an earlier file. Only a descriptor past the end
of `vfd_tab` is duplicated without the entry of `r` being reset. -/
def Clear (d : Dups σ) (oldfd r : ℤ) : Prop :=
  oldfd < maxFds ∨ maxFds ≤ r ∨ r ∈ d.fds ∨ (d.proc.vfdTab r).ppDispatcher = none

/-- The call is on a descriptor of the socket, and the kernel gives a descriptor that was free, or
the one that `dup2` asks for. -/
def Allowed (d : Dups σ) : DupCall → Prop
  | .receive _ s _ _ => s ∈ d.fds
  | .dup oldfd r => oldfd ∈ d.fds ∧ (r < 0 ∨ r ∉ d.fds ∧ d.Clear oldfd r)
  | .dup2 oldfd newfd r => oldfd ∈ d.fds ∧ (r < 0 ∨ r = newfd ∧ d.Clear oldfd r)
  | .fcntl fd r => fd ∈ d.fds ∧ (r < 0 ∨ r ∉ d.fds ∧ d.Clear fd r)
  | .close s _ _ => s ∈ d.fds

/-- What waits in the buffer of the descriptor `s₀`, while it is open and has its processor. -/
def held (d : Dups σ) (s₀ : ℤ) : List Byte :=
  if s₀ ∈ d.fds ∧ (d.proc.vfdTab s₀).ppDispatcher.isSome then (d.proc.vfdTab s₀).unread else []

/-- What was handed out are the first bytes that the kernel returned. While the socket is open, the
others wait to be handed out. -/
def Kept (s₀ : ℤ) (d : Dups σ) : Prop :=
  d.handed <+: d.kernel ∧ (d.fds.Nonempty → d.kernel = d.handed ++ d.held s₀)

/-- The condition on a call: when another descriptor is read, the bytes that the kernel returns do
not pass any that wait, and none wait when the descriptor with the processor is duplicated onto, or
closed while there are others. -/
def InOrder (s₀ : ℤ) (d : Dups σ) : DupCall → Prop
  | .receive _ s len k =>
    s < maxFds ∧ (d.proc.vfdTab s).ppDispatcher.isSome ∨
      d.held s₀ ++ (k 0 len).bytes = (k 0 len).bytes ++ d.held s₀
  | .dup2 oldfd newfd r => 0 ≤ r → newfd = s₀ → oldfd < maxFds → d.held s₀ = []
  | .close s _ freed => s = s₀ → s ≠ logdFd → freed = true ∧ d.fds = {s₀} ∨ d.held s₀ = []
  | .dup _ _ | .fcntl _ _ => True

end Dups

/-! ## One call -/

/-- What a duplication of `oldfd` to `r` does to the entries. -/
def Dupped (p p' : Process σ) (oldfd r : ℤ) : Prop :=
  oldfd < maxFds ∧ r < maxFds ∧
      (∃ v, v.ppDispatcher = none ∧ p'.vfdTab = Function.update p.vfdTab r v) ∨
    (maxFds ≤ oldfd ∨ maxFds ≤ r) ∧ p' = p

/-- The same when the kernel may have given no descriptor. -/
def DupReply (p p' : Process σ) (oldfd r : ℤ) : Prop :=
  0 ≤ r ∧ Dupped p p' oldfd r ∨ r < 0 ∧ p' = p

theorem dupWhen_spec (p : Process σ) (oldfd r : ℤ) :
    Post (dupWhen p oldfd r) (fun p' => DupReply p p' oldfd r) AnyFault := by
  unfold dupWhen
  split
  · next hr =>
    refine (inBounds_post fun _ => trivial).bind fun _ hin => ?_
    exact Or.inl ⟨hr, Or.inl ⟨hin.2.1, hin.2.2.2, _, rfl, rfl⟩⟩
  · exact Or.inr ⟨by omega, rfl⟩

/-- Where the entries are left alone. -/
theorem dupReply_of_out {oldfd r : ℤ} (h : maxFds ≤ oldfd ∨ r < 0 ∨ maxFds ≤ r) :
    DupReply p p oldfd r := by
  by_cases hr : 0 ≤ r
  · exact Or.inl ⟨hr, Or.inr ⟨by omega, rfl⟩⟩
  · exact Or.inr ⟨by omega, rfl⟩

theorem dup_spec {oldfd : ℤ} (ho : 0 ≤ oldfd) (r : ℤ) :
    Post (dup p oldfd r) (fun q => DupReply p q.1 oldfd r) AnyFault := by
  unfold dup
  split
  · exact dupReply_of_out (by omega)
  · exact (dupWhen_spec p oldfd r).bind fun _ hp => hp

/-- `dup2` gives the descriptor that was asked for or none. -/
theorem dup2_spec {oldfd newfd r : ℤ} (ho : 0 ≤ oldfd) (hr : r < 0 ∨ r = newfd) :
    Post (dup2 p oldfd newfd r) (fun q => DupReply p q.1 oldfd r) AnyFault := by
  unfold dup2
  split
  · exact dupReply_of_out (by omega)
  · exact (dupWhen_spec p oldfd r).bind fun _ hp => hp

theorem fcntlDupfd_spec (oldfd r : ℤ) :
    Post (fcntlDupfd p oldfd r) (fun q => DupReply p q.1 oldfd r) AnyFault :=
  (dupWhen_spec p oldfd r).bind fun _ hp => hp

/-- Only the descriptor `s₀` has a buffer. -/
structure DupInv (s₀ : ℤ) (d : Dups σ) : Prop where
  nonneg : ∀ {s}, s ∈ d.fds → 0 ≤ s
  plain : ∀ {s}, s ∈ d.fds → s ≠ s₀ → s < maxFds → (d.proc.vfdTab s).ppDispatcher = none
  gone : s₀ ∉ d.fds → (d.proc.vfdTab s₀).ppDispatcher = none
  ordered : (d.proc.vfdTab s₀).ppDispatcher.isSome → (d.proc.vfdTab s₀).Ordered

variable {s₀ : ℤ} {d : Dups σ}

/-- A descriptor that is not open holds nothing. -/
theorem Dups.held_of_not_mem (h : s₀ ∉ d.fds) : d.held s₀ = [] := if_neg fun hs => h hs.1

theorem Dups.held_of_none (h : (d.proc.vfdTab s₀).ppDispatcher = none) : d.held s₀ = [] :=
  if_neg fun hs => by
    rw [h] at hs
    exact absurd hs.2 (by simp)

/-- When no bytes move, the stream is kept exactly when what waits is the same. -/
theorem Dups.Kept.iff_held (h : d.Kept s₀) (hne : d.fds.Nonempty) (p' : Process σ) {fds : Finset ℤ}
    (hne' : fds.Nonempty) : Dups.Kept s₀ { d with proc := p', fds := fds } ↔
      Dups.held { d with proc := p', fds := fds } s₀ = d.held s₀ := by
  constructor
  · intro h'
    have heq := h'.2 hne'
    simp only at heq
    rw [h.2 hne] at heq
    exact (List.append_cancel_left heq).symm
  · intro heq
    refine ⟨h.1, fun _ => ?_⟩
    rw [heq]
    exact h.2 hne

/-- The entry of one descriptor `s` is reset, and no descriptors but that come or go. -/
theorem DupInv.reset (h : DupInv s₀ d) (hs₀ : 0 ≤ s₀ ∧ s₀ < maxFds) {p' : Process σ}
    {fds : Finset ℤ} (hother : ∀ t, t ≠ s → p'.vfdTab t = d.proc.vfdTab t)
    (hself : 0 ≤ s → s < maxFds → (p'.vfdTab s).ppDispatcher = none)
    (hnonneg : ∀ t ∈ fds, 0 ≤ t) (hfds : ∀ t, t ≠ s → (t ∈ fds ↔ t ∈ d.fds)) :
    DupInv s₀ { d with proc := p', fds := fds } where
  nonneg := fun ht => hnonneg _ ht
  plain := by
    intro t ht hne hlt
    by_cases hts : t = s
    · subst hts
      exact hself (hnonneg t ht) hlt
    · simp only [hother t hts]
      exact h.plain ((hfds t hts).1 ht) hne hlt
  gone := by
    intro hmem
    by_cases hss : s₀ = s
    · subst hss
      exact hself hs₀.1 hs₀.2
    · simp only [hother s₀ hss]
      exact h.gone fun hmem' => hmem ((hfds s₀ hss).2 hmem')
  ordered := by
    intro hsome
    by_cases hss : s₀ = s
    · subst hss
      simp only [hself hs₀.1 hs₀.2] at hsome
      cases hsome
    · simp only [hother s₀ hss] at hsome ⊢
      exact h.ordered hsome

/-- What waits at `s₀` does not depend on the others. -/
theorem Dups.held_congr {p' : Process σ} {fds : Finset ℤ}
    (htab : p'.vfdTab s₀ = d.proc.vfdTab s₀) (hfds : s₀ ∈ fds ↔ s₀ ∈ d.fds) :
    Dups.held { d with proc := p', fds := fds } s₀ = d.held s₀ := by
  simp only [Dups.held, htab, hfds]

/-- A duplication keeps the stream unless it resets the entry of `s₀` while bytes wait there. -/
theorem DupInv.dupped (h : DupInv s₀ d) (hkept : d.Kept s₀) (hs₀ : 0 ≤ s₀ ∧ s₀ < maxFds)
    {p' : Process σ} {oldfd r : ℤ} (hd : Dupped d.proc p' oldfd r) (ho : oldfd ∈ d.fds) (hr : 0 ≤ r)
    (hclear : d.Clear oldfd r) :
    DupInv s₀ { d with proc := p', fds := insert r d.fds } ∧
      (Dups.Kept s₀ { d with proc := p', fds := insert r d.fds } ↔
        (r = s₀ → oldfd < maxFds → d.held s₀ = [])) := by
  have hnonneg : ∀ s ∈ insert r d.fds, 0 ≤ s :=
    Finset.forall_mem_insert .. |>.2 ⟨hr, fun _ hs => h.nonneg hs⟩
  have hmem : ∀ t, t ≠ r → (t ∈ insert r d.fds ↔ t ∈ d.fds) := fun t ht => by
    rw [Finset.mem_insert, or_iff_right ht]
  rw [hkept.iff_held ⟨oldfd, ho⟩ p' ⟨r, Finset.mem_insert_self ..⟩]
  rcases hd with ⟨hold, hlt, v, hv, htab⟩ | ⟨hout, rfl⟩
  · -- the entry of `r` is reset
    have hself : (p'.vfdTab r).ppDispatcher = none := by rw [htab, Function.update_self, hv]
    have hother : ∀ s, s ≠ r → p'.vfdTab s = d.proc.vfdTab s := fun s hs => by
      rw [htab, Function.update_of_ne hs]
    refine ⟨h.reset hs₀ hother (fun _ _ => hself) hnonneg hmem, ?_⟩
    by_cases hsr : r = s₀
    · subst hsr
      rw [Dups.held_of_none hself]
      exact ⟨fun heq _ _ => heq.symm, fun heq => (heq rfl hold).symm⟩
    · have hsame := Dups.held_congr (d := d) (hother s₀ (Ne.symm hsr)) (hmem s₀ (Ne.symm hsr))
      exact ⟨fun _ heq => absurd heq hsr, fun _ => hsame⟩
  · -- one of the two is past the table
    have hself : 0 ≤ r → r < maxFds → r ∉ d.fds → (d.proc.vfdTab r).ppDispatcher = none := by
      intro _ hlt hnot
      rcases hclear with hold | hle | hin | hnone
      · omega
      · omega
      · exact absurd hin hnot
      · exact hnone
    by_cases hin : r ∈ d.fds
    · rw [Finset.insert_eq_of_mem hin]
      exact ⟨h, fun _ heq hlt => by omega, fun _ => rfl⟩
    · refine ⟨h.reset hs₀ (fun _ _ => rfl) (fun hge hlt => hself hge hlt hin) hnonneg hmem,
        fun _ heq hlt => by omega, fun _ => ?_⟩
      by_cases hsr : r = s₀
      · subst hsr
        rw [Dups.held_of_not_mem hin]
        exact Dups.held_of_none (hself hr hs₀.2 hin)
      · exact Dups.held_congr rfl (hmem s₀ (Ne.symm hsr))

/-- A receive keeps the stream unless it passes bytes that wait. -/
theorem DupInv.receive (h : DupInv s₀ d) (hkept : d.Kept s₀) (hs₀ : 0 ≤ s₀ ∧ s₀ < maxFds)
    (hs : s ∈ d.fds) {r : Reply σ} (hr : receive d.proc fn s len k = .ok r) :
    DupInv s₀ { d with
        proc := r.proc, kernel := d.kernel ++ kernelBytes r.trace, handed := d.handed ++ r.out } ∧
      (Dups.Kept s₀ { d with
          proc := r.proc, kernel := d.kernel ++ kernelBytes r.trace,
          handed := d.handed ++ r.out } ↔ d.InOrder s₀ (.receive fn s len k)) := by
  have hkernel := hkept.2 ⟨s, hs⟩
  by_cases hd : s < maxFds ∧ (d.proc.vfdTab s).ppDispatcher.isSome = true
  · -- only `s₀` has a processor
    obtain rfl : s = s₀ := by
      by_contra hne
      rw [h.plain hs hne hd.1] at hd
      exact absurd hd.2 (by simp)
    obtain ⟨v', htab, hord, hdisp, hbytes⟩ :=
      (receive_carries hs₀ hd.2 (h.ordered hd.2)).of_eq_ok hr
    have hself : r.proc.vfdTab s = v' := by rw [htab, Function.update_self]
    refine ⟨⟨h.nonneg, fun {t} ht hne hlt => ?_, fun hmem => absurd hs hmem, fun _ => ?_⟩,
      fun _ => Or.inl hd, fun _ => ?_⟩
    · simp only [htab, Function.update_of_ne hne]
      exact h.plain ht hne hlt
    · simp only [hself]
      exact hord
    · have hheld : d.held s = (d.proc.vfdTab s).unread := if_pos ⟨hs, hd.2⟩
      have hheld' : Dups.held { d with
          proc := r.proc, kernel := d.kernel ++ kernelBytes r.trace,
          handed := d.handed ++ r.out } s = v'.unread := by
        rw [Dups.held]
        simp only [hself, hdisp, hs, hd.2, and_self, if_true]
      have heq : d.kernel ++ kernelBytes r.trace = d.handed ++ r.out ++ v'.unread := by
        rw [hkernel, hheld, List.append_assoc, hbytes, List.append_assoc]
      exact ⟨⟨v'.unread, heq.symm⟩, fun _ => by rw [hheld']; exact heq⟩
  · have hplain : 0 ≤ s ∧ s < maxFds → (d.proc.vfdTab s).ppDispatcher = none := fun hlt => by
      rcases hdisp : (d.proc.vfdTab s).ppDispatcher with _ | P
      · rfl
      · rw [hdisp] at hd
        exact absurd ⟨hlt.2, rfl⟩ hd
    obtain ⟨r', hr', htab, hout, htrace⟩ := receive_plain fn len k hplain
    obtain rfl : r' = r := by
      rw [hr] at hr'
      exact (Except.ok.inj hr').symm
    have hheld : Dups.held { d with
        proc := r'.proc, kernel := d.kernel ++ kernelBytes r'.trace,
        handed := d.handed ++ r'.out } s₀ = d.held s₀ := by
      simp only [Dups.held, htab]
    have hbytes : d.kernel ++ kernelBytes r'.trace = d.handed ++ r'.out ++ d.held s₀ ↔
        d.held s₀ ++ (k 0 len).bytes = (k 0 len).bytes ++ d.held s₀ := by
      rw [htrace, hout, hkernel, List.append_assoc, List.append_assoc, List.append_right_inj]
    refine ⟨⟨h.nonneg, fun {t} ht hne hlt => ?_, fun hmem => ?_, fun hsome => ?_⟩, fun h' => ?_,
      fun h' => ?_⟩
    · simp only [htab]
      exact h.plain ht hne hlt
    · simp only [htab]
      exact h.gone hmem
    · simp only [htab] at hsome ⊢
      exact h.ordered hsome
    · have heq := h'.2 ⟨s, hs⟩
      rw [hheld] at heq
      exact Or.inr (hbytes.1 heq)
    · rcases h' with hd' | heq
      · exact absurd hd' hd
      · have heq' := hbytes.2 heq
        exact ⟨⟨d.held s₀, heq'.symm⟩, fun _ => by rw [hheld]; exact heq'⟩

/-- What `close` does to the entries. -/
theorem close_vfdTab (p : Process σ) (s ret : ℤ) :
    (close p s ret).1.vfdTab =
      if s = logdFd ∨ s < 0 ∨ maxFds ≤ s then p.vfdTab
      else Function.update p.vfdTab s (closeVfd (p.vfdTab s)).1 := by
  unfold close
  by_cases hlog : s = logdFd
  · rw [if_pos hlog, if_pos (Or.inl hlog)]
  · rw [if_neg hlog]
    by_cases hout : s < 0 ∨ maxFds ≤ s
    · rw [if_pos hout, if_pos (Or.inr hout)]
    · rw [if_neg hout, if_neg (by rintro (h | h); exacts [hlog h, hout h])]
      rfl

/-- Closing keeps the stream unless bytes wait and the socket stays open. -/
theorem DupInv.close (h : DupInv s₀ d) (hkept : d.Kept s₀) (hs₀ : 0 ≤ s₀ ∧ s₀ < maxFds)
    (hs : s ∈ d.fds) (ret : ℤ) (freed : Bool) {d' : Dups σ}
    (hd' : d.step (.close s ret freed) = .ok d') :
    DupInv s₀ d' ∧ (d'.Kept s₀ ↔ d.InOrder s₀ (.close s ret freed)) := by
  rw [Dups.step, Except.ok.injEq] at hd'
  subst hd'
  by_cases hlog : s = logdFd
  · -- nothing happens
    have hproc : (Trace.close d.proc s ret).1 = d.proc := by rw [Trace.close, if_pos hlog]
    have hfds : (DupCall.close s ret freed).fdsAfter d.fds = d.fds := if_neg fun h => h.1 hlog
    rw [hproc, hfds]
    exact ⟨h, fun _ _ hne => absurd hlog hne, fun _ => hkept⟩
  have hother : ∀ t, t ≠ s → (Trace.close d.proc s ret).1.vfdTab t = d.proc.vfdTab t := by
    intro t ht
    rw [close_vfdTab]
    split
    · rfl
    · exact Function.update_of_ne ht ..
  have hself : 0 ≤ s → s < maxFds →
      ((Trace.close d.proc s ret).1.vfdTab s).ppDispatcher = none := by
    intro hge hlt
    rw [close_vfdTab, if_neg (by rintro (h | h | h); exacts [hlog h, by omega, by omega]),
      Function.update_self]
    exact (closeVfd_disp _).1
  have hfds : (DupCall.close s ret freed).fdsAfter d.fds =
      if freed = true then d.fds.erase s else d.fds := by
    rw [DupCall.fdsAfter]
    simp only [hlog, ne_eq, not_false_eq_true, true_and]
  rw [hfds]
  have hsub : ∀ t ∈ (if freed = true then d.fds.erase s else d.fds), t ∈ d.fds := by
    intro t ht
    split at ht
    · exact Finset.mem_of_mem_erase ht
    · exact ht
  have hmem : ∀ t, t ≠ s → (t ∈ (if freed = true then d.fds.erase s else d.fds) ↔ t ∈ d.fds) := by
    intro t ht
    split
    · rw [Finset.mem_erase, and_iff_right ht]
    · rfl
  refine ⟨h.reset hs₀ hother hself (fun t ht => h.nonneg (hsub t ht)) hmem, ?_⟩
  by_cases hss : s = s₀
  · subst hss
    by_cases hne : (if freed = true then d.fds.erase s else d.fds).Nonempty
    · rw [hkept.iff_held ⟨s, hs⟩ _ hne, Dups.held_of_none (hself hs₀.1 hs₀.2)]
      constructor
      · exact fun heq _ _ => Or.inr heq.symm
      · intro hcond
        rcases hcond rfl hlog with ⟨hfreed, honly⟩ | hnil
        · rw [if_pos hfreed, honly, Finset.erase_singleton] at hne
          exact absurd hne Finset.not_nonempty_empty
        · exact hnil.symm
    · refine ⟨fun _ _ _ => Or.inl ?_, fun _ => ⟨hkept.1, fun hne' => absurd hne' hne⟩⟩
      by_cases hfreed : freed = true
      · rw [if_pos hfreed, Finset.not_nonempty_iff_eq_empty, Finset.erase_eq_empty_iff] at hne
        rcases hne with hnil | honly
        · rw [hnil] at hs
          exact absurd hs (Finset.notMem_empty s)
        · exact ⟨hfreed, honly⟩
      · rw [if_neg hfreed] at hne
        exact absurd ⟨s, hs⟩ hne
  · have hsame := Dups.held_congr (d := d) (hother s₀ (Ne.symm hss)) (hmem s₀ (Ne.symm hss))
    refine ⟨fun _ heq => absurd heq hss, fun _ => ⟨hkept.1, fun _ => ?_⟩⟩
    rw [hsame]
    exact hkept.2 ⟨s, hs⟩

/-- A duplication that may have failed. -/
theorem DupInv.duplicate (h : DupInv s₀ d) (hkept : d.Kept s₀) (hs₀ : 0 ≤ s₀ ∧ s₀ < maxFds)
    {p' : Process σ} {oldfd r : ℤ} (hd : DupReply d.proc p' oldfd r) (ho : oldfd ∈ d.fds)
    (hclear : r < 0 ∨ d.Clear oldfd r) :
    DupInv s₀ { d with proc := p', fds := if 0 ≤ r then insert r d.fds else d.fds } ∧
      (Dups.Kept s₀ { d with proc := p', fds := if 0 ≤ r then insert r d.fds else d.fds } ↔
        (0 ≤ r → r = s₀ → oldfd < maxFds → d.held s₀ = [])) := by
  rcases hd with ⟨hr, hd⟩ | ⟨hr, rfl⟩
  · rw [if_pos hr]
    obtain ⟨hinv, hiff⟩ := h.dupped hkept hs₀ hd ho hr (hclear.resolve_left (by omega))
    exact ⟨hinv, hiff.trans ⟨fun hc _ => hc, fun hc => hc hr⟩⟩
  · rw [if_neg (by omega)]
    exact ⟨h, fun _ hc => by omega, fun _ => hkept⟩

/-- **One call** keeps the stream exactly when it meets the condition. -/
theorem dups_step (h : DupInv s₀ d) (hkept : d.Kept s₀) (hs₀ : 0 ≤ s₀ ∧ s₀ < maxFds) {c : DupCall}
    (hc : d.Allowed c) {d' : Dups σ} (hd' : d.step c = .ok d') :
    DupInv s₀ d' ∧ (d'.Kept s₀ ↔ d.InOrder s₀ c) := by
  -- a descriptor that was free is not `s₀` with bytes waiting
  have hfree : ∀ {oldfd r : ℤ}, r < 0 ∨ r ∉ d.fds ∧ d.Clear oldfd r →
      (0 ≤ r → r = s₀ → oldfd < maxFds → d.held s₀ = []) := by
    rintro oldfd r hr hge rfl -
    exact Dups.held_of_not_mem (hr.resolve_left (by omega)).1
  cases c with
  | receive fn s len k =>
    obtain ⟨r, hr, hd'⟩ := bind_eq_ok hd'
    cases hd'
    exact h.receive hkept hs₀ hc hr
  | dup oldfd r =>
    obtain ⟨q, hq, hd'⟩ := bind_eq_ok hd'
    cases hd'
    obtain ⟨hinv, hiff⟩ := h.duplicate hkept hs₀ ((dup_spec (h.nonneg hc.1) r).of_eq_ok hq) hc.1
      (hc.2.imp_right And.right)
    exact ⟨hinv, hiff.trans ⟨fun _ => trivial, fun _ => hfree hc.2⟩⟩
  | dup2 oldfd newfd r =>
    obtain ⟨q, hq, hd'⟩ := bind_eq_ok hd'
    cases hd'
    have hr := hc.2.imp_right And.left
    obtain ⟨hinv, hiff⟩ := h.duplicate hkept hs₀
      ((dup2_spec (h.nonneg hc.1) hr).of_eq_ok hq) hc.1 (hc.2.imp_right And.right)
    refine ⟨hinv, hiff.trans ?_⟩
    rcases hr with hr | rfl
    · exact ⟨fun _ hge => by omega, fun _ hge => by omega⟩
    · rfl
  | fcntl fd r =>
    obtain ⟨q, hq, hd'⟩ := bind_eq_ok hd'
    cases hd'
    obtain ⟨hinv, hiff⟩ := h.duplicate hkept hs₀ ((fcntlDupfd_spec fd r).of_eq_ok hq) hc.1
      (hc.2.imp_right And.right)
    exact ⟨hinv, hiff.trans ⟨fun _ => trivial, fun _ => hfree hc.2⟩⟩
  | close s ret freed => exact h.close hkept hs₀ hc ret freed hd'

/-! ## All calls -/

/-- A socket just opened, with one descriptor and a processor. -/
structure Opened (p : Process σ) (s₀ : ℤ) : Prop where
  fd : 0 ≤ s₀ ∧ s₀ < maxFds
  disp : (p.vfdTab s₀).ppDispatcher.isSome = true
  fresh : (p.vfdTab s₀).Fresh

theorem Opened.inv (h : Opened p s₀) : DupInv s₀ (Dups.start p s₀) where
  nonneg := by
    intro s hs
    rw [Finset.mem_singleton.1 hs]
    exact h.fd.1
  plain := fun hs hne => absurd (Finset.mem_singleton.1 hs) hne
  gone := fun hs => absurd (Finset.mem_singleton_self s₀) hs
  ordered := fun _ => h.fresh.ordered

theorem Opened.kept (h : Opened p s₀) : (Dups.start p s₀).Kept s₀ := by
  refine ⟨List.nil_prefix, fun _ => ?_⟩
  rw [Dups.held]
  split
  · exact h.fresh.unread_eq.symm
  · rfl

/-- **The stream of a socket with duplicates.** In any run of receives, duplications and closes on
the descriptors of a socket, what is handed out is always the beginning of what the kernel returned,
and nothing is lost, if and only if every call meets the condition. -/
theorem dup_keeps_iff (h : Opened p s₀) (cs : List DupCall)
    (hcs : Along Dups.step (Dups.start p s₀) cs Dups.Allowed) :
    Always Dups.step (Dups.start p s₀) cs (Dups.Kept s₀) ↔
      Along Dups.step (Dups.start p s₀) cs (Dups.InOrder s₀) :=
  hcs.always_iff h.inv h.kept fun _ _ _ hinv hkept hc hd' => dups_step hinv hkept h.fd hc hd'

/-! ## Bytes that are passed -/

/-- The connection on descriptor 5 is duplicated after one byte of eight is read from it, and then
read through the duplicate. -/
def readDupRead : List DupCall :=
  [.receive .read 5 1 (Kernel.give startup), .dup 5 6,
    .receive .read 6 4 (Kernel.give (ascii "Q"))]

theorem opened_psqlServer : Opened psqlServer 5 :=
  ⟨by decide, rfl, psqlServer_fresh 5⟩

theorem Dups.step_fds {d d' : Dups σ} {c : DupCall} (h : d.step c = .ok d') :
    d'.fds = c.fdsAfter d.fds := by
  cases c with
  | close s ret freed =>
    cases h
    rfl
  | _ =>
    obtain ⟨q, -, h⟩ := bind_eq_ok h
    cases h
    rfl

theorem allowed_readDupRead :
    Along Dups.step (Dups.start psqlServer 5) readDupRead Dups.Allowed := by
  refine along_cons.2 fun d₁ h₁ => ⟨Finset.mem_singleton_self 5, ?_⟩
  have hfds₁ : d₁.fds = {5} := Dups.step_fds h₁
  refine along_cons.2 fun d₂ h₂ => ⟨⟨?_, Or.inr ⟨?_, Or.inl (by decide)⟩⟩, ?_⟩
  · rw [hfds₁]
    exact Finset.mem_singleton_self 5
  · rw [hfds₁]
    decide
  · have hfds₂ : d₂.fds = {6, 5} := by
      rw [Dups.step_fds h₂, hfds₁]
      rfl
    refine along_cons.2 fun d₃ h₃ => ⟨?_, along_nil⟩
    change 6 ∈ d₂.fds
    rw [hfds₂]
    decide

theorem dup_keeps_iff_readDupRead :
    Always Dups.step (Dups.start psqlServer 5) readDupRead (Dups.Kept 5) ↔
      Along Dups.step (Dups.start psqlServer 5) readDupRead (Dups.InOrder 5) :=
  dup_keeps_iff opened_psqlServer readDupRead allowed_readDupRead

/-- The duplicate is given a byte that the kernel returned after seven that wait. -/
theorem duplicate_passes_bytes :
    ¬ Always Dups.step (Dups.start psqlServer 5) readDupRead (Dups.Kept 5) := by
  intro h
  have hbytes : (runSteps Dups.step (Dups.start psqlServer 5) readDupRead).toOption.map
      (fun d => (d.handed, d.kernel)) = some ([0, 81], startup ++ [81]) := by decide +kernel
  rcases hrun : runSteps Dups.step (Dups.start psqlServer 5) readDupRead with e | d
  · rw [hrun] at hbytes
    cases hbytes
  · obtain ⟨hpre, -⟩ := h readDupRead (List.prefix_refl _) d hrun
    rw [hrun] at hbytes
    simp only [Except.toOption, Option.map_some, Option.some.injEq, Prod.mk.injEq] at hbytes
    rw [hbytes.1, hbytes.2] at hpre
    revert hpre
    decide

end BorderPatrol.Trace
