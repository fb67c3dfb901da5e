import BorderPatrol.Trace.Capacity
import BorderPatrol.Trace.Vectors

/-!
# The two sides of a descriptor

Reading works on `rbuf` and its cursors, and writing on `wbuf`. A processor whose data has a part
for each direction keeps the other part when it is called, and then a receive call leaves alone
what writing works with (`recvOne_keeps`), and a send what reading works with (`vwriteReq_keeps`).
All that such calls log is what the processor logs, and `SYS_PP_ISO_READ`. The wrappers put a log
call before and behind them.
-/

namespace BorderPatrol.Trace

open Foundations Foundations.Resumable

variable {σ τ : Type}

/-- What writing works with is the same. -/
structure SameWriting (get : σ → τ) (v v' : Vfd σ) : Prop where
  disp : v'.ppDispatcher = v.ppDispatcher
  buf : v'.wbuf = v.wbuf
  len : v'.wbuflen = v.wbuflen
  ofs : v'.wbufofs = v.wbufofs
  data : get v'.ppData = get v.ppData

/-- What reading works with is the same. -/
structure SameReading (get : σ → τ) (v v' : Vfd σ) : Prop where
  disp : v'.ppDispatcher = v.ppDispatcher
  buf : v'.rbuf = v.rbuf
  len : v'.rbuflen = v.rbuflen
  ofs : v'.rbufofs = v.rbufofs
  last : v'.rlastlen = v.rlastlen
  send : v'.tosend = v.tosend
  want : v'.ppwantmore = v.ppwantmore
  data : get v'.ppData = get v.ppData

/-- The function of a processor keeps the part `get` of its data, and its log calls are `Q`. -/
def KeepsPart (f : σ → ℤ → List Byte → ℤ → Except Fault (ℤ × σ × List LogCall)) (s : ℤ)
    (get : σ → τ) (Q : LogCall → Prop) : Prop :=
  ∀ d m n a d' l, f d s m n = .ok (a, d', l) → get d' = get d ∧ ∀ e ∈ l, Q e

variable {get : σ → τ} {Q : LogCall → Prop} {P : PpDispatcher σ} {s : ℤ} {v v₁ v₂ : Vfd σ}

theorem SameWriting.refl (v : Vfd σ) : SameWriting get v v := ⟨rfl, rfl, rfl, rfl, rfl⟩

theorem SameWriting.trans (h₁ : SameWriting get v v₁) (h₂ : SameWriting get v₁ v₂) :
    SameWriting get v v₂ :=
  ⟨h₂.disp.trans h₁.disp, h₂.buf.trans h₁.buf, h₂.len.trans h₁.len, h₂.ofs.trans h₁.ofs,
    h₂.data.trans h₁.data⟩

theorem SameReading.refl (v : Vfd σ) : SameReading get v v :=
  ⟨rfl, rfl, rfl, rfl, rfl, rfl, rfl, rfl⟩

theorem SameReading.trans (h₁ : SameReading get v v₁) (h₂ : SameReading get v₁ v₂) :
    SameReading get v v₂ :=
  ⟨h₂.disp.trans h₁.disp, h₂.buf.trans h₁.buf, h₂.len.trans h₁.len, h₂.ofs.trans h₁.ofs,
    h₂.last.trans h₁.last, h₂.send.trans h₁.send, h₂.want.trans h₁.want, h₂.data.trans h₁.data⟩

variable {step : Step τ Byte ℤ} {mk : ℤ → LogCall} {t₀ : τ} {b : List Byte}

/-- What is not written is kept. -/
theorem Unwritten.same (h : Unwritten P v b) (hs : SameWriting get v v₁) : Unwritten P v₁ b where
  disp := hs.disp.trans h.disp
  len := hs.len.trans h.len
  ofs := hs.ofs.trans h.ofs
  fits := h.fits
  bytes := by rw [hs.buf, h.bytes]

/-- What is read is followed on. -/
theorem Tracks.same {f : Flow Byte} {l : List LogCall}
    (h : Tracks P (Following step get mk t₀) v f l) (hs : SameReading get v v₁) :
    Tracks P (Following step get mk t₀) v₁ f l where
  disp := hs.disp.trans h.disp
  rep := by
    obtain ⟨base, hrep⟩ := h.rep
    refine ⟨base, ?_, ?_, ?_, ?_, ?_, hrep.ofs_nonneg, hrep.last_nonneg, ?_⟩
    · rw [hs.len, hrep.len]
    · rw [hs.ofs, hrep.ofs]
    · rw [hs.last, hrep.last]
    · rw [hs.send, hrep.send]
    · rw [hs.len]
      exact hrep.fits
    · rw [hs.buf, hs.len, hrep.bytes]
  wf := h.wf
  unit hw := h.unit (hs.want ▸ hw)
  want hw := h.want (hs.want ▸ hw)
  obs := by
    have hobs := h.obs
    unfold Following at hobs ⊢
    rwa [hs.want, hs.data]

/-- When the application has been given everything, the parser has come to where a drain of it
ends. -/
theorem Tracks.drained {f : Flow Byte} {l : List LogCall}
    (h : Tracks P (Following step get mk t₀) v f l) (hall : f.seen.length ≤ f.given) :
    messages l = (drain step t₀ f.seen).out.map mk := by
  obtain ⟨out, hagrees, hmsg, hwant⟩ := h.obs
  have hgiven := h.wf.given_le
  have hgoal := h.wf.goal_le
  have htaken := h.wf.taken_le
  have hlen : f.pending.length = f.seen.length - f.taken := List.length_drop
  have hdrain := hagrees.drained (by
    by_cases hw : v.ppwantmore = 0
    · have hunit := h.unit hw
      exact .inl (List.eq_nil_of_length_eq_zero (by omega))
    · obtain ⟨b, -, hpre, hb, hnone⟩ := hwant hw
      rw [← hpre.eq_of_length (by omega)]
      exact .inr hnone)
  rw [hdrain, hmsg]

/-! ## Receive calls -/

theorem bufRet_keeps (get : σ → τ) (v : Vfd σ) (len : ℕ) :
    Post (bufRet v len) (fun g => SameWriting get v g.vfd ∧ logs g.trace = []) AnyFault := by
  refine (bufRet_post v len).mono fun g hg => ?_
  obtain ⟨n, hvfd, -, htrace, -⟩ := hg
  rw [hvfd, htrace]
  exact ⟨⟨rfl, rfl, rfl, rfl, rfl⟩, rfl⟩

theorem presentPp_keeps (hP : KeepsPart P.ppRead s get Q)
    (hiso : ∀ a amt, Q (logbinIi .ppIsoRead 0 a amt)) (hd : v.ppDispatcher = some P) :
    Post (presentPp v s) (fun q => SameWriting get v q.1 ∧ ∀ e ∈ logs q.2, Q e) AnyFault := by
  by_cases hz : v.rbuflen - v.rbufofs = 0
  · rw [presentPp]
    dsimp only
    rw [if_pos hz]
    exact ⟨.refl v, by simp⟩
  rw [presentPp_of hd hz]
  rcases hres : P.ppRead v.ppData s (v.rwindow v.rbufofs) (v.rbuflen - v.rbufofs)
    with e | ⟨a, d, l⟩
  · trivial
  obtain ⟨hdata, hl⟩ := hP _ _ _ _ _ _ hres
  rw [ok_bind, Post.ok_iff, ppAnswered]
  split
  · exact ⟨⟨rfl, rfl, rfl, rfl, hdata⟩, by simpa [logs] using hl⟩
  · refine ⟨⟨rfl, rfl, rfl, rfl, hdata⟩, ?_⟩
    split
    · intro e he
      simp only [logs_append, logs_map_log, List.mem_append] at he
      rcases he with (he | he) | he
      · exact hl e he
      · cases he
      · obtain rfl : e = logbinIi .ppIsoRead 0 a (v.rbuflen - v.rbufofs) := by
          simpa [logs] using he
        exact hiso ..
    · simpa [logs] using hl

theorem fetch_keeps (get : σ → τ) (v : Vfd σ) (flags : ℤ) (k : Kernel) :
    Post (fetch v flags k) (fun r => SameWriting get v r.1 ∧ logs [r.2.2] = []) AnyFault := by
  have hshift : Post (bufShift v) (SameWriting get v) AnyFault := by
    unfold bufShift
    dsimp only
    split
    · exact .refl v
    · exact (anyFault_post _).bind fun _ _ => ⟨rfl, rfl, rfl, rfl, rfl⟩
  unfold fetch
  refine hshift.bind fun v' hv' => ?_
  refine (anyFault_post _).bind fun _ _ => ?_
  dsimp only
  split
  · exact ⟨hv', rfl⟩
  · exact ⟨⟨hv'.disp, hv'.buf, hv'.len, hv'.ofs, hv'.data⟩, rfl⟩

/-- What a receive call keeps, and what it logs. -/
def GotKeeps (get : σ → τ) (Q : LogCall → Prop) (v : Vfd σ) (g : Got σ) : Prop :=
  SameWriting get v g.vfd ∧ ∀ e ∈ logs g.trace, Q e

/-- The last step of a call, after the trace `tr`. -/
theorem bufRet_after (h : SameWriting get v v₁) {tr : List Event} (htr : ∀ e ∈ logs tr, Q e)
    (len : ℕ) : Post (bufRet v₁ len >>= fun g => pure { g with trace := tr ++ g.trace })
      (GotKeeps get Q v) AnyFault := by
  refine (bufRet_keeps get v₁ len).bind fun g hg => ?_
  obtain ⟨hsame, hlogs⟩ := hg
  refine ⟨h.trans hsame, ?_⟩
  rw [logs_append, hlogs, List.append_nil]
  exact htr

theorem refill_keeps (hP : KeepsPart P.ppRead s get Q)
    (hiso : ∀ a amt, Q (logbinIi .ppIsoRead 0 a amt)) (hd : v.ppDispatcher = some P)
    (checked : Bool) (len : ℕ) (flags : ℤ) (k : Kernel) :
    Post (refill checked v s len flags k) (GotKeeps get Q v) AnyFault := by
  unfold refill
  refine (anyFault_post _).bind fun _ _ => ?_
  refine (fetch_keeps get v flags k).bind ?_
  rintro ⟨v₁, r, ev⟩ ⟨h₁, hev⟩
  dsimp only at h₁ hev ⊢
  split
  · exact ⟨h₁, by simp only [hev, List.not_mem_nil, false_implies, implies_true]⟩
  · refine (presentPp_keeps hP hiso (h₁.disp.trans hd)).bind ?_
    rintro ⟨v₂, tr⟩ ⟨h₂, htr⟩
    refine (anyFault_post _).bind fun _ _ => ?_
    refine bufRet_after (h₁.trans h₂) ?_ len
    rwa [← List.singleton_append, logs_append, hev, List.nil_append]

/-- **Receiving leaves writing alone.** -/
theorem recvOne_keeps (hP : KeepsPart P.ppRead s get Q)
    (hiso : ∀ a amt, Q (logbinIi .ppIsoRead 0 a amt)) (hd : v.ppDispatcher = some P)
    (c : RecvCall) : Post (recvOne v s c) (GotKeeps get Q v) AnyFault := by
  rw [recvOne_eq]
  have hget : Post (virtualGet (decide (c.fn = .read)) v s c.len 0 c.kernel) (GotKeeps get Q v)
      AnyFault := by
    unfold virtualGet
    split
    · refine (bufRet_keeps get v c.len).mono fun g hg => ⟨hg.1, ?_⟩
      simp [hg.2]
    split
    · refine (presentPp_keeps hP hiso hd).bind ?_
      rintro ⟨v₁, tr⟩ ⟨h₁, htr⟩
      dsimp only at h₁ ⊢
      split
      · exact bufRet_after h₁ htr c.len
      · refine (refill_keeps hP hiso (h₁.disp.trans hd) _ c.len 0 c.kernel).bind fun g hg => ?_
        refine ⟨h₁.trans hg.1, fun e he => ?_⟩
        rw [logs_append, List.mem_append] at he
        exact he.elim (htr e) (hg.2 e)
    · exact refill_keeps hP hiso hd _ c.len 0 c.kernel
  refine hget.bind fun g hg => ?_
  exact (anyFault_post _).bind fun _ _ => hg

/-- What the kernel returns in a call is what it answers at some capacity, or nothing. -/
theorem callArrives_cases (v : Vfd σ) (s : ℤ) (c : RecvCall) :
    callArrives v s c = [] ∨ ∃ n, callArrives v s c = (c.kernel 0 n).bytes := by
  have hfetch : ∀ v : Vfd σ, fetchArrives v c.kernel = [] ∨
      ∃ n, fetchArrives v c.kernel = (c.kernel 0 n).bytes := by
    intro v
    unfold fetchArrives
    split
    · exact .inl rfl
    · next v' r ev hf =>
      unfold fetch at hf
      obtain ⟨v₁, -, hf⟩ := bind_eq_ok hf
      obtain ⟨u, -, hf⟩ := bind_eq_ok hf
      dsimp only at hf
      split at hf <;> cases hf <;> exact .inr ⟨_, List.append_nil _⟩
  unfold callArrives
  split
  · exact .inl rfl
  split
  · split
    · exact .inl rfl
    · split
      · exact .inl rfl
      · exact hfetch _
  · exact hfetch v

/-! ## Sends -/

/-- What a send keeps, and what it logs. -/
structure SentKeeps (get : σ → τ) (Q : LogCall → Prop) (v : Vfd σ) (q : Vfd σ × List Event) :
    Prop where
  same : SameReading get v q.1
  kernel : kernelBytes q.2 = []
  log : ∀ e ∈ logs q.2, Q e

theorem SentKeeps.refl (v : Vfd σ) : SentKeeps get Q v (v, []) := ⟨.refl v, rfl, by simp⟩

theorem vwriteLoop_keeps (hP : KeepsPart P.ppWrite s get Q) (n : ℕ) (hd : v.ppDispatcher = some P) :
    Post (vwriteLoop n v s) (SentKeeps get Q v) AnyFault := by
  induction n generalizing v with
  | zero => trivial
  | succ n ih =>
    by_cases hz : v.wbuflen - v.wbufofs = 0
    · rw [vwriteLoop]
      dsimp only
      rw [if_pos hz]
      exact .refl v
    rcases hres : P.ppWrite v.ppData s (v.wwindow v.wbufofs) (v.wbuflen - v.wbufofs)
      with e | ⟨req, d, l⟩
    · rw [vwriteLoop_error n hd hz hres]
      trivial
    obtain ⟨hdata, hl⟩ := hP _ _ _ _ _ _ hres
    set ev := l.map Event.log ++ [.ppWrite (v.wbuflen - v.wbufofs) req] with hev
    have hkernel : kernelBytes ev = [] := by simp [hev, kernelBytes]
    have hlogs : logs ev = l := by simp [hev, logs, List.filterMap_map]
    rw [vwriteLoop_of n hd rfl hz hres]
    split
    · refine (ih (v := { v with ppData := d, wbufofs := v.wbufofs + req }) hd).bind fun q hq => ?_
      have h := hq.same
      refine ⟨⟨h.disp, h.buf, h.len, h.ofs, h.last, h.send, h.want, h.data.trans hdata⟩, ?_, ?_⟩
      · rw [← hev, kernelBytes_append, hkernel, hq.kernel, List.append_nil]
      · intro e he
        rw [← hev, logs_append, hlogs, List.mem_append] at he
        exact he.elim (hl e) (hq.log e)
    · refine ⟨⟨rfl, rfl, rfl, rfl, rfl, rfl, rfl, hdata⟩, hkernel, ?_⟩
      rw [hlogs]
      exact hl

/-- **Sending leaves reading alone.** -/
theorem vwriteReq_keeps (hP : KeepsPart P.ppWrite s get Q) (hd : v.ppDispatcher = some P)
    (buf : List Byte) (len : ℤ) : Post (vwriteReq v s buf len) (SentKeeps get Q v) AnyFault := by
  unfold vwriteReq
  split
  · exact .refl v
  · refine (anyFault_post _).bind fun _ _ => ?_
    refine (vwriteLoop_keeps hP _ (v := { v with
      wbuf := v.wbuf.store v.wbuflen.toNat (buf.take len.toNat)
      wbuflen := v.wbuflen + len }) hd).bind fun q hq => ?_
    have h := hq.same
    refine (anyFault_post _).bind fun _ _ => ?_
    exact ⟨⟨h.disp, h.buf, h.len, h.ofs, h.last, h.send, h.want, h.data⟩, hq.kernel, hq.log⟩

theorem writevReq_keeps (hP : KeepsPart P.ppWrite s get Q) (hd : v.ppDispatcher = some P)
    (vec : List (List Byte)) (todo : ℤ) :
    Post (writevReq s v vec todo) (SentKeeps get Q v) AnyFault := by
  induction vec generalizing v todo with
  | nil => exact .refl v
  | cons buf vec ih =>
    rw [writevReq]
    dsimp only
    generalize (if todo < buf.length then todo else (buf.length : ℤ)) = n
    refine (vwriteReq_keeps hP hd buf n).bind ?_
    rintro ⟨v₁, tr⟩ h₁
    dsimp only
    split
    · exact Post.pure_iff.2 h₁
    · refine (ih (h₁.same.disp.trans hd) _).bind fun q hq => ?_
      refine ⟨h₁.same.trans hq.same, ?_, fun e he => ?_⟩
      · rw [kernelBytes_append, h₁.kernel, hq.kernel, List.append_nil]
      · rw [logs_append, List.mem_append] at he
        exact he.elim (h₁.log e) (hq.log e)

/-! ## The wrappers -/

namespace IoCall

/-- The call past the processor that a receive without flags makes. -/
def recvCall : IoCall → Option RecvCall
  | .read len k => some ⟨.read, len, k⟩
  | .recv len flags k => if flags = 0 then some ⟨.recv, len, k⟩ else none
  | .recvfrom len flags k => if flags = 0 then some ⟨.recvfrom, len, k⟩ else none
  | _ => none

/-- The bytes that a send has for the kernel, and what the kernel returns. -/
def sent : IoCall → Option (List Byte × ℤ)
  | .write buf r | .send buf _ r | .sendto buf _ r => some (buf, r)
  | .writev vec r => some (vec.flatten, r)
  | _ => none

/-- The bytes that the kernel takes. -/
def taken (c : IoCall) : List Byte :=
  match c.sent with
  | some (b, r) => b.take r.toNat
  | none => []

/-- What a send shows to the processor. -/
def shown (v : Vfd σ) (s : ℤ) : IoCall → Except Fault (Vfd σ × List Event)
  | .write buf r | .send buf _ r | .sendto buf _ r => vwriteReq v s buf (toInt r)
  | .writev vec r => writevShown s v vec (toInt r)
  | _ => .ok (v, [])

/-- The log call with which a call begins. -/
def begun (s : ℤ) : IoCall → LogCall
  | .read len _ => logbinIi .readBegin 0 s len
  | .recv len flags _ => logbinIii .recvBegin 0 s len flags
  | .recvfrom len flags _ => logbinIii .recvfromBegin 0 s len flags
  | .write buf _ => logbinIi .writeBegin 0 s buf.length
  | .writev vec _ => logbinIi .writevBegin 0 s vec.length
  | .send buf flags _ => logbinIii .sendBegin 0 s buf.length flags
  | .sendto buf flags _ => logbinIii .sendtoBegin 0 s buf.length flags

variable {p : Process σ} {c : IoCall}

theorem wrapReceive_of (virtualFn : Vfd σ → Except Fault (Got σ)) (begin' : LogCall)
    (end' : ℤ → LogCall) {len : ℕ} {flags : ℤ} {k : Kernel} {g : Got σ}
    (hs : 0 ≤ s ∧ s < maxFds) (hd : (p.vfdTab s).ppDispatcher.isSome)
    (hg : (virtualFn (p.vfdTab s) >>= checkCursors) = .ok g) :
    ∃ q, wrapReceive virtualFn begin' end' p s len flags k = .ok q ∧
      q.proc.vfdTab = Function.update p.vfdTab s g.vfd ∧ q.out = g.out ∧
        q.trace = [.log begin'] ++ g.trace ++ [.log (end' g.ret)] := by
  obtain ⟨g', hg', hcheck⟩ := bind_eq_ok hg
  obtain ⟨u, hu, hret⟩ := bind_eq_ok hcheck
  cases hret
  rw [wrapReceive, if_neg (by omega), if_pos hd]
  simp only [hg', hu, ok_bind]
  refine ⟨_, rfl, ?_, rfl, rfl⟩
  cases g.readable with
  | none => rfl
  | some b => cases b <;> rfl

/-- A receive past the processor. -/
theorem run_receive {rc : RecvCall} {g : Got σ} (hs : 0 ≤ s ∧ s < maxFds)
    (hd : (p.vfdTab s).ppDispatcher.isSome) (hc : c.recvCall = some rc)
    (hg : recvOne (p.vfdTab s) s rc = .ok g) :
    ∃ q, c.run p s = .ok q ∧ q.proc.vfdTab = Function.update p.vfdTab s g.vfd ∧ q.out = g.out ∧
      q.trace = [.log (c.begun s)] ++ g.trace ++ [.log (c.logged s g.ret)] := by
  cases c with
  | read len k =>
    cases hc
    exact wrapReceive_of (fun v => virtualRead v s len k) (logbinIi .readBegin 0 s len)
      (fun r => logbinIi .read r s len) hs hd hg
  | recv len flags k =>
    obtain ⟨rfl, hc⟩ := Option.ite_none_right_eq_some.1 hc
    cases hc
    exact wrapReceive_of (fun v => virtualRecv v s len 0 k) (logbinIii .recvBegin 0 s len 0)
      (fun r => logbinIii .recv r s len 0) hs hd hg
  | recvfrom len flags k =>
    obtain ⟨rfl, hc⟩ := Option.ite_none_right_eq_some.1 hc
    cases hc
    exact wrapReceive_of (fun v => virtualRecvfrom v s len 0 k) (logbinIii .recvfromBegin 0 s len 0)
      (fun r => logbinIii .recvfrom r s len 0) hs hd hg
  | _ => cases hc

theorem wrapSend_of (begin' : LogCall) (end' : ℤ → LogCall) {buf : List Byte} {r : ℤ}
    {tr : List Event} (hs : 0 ≤ s ∧ s < maxFds)
    (h : vwriteReq (p.vfdTab s) s buf (toInt r) = .ok (v, tr)) :
    ∃ q, wrapSend begin' end' p s buf r = .ok q ∧
      q.proc.vfdTab = Function.update p.vfdTab s v ∧ q.out = [] ∧
        q.trace = [.log begin'] ++ tr ++ [.log (end' r)] := by
  rw [wrapSend, if_neg (by omega)]
  simp only [h, ok_bind]
  exact ⟨_, rfl, rfl, rfl, rfl⟩

/-- A send. -/
theorem run_send {tr : List Event} (hs : 0 ≤ s ∧ s < maxFds) (hc : c.sent.isSome)
    (h : c.shown (p.vfdTab s) s = .ok (v, tr)) :
    ∃ q ret, c.run p s = .ok q ∧ q.proc.vfdTab = Function.update p.vfdTab s v ∧ q.out = [] ∧
      q.trace = [.log (c.begun s)] ++ tr ++ [.log (c.logged s ret)] := by
  cases c with
  | write buf r =>
    obtain ⟨q, hq⟩ := wrapSend_of (logbinIi .writeBegin 0 s buf.length)
      (fun r => logbinIi .write r s buf.length) hs h
    exact ⟨q, r, hq⟩
  | send buf flags r =>
    obtain ⟨q, hq⟩ := wrapSend_of (logbinIii .sendBegin 0 s buf.length flags)
      (fun r => logbinIii .send r s buf.length flags) hs h
    exact ⟨q, r, hq⟩
  | sendto buf flags r =>
    obtain ⟨q, hq⟩ := wrapSend_of (logbinIii .sendtoBegin 0 s buf.length flags)
      (fun r => logbinIii .sendto r s buf.length flags) hs h
    exact ⟨q, r, hq⟩
  | writev vec r =>
    rw [run, Trace.writev, if_neg (by omega)]
    simp only [shown] at h
    simp only [h, ok_bind]
    exact ⟨_, toInt r, rfl, rfl, rfl, rfl⟩
  | _ => cases hc

variable {x : List Byte × ℤ}

/-- **What a send shows** is drained, behind what the processor had not consumed. -/
theorem shown_drains (hs : Lawful step) (hP : Parses (fun d => P.ppWrite d s) get step mk)
    (h : Unwritten P v b) (hb : drain step (get v.ppData) b = ⟨get v.ppData, b, []⟩)
    (hc : c.sent = some x) (hlow : -1 ≤ x.2) (hle : x.2 ≤ x.1.length)
    (hfit : v.wbuflen + x.2 ≤ vbufsize) :
    ∃ v' tr, c.shown v s = .ok (v', tr) ∧
      Unwritten P v' (drain step (get v.ppData) (b ++ c.taken)).rest ∧
      get v'.ppData = (drain step (get v.ppData) (b ++ c.taken)).state ∧
      messages (logs tr) = (drain step (get v.ppData) (b ++ c.taken)).out.map mk := by
  have hlen := h.len
  have hroom := h.fits
  have hint : toInt x.2 = x.2 := toInt_of_lt (by omega) (by rw [vbufsize] at hfit; omega)
  have hwrite : ∀ (buf : List Byte) (r : ℤ), x = (buf, r) → ∃ v' tr,
      vwriteReq v s buf (toInt r) = .ok (v', tr) ∧
        Unwritten P v' (drain step (get v.ppData) (b ++ buf.take r.toNat)).rest ∧
        get v'.ppData = (drain step (get v.ppData) (b ++ buf.take r.toNat)).state ∧
        messages (logs tr) = (drain step (get v.ppData) (b ++ buf.take r.toNat)).out.map mk := by
    rintro buf r rfl
    have hbytes := vwriteReq_bytes v s ⟨buf, r, hle⟩
    have hn := (WriteCall.mk buf r hle).length_bytes
    simp only at hint hlow hfit hn
    rw [hint, hbytes]
    exact vwriteReq_spec hs hP h hb (by omega)
  cases c with
  | write buf r => exact hwrite buf r (Option.some_inj.1 hc).symm
  | send buf flags r => exact hwrite buf r (Option.some_inj.1 hc).symm
  | sendto buf flags r => exact hwrite buf r (Option.some_inj.1 hc).symm
  | writev vec r =>
    obtain rfl : (vec.flatten, r) = x := Option.some_inj.1 hc
    simp only at hint hlow hle hfit
    rw [shown, writevShown, hint]
    by_cases hr : 0 < r
    · obtain ⟨n, rfl⟩ := Int.eq_ofNat_of_zero_le hr.le
      rw [if_pos ⟨hr, by rw [h.disp]; rfl⟩]
      exact writevReq_drains hs hP h (by omega) (by omega) hfit
    · -- nothing was sent
      have htaken : (IoCall.writev vec r).taken = [] := by
        change vec.flatten.take r.toNat = []
        rw [Int.toNat_of_nonpos (by omega), List.take_zero]
      rw [if_neg fun hpos => hr hpos.1, htaken, List.append_nil, hb]
      exact ⟨v, [], rfl, h, rfl, rfl⟩
  | _ => cases hc

/-- A send leaves reading alone. -/
theorem shown_keeps (hP : KeepsPart P.ppWrite s get Q) (hd : v.ppDispatcher = some P) (c : IoCall) :
    Post (c.shown v s) (SentKeeps get Q v) AnyFault := by
  cases c with
  | write buf r => exact vwriteReq_keeps hP hd buf _
  | send buf flags r => exact vwriteReq_keeps hP hd buf _
  | sendto buf flags r => exact vwriteReq_keeps hP hd buf _
  | writev vec r =>
    rw [shown, writevShown]
    split
    · exact writevReq_keeps hP hd vec _
    · exact .refl v
  | _ => exact .refl v

end IoCall

/-! ## PostgreSQL and MySQL -/

/-- The log calls that reading and writing make beside those of messages. -/
def Sc.quiet : Sc → Bool
  | .readBegin | .read | .recvBegin | .recv | .recvfromBegin | .recvfrom => true
  | .writeBegin | .write | .writevBegin | .writev => true
  | .sendBegin | .send | .sendtoBegin | .sendto => true
  | .ppProp | .ppData | .ppIsoRead => true
  | _ => false

/-- A log call of reading or writing. -/
def LogCall.OfIo (e : LogCall) : Prop :=
  (e.sc = .ppMsgSend ∨ e.sc = .ppMsgRecv) ∨ e.sc.quiet = true

theorem IoCall.begun_quiet (c : IoCall) (s : ℤ) : (c.begun s).sc.quiet = true := by
  cases c <;> rfl

theorem IoCall.logged_quiet (c : IoCall) (s ret : ℤ) : (c.logged s ret).sc.quiet = true := by
  cases c <;> rfl

theorem speakPsql_ofIo {state : PpPsqlStateSide} {m : List Byte} {len : ℕ} {role : PpId}
    {dir : PpDirection} : ∀ e ∈ (speakPsql state s m len role dir).2.2, e.OfIo := by
  have hsend : ∀ r i fd n t, (logbinIiis .ppMsgSend r i fd n t).OfIo :=
    fun _ _ _ _ _ => Or.inl (Or.inl rfl)
  have hrecv : ∀ r i fd n t, (logbinIiis .ppMsgRecv r i fd n t).OfIo :=
    fun _ _ _ _ _ => Or.inl (Or.inr rfl)
  have hprop : ∀ r t u, (logbinSs .ppProp r t u).OfIo := fun _ _ _ => Or.inr rfl
  have hdata : ∀ r t, (logbinS .ppData r t).OfIo := fun _ _ => Or.inr rfl
  unfold speakPsql
  dsimp only
  split_ifs <;>
    simp only [List.forall_mem_cons, List.not_mem_nil, IsEmpty.forall_iff, implies_true, hsend,
      hrecv, hprop, hdata, and_self]

theorem speakMysql_ofIo {state : PpMysqlStateSide} {m : List Byte} {len : ℕ} {role : PpId}
    {dir : PpDirection} : ∀ e ∈ (speakMysql state s m len role dir).2.2, e.OfIo := by
  unfold speakMysql
  dsimp only
  split_ifs
  · simp
  · simp
  · cases role <;> cases dir <;> simp [LogCall.OfIo, Sc.quiet, logbinS, logbinIiis]

theorem psqlRead_keeps (role : PpId) (s : ℤ) :
    KeepsPart (psqlRead role) s PpPsqlState.write LogCall.OfIo := by
  intro d m n a d' l h
  cases h
  exact ⟨rfl, speakPsql_ofIo⟩

theorem psqlWrite_keeps (role : PpId) (s : ℤ) :
    KeepsPart (psqlWrite role) s PpPsqlState.read LogCall.OfIo := by
  intro d m n a d' l h
  cases h
  exact ⟨rfl, speakPsql_ofIo⟩

theorem mysqlRead_keeps (role : PpId) (s : ℤ) :
    KeepsPart (mysqlRead role) s PpMysqlState.write LogCall.OfIo := by
  intro d m n a d' l h
  cases h
  exact ⟨rfl, speakMysql_ofIo⟩

theorem mysqlWrite_keeps (role : PpId) (s : ℤ) :
    KeepsPart (mysqlWrite role) s PpMysqlState.read LogCall.OfIo := by
  intro d m n a d' l h
  cases h
  exact ⟨rfl, speakMysql_ofIo⟩

end BorderPatrol.Trace
