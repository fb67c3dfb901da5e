import BorderPatrol.Foundations.Resumable
import BorderPatrol.Trace.Receive

/-!
# Processors that run a resumable parser

Most processors are a parser called on what they have not consumed. Driven by receive calls such a
processor is called lazily, once for each unit the application reaches; driven by writes it is
called until it asks for more. Either way what it has emitted, and where it stands once nothing is
left to do, is a drain of the whole stream (`recvRun_parses`, `writeRun_parses`), whatever the
fragmentation.
-/

namespace BorderPatrol.Trace

open Foundations Foundations.Resumable

variable {σ τ : Type}

/-- The function `f` of a processor runs the parser `step` on the part `get` of its data. The
parser emits the ids of messages, and `mk` is the log call that reports an id. -/
def Parses (f : σ → List Byte → ℤ → Except Fault (ℤ × σ × List LogCall)) (get : σ → τ)
    (step : Step τ Byte ℤ) (mk : ℤ → LogCall) : Prop :=
  ∀ (d : σ) (m : List Byte) (n : ℕ), 0 < n → n ≤ m.length → n ≤ vbufsize →
    ∃ a d' l, f d m n = .ok (a, d', l) ∧
      (a < 0 ∧ step (get d) (m.take n) = none ∧ get d' = get d ∧ messages l = [] ∨
        ∃ (k : ℕ) (ids : List ℤ), a = k ∧ step (get d) (m.take n) = some (k, get d', ids) ∧
          messages l = ids.map mk)

/-! ## Receive calls -/

/-- The lazily called parser is on its way to where a drain of the stream ends, and when it wants
more, everything it has asked on has been given. -/
def Following (step : Step τ Byte ℤ) (get : σ → τ) (mk : ℤ → LogCall) (t₀ : τ) : Observer σ :=
  fun f w d l => ∃ out, Agrees step t₀ f.seen (get d) f.pending out ∧ messages l = out.map mk ∧
    (w ≠ 0 → ∃ b, b ≠ [] ∧ b <+: f.pending ∧ f.goal = f.taken + b.length ∧ step (get d) b = none)

variable {P : PpDispatcher σ} {s : ℤ} {get : σ → τ} {step : Step τ Byte ℤ} {mk : ℤ → LogCall}

theorem Parses.serves (hs : Lawful step) (hP : Parses (fun d => P.ppRead d s) get step mk)
    (t₀ : τ) : Serves P s (Following step get mk t₀) fun _ => False where
  arrive := by
    rintro f w d l c ht ⟨out, ha, hl, hw⟩
    have hp : (f.arrive c).pending = f.pending ++ c := by
      rw [Flow.pending, Flow.pending, Flow.arrive, List.drop_append_of_le_length ht]
    refine ⟨out, hp ▸ ha.arrive hs c, hl, fun hw' => ?_⟩
    obtain ⟨b, hb, hb', hg, hn⟩ := hw hw'
    exact ⟨b, hb, hp ▸ hb'.trans (List.prefix_append ..), hg, hn⟩
  deliver := fun _ h => h
  iso := by
    rintro f w d l a n ⟨out, ha, hl, hw⟩
    exact ⟨out, ha, by simpa [messages, logbinIi] using hl, hw⟩
  read := by
    rintro f w d l m ⟨out, ha, hl, hw⟩ - hg hw₀ hp hfit hm
    have hpos : 0 < f.pending.length := List.length_pos_of_ne_nil hp
    have hlen : f.pending.length ≤ m.length := by
      rw [← hm, List.length_take]
      omega
    obtain ⟨a, d', l', hr, h⟩ := hP d m _ hpos hlen hfit
    rw [hm] at h
    refine Post.of_ok hr ?_
    rcases h with ⟨hneg, hnone, hget, hmsg⟩ | ⟨k, ids, rfl, hsome, hmsg⟩
    · refine Or.inl ⟨hneg, out, ?_, by rw [messages_append, hl, hmsg, List.append_nil], fun _ => ?_⟩
      · rw [hget]
        exact ha
      · refine ⟨f.pending, hp, List.prefix_refl _, ?_, hget ▸ hnone⟩
        simp only [Flow.starve, Flow.pending, List.length_drop] at hpos ⊢
        omega
    · have hk := hs.bounds hp hsome
      refine Or.inr (Or.inl ⟨?_, by simp only; omega, by simp only; omega, out ++ ids, ?_,
        by rw [messages_append, hl, hmsg, List.map_append], fun h => absurd rfl h⟩)
      · simp only
        by_cases hw' : w = 0
        · have := hw₀ hw'
          omega
        · obtain ⟨b, hb, ⟨c, hbc⟩, hgoal, hn⟩ := hw hw'
          rw [← hbc] at hsome
          have := hs.exceeds hb hn hsome
          omega
      · have hd : (f.take k).pending = f.pending.drop k := by
          simp only [Flow.pending, Flow.take, List.drop_drop]
        rw [Int.toNat_natCast, hd]
        exact ha.take hs hp hsome

/-- **Receive calls on a processor that runs a parser**: every run goes through, the messages
reported are those of the parser, and when the application has been handed all that arrived the
parser stands where a drain of what arrived ends. -/
theorem recvRun_parses (hs : Lawful step) (hP : Parses (fun d => P.ppRead d s) get step mk)
    (v₀ : Vfd σ) (d : σ) {cs : List RecvCall} (hl : ∀ c ∈ cs, c.len < 2 ^ 31) :
    ∃ v gs out left, recvRun s (v₀.opened P d) cs = .ok (v, gs) ∧
      messages (logs (traces gs)) = out.map mk ∧ v.rbuflen - v.rbufofs = (left.length : ℤ) ∧
      handed gs <+: kernelBytes (traces gs) ∧
      (handed gs = kernelBytes (traces gs) →
        drain step (get d) (kernelBytes (traces gs)) = ⟨get v.ppData, left, out⟩) := by
  have hT := tracks_opened (J := Following step get mk (get d)) v₀ P (d := d)
    ⟨[], Agrees.init _, rfl, fun h => absurd rfl h⟩
  obtain ⟨⟨v, gs⟩, hrun, f, hT, hm⟩ := (recvRun_spec (hP.serves hs _) hl hT).total
  obtain ⟨out, ha, hmsg, hw⟩ := hT.obs
  obtain ⟨base, hrep⟩ := hT.rep
  have hlen := hrep.len
  have hofs := hrep.ofs
  have h₁ := hT.wf.taken_le
  have h₂ := hT.wf.goal_le
  have h₃ := hT.wf.given_le
  have hpl : f.pending.length = f.seen.length - f.taken := List.length_drop
  have hseen : f.seen = kernelBytes (traces gs) := by simpa [Flow.start] using hm.seen
  have hgiven : f.given = (handed gs).length := by simpa [Flow.start] using hm.given
  have hout : f.seen.take f.given = handed gs := by simpa [Flow.start] using hm.out
  simp only at hlen hofs hw
  refine ⟨v, gs, out, f.pending, hrun, by simpa using hmsg, by omega, ?_, ?_⟩
  · rw [← hout, ← hseen]
    exact List.take_prefix ..
  · intro hall
    have hgo : f.given = f.seen.length := by rw [hgiven, hseen, hall]
    rw [← hseen]
    refine ha.drained ?_
    by_cases hwant : v.ppwantmore = 0
    · left
      have := hT.unit hwant
      exact List.eq_nil_of_length_eq_zero (by omega)
    · right
      obtain ⟨b, hb, hpre, hgoal, hn⟩ := hw hwant
      rw [← hpre.eq_of_length (by omega)]
      exact hn

/-! ## Writes -/

/-- A sequence of writes through `vwrite_req`. -/
def writeRun (s : ℤ) : Vfd σ → List (List Byte) → Except Fault (Vfd σ × List Event)
  | v, [] => .ok (v, [])
  | v, c :: cs => do
    let (v, tr) ← vwriteReq v s c c.length
    let (v, tr') ← writeRun s v cs
    return (v, tr ++ tr')

/-- At every write of the sequence the bytes not consumed by the processor fit in the buffer. -/
def WriteFits (s : ℤ) : Vfd σ → List (List Byte) → Prop
  | _, [] => True
  | v, c :: cs => v.wbuflen + c.length ≤ vbufsize ∧
      ∀ v' tr, vwriteReq v s c c.length = .ok (v', tr) → WriteFits s v' cs

theorem WriteFits.of_append {v : Vfd σ} {cs₁ cs₂ : List (List Byte)}
    (h : WriteFits s v (cs₁ ++ cs₂)) : WriteFits s v cs₁ := by
  induction cs₁ generalizing v with
  | nil => trivial
  | cons c cs₁ ih => exact ⟨h.1, fun v' tr hw => ih (h.2 v' tr hw)⟩

/-- Between writes the buffer holds the bytes `b` from its start on, which the processor has not
consumed. -/
structure Unwritten (P : PpDispatcher σ) (v : Vfd σ) (b : List Byte) : Prop where
  disp : v.ppDispatcher = some P
  len : v.wbuflen = b.length
  ofs : v.wbufofs = 0
  fits : b.length ≤ vbufsize
  bytes : v.wbuf.slice 0 b.length = b

theorem vwriteLoop_of {v : Vfd σ} (n : ℕ) {vlen req : ℤ} {d : σ} {l : List LogCall}
    (hd : v.ppDispatcher = some P) (hv : v.wbuflen - v.wbufofs = vlen) (hv₀ : vlen ≠ 0)
    (hw : P.ppWrite v.ppData s (v.wwindow v.wbufofs) vlen = .ok (req, d, l)) :
    vwriteLoop (n + 1) v s =
      if 0 < req then
        vwriteLoop n { v with ppData := d, wbufofs := v.wbufofs + req } s >>= fun q =>
          .ok (q.1, l.map Event.log ++ [.ppWrite vlen req] ++ q.2)
      else .ok ({ v with ppData := d }, l.map Event.log ++ [.ppWrite vlen req]) := by
  simp only [vwriteLoop, hv, hv₀, if_false, hd, hw, Bind.bind, Except.bind]
  split <;> rfl

theorem take_wwindow {v : Vfd σ} {b : List Byte} (hlen : v.wbuflen - v.wbufofs = b.length)
    (ho : 0 ≤ v.wbufofs) (hfit : v.wbuflen ≤ vbufsize)
    (hb : v.wbuf.slice v.wbufofs.toNat b.length = b) :
    (v.wwindow v.wbufofs).take b.length = b := by
  rw [Vfd.wwindow, List.take_append_of_le_length (by rw [Mem.length_slice]; omega),
    Mem.take_slice _ _ (by omega), hb]

/-- The loop of `vwrite_req` on a processor that runs a parser is a drain of what the buffer
holds. -/
theorem vwriteLoop_spec (hs : Lawful step) (hP : Parses (fun d => P.ppWrite d s) get step mk)
    {n : ℕ} {v : Vfd σ} {b : List Byte} (hd : v.ppDispatcher = some P)
    (hlen : v.wbuflen - v.wbufofs = b.length) (ho : 0 ≤ v.wbufofs) (hfit : v.wbuflen ≤ vbufsize)
    (hb : v.wbuf.slice v.wbufofs.toNat b.length = b) (hn : b.length < n) :
    ∃ v' tr, vwriteLoop n v s = .ok (v', tr) ∧ v'.ppDispatcher = some P ∧ v'.wbuf = v.wbuf ∧
      v'.wbuflen = v.wbuflen ∧
      v'.wbufofs = v.wbuflen - (drain step (get v.ppData) b).rest.length ∧
      get v'.ppData = (drain step (get v.ppData) b).state ∧
      messages (logs tr) = (drain step (get v.ppData) b).out.map mk := by
  induction n generalizing v b with
  | zero => omega
  | succ n ih =>
    by_cases hbe : b = []
    · subst hbe
      simp only [List.length_nil, Int.natCast_zero] at hlen
      refine ⟨v, [], by simp only [vwriteLoop, hlen, if_true]; rfl, hd, rfl, rfl, ?_, rfl, rfl⟩
      simp only [drain_nil, List.length_nil, Int.natCast_zero]
      omega
    have hpos : 0 < b.length := List.length_pos_of_ne_nil hbe
    have hwin := take_wwindow hlen ho hfit hb
    have hwl : b.length ≤ (v.wwindow v.wbufofs).length := by
      have := congrArg List.length hwin
      rw [List.length_take] at this
      omega
    obtain ⟨a, d', l, hr, h⟩ := hP v.ppData _ _ hpos hwl (by omega)
    rw [hwin] at h
    have heq := vwriteLoop_of n hd hlen (by omega) hr
    rcases h with ⟨hneg, hnone, hget, hmsg⟩ | ⟨k, ids, rfl, hsome, hmsg⟩
    · rw [if_neg (by omega)] at heq
      refine ⟨_, _, heq, hd, rfl, rfl, ?_, ?_, ?_⟩
      · rw [drain_of_none hnone]
        simp only
        omega
      · rw [drain_of_none hnone]
        exact hget
      · rw [drain_of_none hnone]
        simpa [logs] using hmsg
    · have hk := hs.bounds hbe hsome
      rw [if_pos (by omega)] at heq
      have hdl : (b.drop k).length = b.length - k := List.length_drop
      obtain ⟨v', tr, hloop, hd', hbuf, hl', ho', hst, hout⟩ := ih
        (v := { v with ppData := d', wbufofs := v.wbufofs + k }) (b := b.drop k) hd
        (by simp only; omega) (by simp only; omega) hfit
        (by
          simp only
          rw [hdl, show (v.wbufofs + (k : ℤ)).toNat = v.wbufofs.toNat + k by omega,
            ← Mem.drop_slice _ _ hk.2, hb])
        (by omega)
      rw [hloop] at heq
      rw [drain_of_some hs hbe hsome]
      refine ⟨v', _, heq, hd', hbuf, hl', ho', hst, ?_⟩
      simpa [logs, hmsg] using hout

theorem vwriteReq_of {v v' : Vfd σ} {c : List Byte} {tr : List Event} (hd : v.ppDispatcher = some P)
    (hc : 0 < c.length) (h₀ : 0 ≤ v.wbuflen) (h₁ : v.wbuflen + c.length ≤ vbufsize)
    (hloop : vwriteLoop ((v.wbuflen + c.length).toNat + 1) { v with
        wbuf := v.wbuf.store v.wbuflen.toNat c
        wbuflen := v.wbuflen + c.length } s = .ok (v', tr))
    (h₂ : 0 ≤ v'.wbuflen - v'.wbufofs ∧ 0 ≤ v'.wbufofs ∧ v'.wbuflen ≤ vbufsize) :
    vwriteReq v s c c.length = .ok ({ v' with
      wbuf := v'.wbuf.move 0 v'.wbufofs.toNat (v'.wbuflen - v'.wbufofs).toNat
      wbufofs := 0
      wbuflen := v'.wbuflen - v'.wbufofs }, tr) := by
  have hne : ¬ (v.ppDispatcher.isNone ∨ (c.length : ℤ) ≤ 0) := by
    rw [hd]
    rintro (h | h)
    · exact absurd h (by simp)
    · omega
  unfold vwriteReq
  rw [if_neg hne, inBounds_of ⟨Int.le_refl _, h₀, h₁⟩]
  simp only [Bind.bind, Except.bind, Int.toNat_natCast, List.take_length, hloop, inBounds_of h₂]
  rfl

/-- A write of something on a processor that runs a parser drains what was left and what is
written. -/
theorem vwriteReq_drains (hs : Lawful step) (hP : Parses (fun d => P.ppWrite d s) get step mk)
    {v : Vfd σ} {b c : List Byte} (h : Unwritten P v b) (hc : c ≠ [])
    (hfit : v.wbuflen + c.length ≤ vbufsize) :
    ∃ v' tr, vwriteReq v s c c.length = .ok (v', tr) ∧
      Unwritten P v' (drain step (get v.ppData) (b ++ c)).rest ∧
      get v'.ppData = (drain step (get v.ppData) (b ++ c)).state ∧
      messages (logs tr) = (drain step (get v.ppData) (b ++ c)).out.map mk := by
  have hpos : 0 < c.length := List.length_pos_of_ne_nil hc
  have hlen := h.len
  obtain ⟨v', tr, hloop, hd', hbuf, hl', ho', hst, hout⟩ := vwriteLoop_spec hs hP
    (n := (v.wbuflen + c.length).toNat + 1)
    (v := { v with
      wbuf := v.wbuf.store v.wbuflen.toNat c
      wbuflen := v.wbuflen + c.length }) (b := b ++ c) h.disp
    (by simp only [h.ofs, List.length_append]; push_cast; omega) (by simp [h.ofs]) hfit
    (by
      simp only [h.ofs, List.length_append, Int.toNat_zero]
      rw [show v.wbuflen.toNat = b.length by omega]
      have := Mem.slice_store_append v.wbuf c (Nat.zero_le b.length)
      rwa [Nat.sub_zero, h.bytes] at this)
    (by rw [List.length_append]; omega)
  simp only at hl' ho' hst hout hbuf
  obtain ⟨pre, hpre⟩ := drain_suffix hs (get v.ppData) (b ++ c)
  have hplen := congrArg List.length hpre
  simp only [List.length_append] at hplen
  refine ⟨_, tr, vwriteReq_of h.disp hpos (by omega) hfit hloop (by omega), ?_, hst, hout⟩
  constructor
  · exact hd'
  · simp only
    omega
  · rfl
  · omega
  · simp only
    rw [show (v'.wbuflen - v'.wbufofs).toNat = (drain step (get v.ppData) (b ++ c)).rest.length by
      omega]
    have hm := Mem.slice_move v'.wbuf 0 v'.wbufofs.toNat (i := 0)
      (Nat.le_refl (0 + (drain step (get v.ppData) (b ++ c)).rest.length))
    rw [Nat.zero_add, Nat.add_zero, Nat.add_zero] at hm
    rw [hm, hbuf]
    have hst := Mem.slice_store_append v.wbuf c (Nat.zero_le b.length)
    rw [Nat.sub_zero, h.bytes] at hst
    have hdrop := congrArg (List.drop pre.length) hst
    rw [Mem.drop_slice _ _ (by omega), ← hpre, List.drop_left] at hdrop
    rw [show v.wbuflen.toNat = b.length by omega, show v'.wbufofs.toNat = 0 + pre.length by omega]
    rwa [show b.length + c.length - pre.length =
      (drain step (get v.ppData) (b ++ c)).rest.length by omega] at hdrop

/-- Any write drains what a drain has left and what is written. -/
theorem vwriteReq_spec (hs : Lawful step) (hP : Parses (fun d => P.ppWrite d s) get step mk)
    {v : Vfd σ} {b c : List Byte} (h : Unwritten P v b)
    (hb : drain step (get v.ppData) b = ⟨get v.ppData, b, []⟩)
    (hfit : v.wbuflen + c.length ≤ vbufsize) :
    ∃ v' tr, vwriteReq v s c c.length = .ok (v', tr) ∧
      Unwritten P v' (drain step (get v.ppData) (b ++ c)).rest ∧
      get v'.ppData = (drain step (get v.ppData) (b ++ c)).state ∧
      messages (logs tr) = (drain step (get v.ppData) (b ++ c)).out.map mk := by
  by_cases hc : c = []
  · subst hc
    refine ⟨v, [], ?_, ?_⟩
    · simp [vwriteReq]
      rfl
    · rw [List.append_nil, hb]
      exact ⟨h, rfl, rfl⟩
  · exact vwriteReq_drains hs hP h hc hfit

/-- **Writes on a processor that runs a parser**: every run whose unconsumed bytes fit in the
buffer goes through, and it is a drain of the concatenation of what was written. -/
theorem writeRun_spec (hs : Lawful step) (hP : Parses (fun d => P.ppWrite d s) get step mk)
    {v : Vfd σ} {b : List Byte} (h : Unwritten P v b)
    (hb : drain step (get v.ppData) b = ⟨get v.ppData, b, []⟩) {cs : List (List Byte)}
    (hfit : WriteFits s v cs) :
    ∃ v' tr, writeRun s v cs = .ok (v', tr) ∧
      Unwritten P v' (drain step (get v.ppData) (b ++ cs.flatten)).rest ∧
      get v'.ppData = (drain step (get v.ppData) (b ++ cs.flatten)).state ∧
      messages (logs tr) = (drain step (get v.ppData) (b ++ cs.flatten)).out.map mk := by
  induction cs generalizing v b with
  | nil => exact ⟨v, [], rfl, by simpa [hb] using h, by simp [hb], by simp [hb]⟩
  | cons c cs ih =>
    obtain ⟨v₁, tr, hw, h₁, hst, hout⟩ := vwriteReq_spec hs hP h hb hfit.1
    have hdd := drain_drain hs (get v.ppData) (b ++ c)
    obtain ⟨v', tr', hrun, h', hst', hout'⟩ := ih h₁ (by rw [hst]; exact hdd) (hfit.2 v₁ tr hw)
    have happ := drain_append hs (get v.ppData) (b ++ c) cs.flatten
    rw [hst] at h' hst' hout'
    rw [List.flatten_cons, ← List.append_assoc, happ]
    refine ⟨v', tr ++ tr', ?_, h', hst', ?_⟩
    · simp only [writeRun, hw, hrun, Bind.bind, Except.bind]
      rfl
    · simp [hout, hout']

/-- A newly opened descriptor holds nothing to be written. -/
theorem unwritten_opened (v : Vfd σ) (P : PpDispatcher σ) (d : σ) :
    Unwritten P (v.opened P d) [] := by
  constructor <;> simp [Vfd.opened, vfdTabInitOne]

/-- The same from a descriptor just opened. -/
theorem writeRun_parses (hs : Lawful step) (hP : Parses (fun d => P.ppWrite d s) get step mk)
    (v₀ : Vfd σ) (d : σ) {cs : List (List Byte)} (hfit : WriteFits s (v₀.opened P d) cs) :
    ∃ v tr, writeRun s (v₀.opened P d) cs = .ok (v, tr) ∧
      v.wbuflen = ((drain step (get d) cs.flatten).rest.length : ℤ) ∧
      get v.ppData = (drain step (get d) cs.flatten).state ∧
      messages (logs tr) = (drain step (get d) cs.flatten).out.map mk := by
  obtain ⟨v, tr, hrun, hu, hst, hout⟩ :=
    writeRun_spec hs hP (unwritten_opened v₀ P d) (by simp) hfit
  exact ⟨v, tr, hrun, hu.len, hst, hout⟩

end BorderPatrol.Trace
