import BorderPatrol.Foundations.Runs
import BorderPatrol.Trace.HttpsReads
import BorderPatrol.Trace.Protocol.Others

/-!
# The capacity of kernel reads

A refill reads from the kernel behind the bytes the processor has not consumed. When these fill the
buffer the capacity is zero, and the kernel's answer to that, zero, looks like the end of the file.
For a processor that consumes something whenever it does not ask for more, this happens exactly when
the processor asked for more on a whole buffer and the application has been given all of it
(`roomy_iff`). All the processors are of that kind, and only those that wait for a whole header,
query or setup block can get there (`no_invented_eof_iff`).
-/

namespace BorderPatrol.Trace

open Foundations

variable {σ : Type} {P : PpDispatcher σ} {s : ℤ}

/-! ## The cursors between calls -/

/-- The cursors inside a call. -/
structure Bounded (v : Vfd σ) : Prop where
  last : 0 ≤ v.rlastlen
  ofs : 0 ≤ v.rbufofs
  fits : v.rbuflen ≤ vbufsize

/-- The cursors when the processor has just been called: what is to be sent ends where it has
consumed to, or where the valid bytes end when it asked for more. -/
structure Primed (v : Vfd σ) : Prop extends Bounded v where
  want : v.ppwantmore ≠ 0 → v.tosend = v.rbuflen - v.rlastlen
  unit : v.ppwantmore = 0 → v.tosend = v.rbufofs - v.rlastlen

/-- The cursors between calls. -/
structure Squared (v : Vfd σ) : Prop extends Primed v where
  ofs_le : v.rbufofs ≤ v.rbuflen
  send : 0 ≤ v.tosend

theorem squared_opened (v : Vfd σ) (P : PpDispatcher σ) (d : σ) : Squared (v.opened P d) := by
  refine ⟨⟨⟨?_, ?_, ?_⟩, ?_, ?_⟩, ?_, ?_⟩ <;> simp [Vfd.opened, vfdTabInitOne]

/-- The application has been given everything and the processor asked for more on a whole buffer. -/
def Vfd.Full (v : Vfd σ) : Prop :=
  v.tosend = 0 ∧ v.ppwantmore ≠ 0 ∧ v.rbuflen - v.rbufofs = vbufsize

instance (v : Vfd σ) : Decidable v.Full := inferInstanceAs (Decidable (_ ∧ _))

/-- The processor consumes something or asks for more. -/
def NeverIdle (P : PpDispatcher σ) (s : ℤ) : Prop :=
  ∀ d m (n : ℕ), 0 < n → n ≤ vbufsize → n ≤ m.length →
    Post (P.ppRead d s m n) (fun r => r.1 ≠ 0) AnyFault

/-- The kernel reads in a trace have the capacity `n`. -/
def Caps (n : ℕ) (tr : List Event) : Prop :=
  ∀ flags cap ret b, Event.realRead flags cap ret b ∈ tr → cap = n

/-- The processor keeps `I` of its data when it reads. -/
def KeepsData (P : PpDispatcher σ) (s : ℤ) (I : σ → Prop) : Prop :=
  ∀ d m (n : ℕ) a d' l, 0 < n → I d → P.ppRead d s m n = .ok (a, d', l) → I d'

/-- The descriptor has the processor `P`, with data in `I`. When the processor wants more, it said
so when it was shown what the buffer holds for it. -/
structure Served (P : PpDispatcher σ) (s : ℤ) (I : σ → Prop) (v : Vfd σ) : Prop where
  disp : v.ppDispatcher = some P
  data : I v.ppData
  asked : v.ppwantmore ≠ 0 → ∃ (m : List Byte) (n : ℕ) (d : σ) (a : ℤ) (l : List LogCall),
    v.rbuflen - v.rbufofs = n ∧ n ≤ m.length ∧ m.take n = v.rbuf.slice v.rbufofs.toNat n ∧
      P.ppRead d s m n = .ok (a, v.ppData, l) ∧ a < 0

/-- What one call does to the cursors and what it asks of the kernel: if it does, everything has
been given, and the room behind the bytes not consumed is the capacity. -/
structure Reads (P : PpDispatcher σ) (s : ℤ) (I : σ → Prop) (v : Vfd σ) (c : RecvCall) (g : Got σ) :
    Prop where
  squared : Squared g.vfd
  served : Served P s I g.vfd
  caps : Caps (vbufsize - (v.rbuflen - v.rbufofs)).toNat g.trace
  asked : (∃ flags cap ret b, Event.realRead flags cap ret b ∈ g.trace) →
    v.tosend = 0 ∧ (v.ppwantmore ≠ 0 ∨ v.rbufofs = v.rbuflen)
  eof : 0 < c.len → c.len < 2 ^ 32 → g.ret = 0 →
    ∃ flags cap b, Event.realRead flags cap 0 b ∈ g.trace

variable {I : σ → Prop} {v : Vfd σ}

theorem caps_nil (n : ℕ) : Caps n [] := by
  intro _ _ _ _ h
  cases h

theorem caps_log (n : ℕ) {tr : List Event} (h : ∀ e ∈ tr, ∀ flags cap ret b,
    e ≠ .realRead flags cap ret b) : Caps n tr := by
  intro flags cap ret b hmem
  exact absurd rfl (h _ hmem flags cap ret b)

/-- `present_pp` with something to present. -/
theorem presentPp_primed (hP : NeverIdle P s) (hI : KeepsData P s I) (hd : v.ppDispatcher = some P)
    (hdata : I v.ppData) (hv : Bounded v) (hlt : v.rbufofs < v.rbuflen) :
    Post (presentPp v s) (fun r => Primed r.1 ∧ Served P s I r.1 ∧
      (r.1.tosend = v.rbuflen - v.rlastlen ∨ v.rbufofs - v.rlastlen < r.1.tosend) ∧
      ∀ e ∈ r.2, ∀ flags cap ret b, e ≠ .realRead flags cap ret b) AnyFault := by
  obtain ⟨n, hn⟩ : ∃ n : ℕ, v.rbuflen - v.rbufofs = n := ⟨(v.rbuflen - v.rbufofs).toNat, by omega⟩
  have hpos : 0 < n := by omega
  have hfits := hv.fits
  have hofs := hv.ofs
  have hle : n ≤ vbufsize := by omega
  have hlen : n ≤ (v.rwindow v.rbufofs).length := by
    rw [Vfd.rwindow, List.length_append, Mem.length_slice]
    omega
  have htake : (v.rwindow v.rbufofs).take n = v.rbuf.slice v.rbufofs.toNat n := by
    rw [Vfd.rwindow, List.take_append_of_le_length (by rw [Mem.length_slice]; omega),
      Mem.take_slice _ _ (by omega)]
  rw [presentPp_of hd (by omega), hn]
  have hne := hP v.ppData (v.rwindow v.rbufofs) n hpos hle hlen
  rcases hr : P.ppRead v.ppData s (v.rwindow v.rbufofs) n with e | ⟨a, d, l⟩
  · trivial
  have hdata' := hI _ _ _ _ _ _ hpos hdata hr
  rw [hr] at hne
  simp only [Post.ok_iff] at hne
  rw [ok_bind, Post.ok_iff]
  unfold ppAnswered
  split
  · next ha =>
    refine ⟨⟨⟨hv.last, hv.ofs, hv.fits⟩, fun _ => rfl, fun h => by cases h⟩,
      ⟨hd, hdata', fun _ => ⟨_, n, _, a, l, hn, hlen, htake, hr, ha⟩⟩, Or.inl rfl, ?_⟩
    intro e he flags cap ret b
    simp only [List.mem_append, List.mem_map, List.mem_singleton] at he
    rcases he with ⟨_, -, rfl⟩ | rfl <;> simp
  · next ha =>
    have ha' : 0 < a := by omega
    refine ⟨⟨⟨hv.last, by simp only; omega, hv.fits⟩, fun h => absurd rfl h, fun _ => rfl⟩,
      ⟨hd, hdata', fun h => absurd rfl h⟩, Or.inr (by simp only; omega), ?_⟩
    intro e he flags cap ret b
    simp only [List.mem_append, List.mem_map, List.mem_singleton] at he
    rcases he with (⟨_, -, rfl⟩ | rfl) | he
    · simp
    · simp
    · split at he
      · simp only [List.mem_singleton] at he
        rw [he]
        simp
      · cases he

/-- What `buf_ret` gives when it goes through. -/
theorem bufRet_post (v : Vfd σ) (len : ℕ) :
    Post (bufRet v len) (fun g => ∃ n : ℤ,
      g.vfd = { v with rlastlen := v.rlastlen + n, tosend := v.tosend - n } ∧ g.ret = n ∧
        g.trace = [] ∧ n = min (toInt len) v.tosend ∧ 0 ≤ n ∧ 0 ≤ v.tosend - n ∧ v.tosend ≠ 0)
      AnyFault := by
  unfold bufRet
  refine (cAssert_post fun _ => trivial).bind fun _ hts => ?_
  refine (cAssert_post fun _ => trivial).bind fun _ _ => ?_
  refine (inBounds_post fun _ => trivial).bind fun _ hb => ?_
  refine (cAssert_post fun _ => trivial).bind fun _ hs => ?_
  exact ⟨_, rfl, rfl, rfl, rfl, hb.2.1, hs, hts⟩

/-- `buf_ret` and the wrapper's assertion. -/
theorem bufRet_squared {c : RecvCall} (hv : Primed v) (hh : Served P s I v) (tr : List Event) :
    Post (bufRet v c.len >>= fun g => checkCursors { g with trace := tr ++ g.trace })
      (fun g => Squared g.vfd ∧ Served P s I g.vfd ∧ g.trace = tr ∧
        (0 < c.len → c.len < 2 ^ 32 → g.ret ≠ 0)) AnyFault := by
  have hlast := hv.last
  have hofs := hv.ofs
  have hfits := hv.fits
  have hwant := hv.want
  have hunit := hv.unit
  refine (bufRet_post v c.len).bind ?_
  rintro g ⟨n, hvfd, hret, htr, hn, h₀, hs, hts⟩
  unfold checkCursors
  refine (cAssert_post fun _ => trivial).bind fun _ hle => ?_
  simp only [hvfd] at hle
  rw [Post.pure_iff]
  simp only [hvfd, hret, htr, List.append_nil]
  refine ⟨⟨⟨⟨by simp only; omega, hofs, hfits⟩, fun h => ?_, fun h => ?_⟩, hle, hs⟩,
    ⟨hh.disp, hh.data, hh.asked⟩, trivial, fun hpos hlt h => ?_⟩
  · have := hwant h
    simp only
    omega
  · have := hunit h
    simp only
    omega
  · -- a length below 2 ^ 32 that is zero as an `int` is zero
    have hne : toInt c.len ≠ 0 := by
      unfold toInt
      rw [Int.bmod_def]
      split <;> omega
    omega

/-- `buf_shift` between calls, when nothing is to be sent. -/
theorem bufShift_squared (hv : Squared v) (hs : Served P s I v) (hts : v.tosend = 0) :
    ∃ v₁, bufShift v = .ok v₁ ∧ Squared v₁ ∧ Served P s I v₁ ∧
      v₁.rbuflen - v₁.rbufofs = v.rbuflen - v.rbufofs ∧ v₁.rbufofs = 0 := by
  have hlast := hv.last
  have hofs := hv.ofs
  have hfits := hv.fits
  have hle := hv.ofs_le
  have hlast' : v.rlastlen = v.rbufofs ∨ v.ppwantmore ≠ 0 ∧ v.rlastlen = v.rbuflen := by
    by_cases hw : v.ppwantmore = 0
    · have := hv.unit hw
      omega
    · have := hv.want hw
      omega
  have hmin : min v.rbufofs v.rlastlen = v.rbufofs := by omega
  by_cases h₀ : v.rbufofs = 0
  · have hz : min v.rbufofs v.rlastlen = 0 := by omega
    exact ⟨v, by simp only [bufShift, hz, if_true]; rfl, hv, hs, rfl, h₀⟩
  refine ⟨_, bufShift_of_ne (by omega) (by omega),
    ⟨⟨⟨?_, ?_, ?_⟩, fun h => ?_, fun h => ?_⟩, ?_, ?_⟩,
    ⟨hs.disp, hs.data, fun hw => ?_⟩, ?_, ?_⟩ <;> simp only [hmin]
  · omega
  · omega
  · omega
  · have := hv.want h
    omega
  · have := hv.unit h
    omega
  · omega
  · exact hv.send
  · obtain ⟨m, n, d, a, l, hn, hm, htake, hr, ha⟩ := hs.asked hw
    refine ⟨m, n, d, a, l, by omega, hm, ?_, hr, ha⟩
    have hmove := Mem.slice_move v.rbuf 0 v.rbufofs.toNat (n := n) (i := 0) (k := n) (by omega)
    rw [Nat.add_zero, Nat.add_zero] at hmove
    rw [htake, hn, Int.sub_self, Int.toNat_natCast, Int.toNat_zero, hmove]
  · omega
  · omega

/-- The refill reads behind the bytes not consumed. -/
theorem fetch_squared (hv : Squared v) (hs : Served P s I v) (hts : v.tosend = 0) (flags : ℤ)
    (q : Kernel) :
    ∃ v' r ev, fetch v flags q = .ok (v', r, ev) ∧
      (∃ b, ev = .realRead flags (vbufsize - (v.rbuflen - v.rbufofs)).toNat r b ∧
        (0 < r → b ≠ [] ∧ b.length ≤ (vbufsize - (v.rbuflen - v.rbufofs)).toNat)) ∧ Bounded v' ∧
      v'.ppDispatcher = some P ∧ I v'.ppData ∧ (r ≤ 0 → Squared v' ∧ Served P s I v') ∧
      (0 < r → v'.rbufofs < v'.rbuflen) := by
  obtain ⟨v₁, hv₁, hsq, hs₁, hlen, hz⟩ := bufShift_squared hv hs hts
  have hfits := hsq.fits
  have hofs := hsq.ofs_le
  have hfetch := fetch_of flags q hv₁ hfits
  rw [show v.rbuflen - v.rbufofs = v₁.rbuflen by omega]
  simp only at hfetch
  set r := q flags (vbufsize - v₁.rbuflen).toNat with hr
  have hcap := r.fits
  refine ⟨_, _, _, hfetch, ⟨_, rfl, fun hpos => ?_⟩, ?_, ?_, ?_, fun hle => ?_, fun hpos => ?_⟩
  · rcases hcap with ⟨hle, -⟩ | ⟨-, heq, hcap⟩
    · omega
    · refine ⟨fun hb => ?_, hcap⟩
      rw [hb] at heq
      simp only [List.length_nil, Int.natCast_zero] at heq
      omega
  · split
    · exact hsq.toBounded
    · next hpos => exact ⟨hsq.last, hsq.ofs, by simp only; omega⟩
  · split <;> exact hs₁.disp
  · split <;> exact hs₁.data
  · rw [if_pos hle]
    exact ⟨hsq, hs₁⟩
  · rw [if_neg (by omega)]
    simp only
    omega

/-- **A receive call** on any processor that is never idle. -/
theorem recvOne_reads (hP : NeverIdle P s) (hI : KeepsData P s I) (hv : Squared v)
    (hs : Served P s I v) (c : RecvCall) : Post (recvOne v s c) (Reads P s I v c) AnyFault := by
  have hofs_le := hv.ofs_le
  rw [recvOne_eq]
  unfold virtualGet
  by_cases hts : v.tosend ≠ 0
  · rw [if_pos hts]
    have h := bufRet_squared (c := c) hv.toPrimed hs []
    simp only [List.nil_append] at h
    refine Post.mono (R := Reads P s I v c) h ?_
    rintro g ⟨hsq, hs', htr, hret⟩
    refine ⟨hsq, hs', htr ▸ caps_nil _, ?_, fun h₁ h₂ h₃ => absurd h₃ (hret h₁ h₂)⟩
    rintro ⟨_, _, _, _, hmem⟩
    rw [htr] at hmem
    cases hmem
  rw [if_neg hts]
  have hts : v.tosend = 0 := by omega
  by_cases hpres : v.rbufofs < v.rbuflen ∧ v.ppwantmore = 0
  · rw [if_pos hpres, bind_assoc]
    have hunit := hv.unit hpres.2
    refine (presentPp_primed hP hI hs.disp hs.data hv.toBounded hpres.1).bind ?_
    rintro ⟨v₁, tr⟩ ⟨hpr, hs₁, hsend, htr⟩
    simp only at hpr hs₁ hsend htr ⊢
    rw [if_pos (show v₁.tosend ≠ 0 by omega), bind_assoc]
    have h := bufRet_squared (c := c) hpr hs₁ tr
    simp only [pure_bind]
    refine h.mono ?_
    rintro g ⟨hsq, hs', htr', hret⟩
    refine ⟨hsq, hs', htr' ▸ caps_log _ htr, ?_, fun h₁ h₂ h₃ => absurd h₃ (hret h₁ h₂)⟩
    rintro ⟨flags, cap, ret, b, hmem⟩
    rw [htr'] at hmem
    exact absurd rfl (htr _ hmem flags cap ret b)
  · rw [if_neg hpres]
    have hasked : v.tosend = 0 ∧ (v.ppwantmore ≠ 0 ∨ v.rbufofs = v.rbuflen) := by
      refine ⟨hts, ?_⟩
      by_cases hw : v.ppwantmore = 0
      · right
        by_contra hne
        exact hpres ⟨by omega, hw⟩
      · exact Or.inl hw
    obtain ⟨v₁, r, ev, hfetch, ⟨b, hev, -⟩, hbd, hdisp, hdata, hnone, hsome⟩ :=
      fetch_squared hv hs hts 0 c.kernel
    rw [refill_eq hts hfetch]
    split
    · next hle =>
      obtain ⟨hsq, hs₁⟩ := hnone hle
      unfold checkCursors
      rw [cAssert_of hsq.ofs_le]
      refine ⟨hsq, hs₁, ?_, fun _ => hasked, fun _ _ h => ?_⟩
      · intro flags cap ret b' hmem
        simp only [List.mem_singleton, hev, Event.realRead.injEq] at hmem
        exact hmem.2.1
      · simp only at h
        exact ⟨0, _, b, by rw [hev, h]; exact List.mem_singleton_self _⟩
    · next hgt =>
      refine (presentPp_primed hP hI hdisp hdata hbd (hsome (by omega))).bind ?_
      rintro ⟨v₂, tr⟩ ⟨hpr, hs₂, -, htr⟩
      simp only at hpr hs₂ htr ⊢
      unfold finish
      refine (cAssert_post fun _ => trivial).bind fun _ _ => ?_
      have h := bufRet_squared (c := c) hpr hs₂ (ev :: tr)
      have heq : (bufRet v₂ c.len >>= fun g =>
          checkCursors { g with trace := ev :: tr ++ g.trace }) =
          bufRet v₂ c.len >>= fun g => cAssert (g.vfd.rbufofs ≤ g.vfd.rbuflen) >>= fun _ =>
            pure { g with trace := ev :: tr ++ g.trace } := rfl
      rw [heq] at h
      refine h.mono ?_
      rintro g ⟨hsq, hs₃, htr', hret⟩
      refine ⟨hsq, hs₃, ?_, fun _ => hasked, fun h₁ h₂ h₃ => absurd h₃ (hret h₁ h₂)⟩
      rw [htr']
      intro flags cap ret b' hmem
      rcases List.mem_cons.1 hmem with heq | hmem
      · rw [hev, Event.realRead.injEq] at heq
        exact heq.2.1
      · exact absurd rfl (htr _ hmem flags cap ret b')

/-- On a full descriptor a call reads from the kernel with no room, and goes through. -/
theorem Vfd.Full.reads (h : v.Full) (hv : Squared v) (hs : Served P s I v) (c : RecvCall) :
    ∃ g r b, recvOne v s c = .ok g ∧ Event.realRead 0 0 r b ∈ g.trace := by
  obtain ⟨hts, hw, hfull⟩ := h
  obtain ⟨v₁, r, ev, hfetch, ⟨b, hev, hb⟩, -, -, -, hnone, -⟩ := fetch_squared hv hs hts 0 c.kernel
  rw [show (vbufsize - (v.rbuflen - v.rbufofs)).toNat = 0 by omega] at hev hb
  have hr : r ≤ 0 := by
    -- the kernel cannot give anything
    by_contra hpos
    obtain ⟨hne, hlen⟩ := hb (by omega)
    exact hne (List.eq_nil_of_length_eq_zero (by omega))
  rw [recvOne_eq]
  unfold virtualGet
  rw [if_neg (by omega), if_neg fun h => hw h.2, refill_eq hts hfetch, if_pos hr]
  unfold checkCursors
  rw [cAssert_of (hnone hr).1.ofs_le]
  exact ⟨_, r, b, rfl, by rw [hev]; exact List.mem_singleton_self _⟩

/-! ## Runs -/

/-- One receive call, as a step of the descriptor. -/
def recvStep (s : ℤ) (v : Vfd σ) (c : RecvCall) : Except Fault (Vfd σ) :=
  recvOne v s c >>= fun g => .ok g.vfd

/-- The call reads from the kernel with room only, and returns 0 only when the kernel did so on a
read with room. -/
def Honest (s : ℤ) (v : Vfd σ) (c : RecvCall) : Prop :=
  ∀ g, recvOne v s c = .ok g →
    (∀ flags cap ret b, Event.realRead flags cap ret b ∈ g.trace → 0 < cap) ∧
      (g.ret = 0 → ∃ flags cap b, Event.realRead flags cap 0 b ∈ g.trace ∧ 0 < cap)

theorem recvStep_ok {v' : Vfd σ} {c : RecvCall} (h : recvStep s v c = .ok v') :
    ∃ g, recvOne v s c = .ok g ∧ g.vfd = v' := by
  unfold recvStep at h
  rcases hg : recvOne v s c with e | g
  · rw [hg] at h
    cases h
  · rw [hg] at h
    cases h
    exact ⟨g, rfl, rfl⟩

/-- A call is honest exactly when the descriptor is not full. -/
theorem honest_iff (hP : NeverIdle P s) (hI : KeepsData P s I) (hv : Squared v)
    (hs : Served P s I v)
    {c : RecvCall} (hpos : 0 < c.len) (hlt : c.len < 2 ^ 32) : Honest s v c ↔ ¬ v.Full := by
  constructor
  · intro h hfull
    obtain ⟨g, r, b, hg, hmem⟩ := hfull.reads hv hs c
    exact absurd ((h g hg).1 _ _ _ _ hmem) (by omega)
  · intro hfull g hg
    have hr := (recvOne_reads hP hI hv hs c).of_eq_ok hg
    have hroom : ∀ flags cap ret b, Event.realRead flags cap ret b ∈ g.trace → 0 < cap := by
      intro flags cap ret b hmem
      obtain ⟨hts, hwant⟩ := hr.asked ⟨flags, cap, ret, b, hmem⟩
      rw [hr.caps flags cap ret b hmem]
      have hle := hv.fits
      have h₀ := hv.ofs
      have hne : v.rbuflen - v.rbufofs ≠ vbufsize := by
        intro heq
        rcases hwant with hw | hw
        · exact hfull ⟨hts, hw, heq⟩
        · have : (0 : ℤ) < vbufsize := by decide
          omega
      omega
    refine ⟨hroom, fun hz => ?_⟩
    obtain ⟨flags, cap, b, hmem⟩ := hr.eof hpos hlt hz
    exact ⟨flags, cap, b, hmem, hroom _ _ _ _ hmem⟩

/-- The cursors and the processor along a run. -/
theorem always_squared (hP : NeverIdle P s) (hI : KeepsData P s I) (v₀ : Vfd σ) {d : σ} (hd : I d)
    (cs : List RecvCall) :
    Always (recvStep s) (v₀.opened P d) cs fun v => Squared v ∧ Served P s I v := by
  refine always_of_step ⟨squared_opened v₀ P d, rfl, hd, fun h => absurd rfl h⟩ ?_
  rintro v c v' ⟨hv, hs⟩ hstep
  obtain ⟨g, hg, rfl⟩ := recvStep_ok hstep
  have hr := (recvOne_reads hP hI hv hs c).of_eq_ok hg
  exact ⟨hr.squared, hr.served⟩

/-- **Honest ends of file**: with a processor that is never idle all calls of a run are honest
exactly when none is made on a full descriptor. -/
theorem roomy_iff (hP : NeverIdle P s) (v₀ : Vfd σ) (d : σ) {cs : List RecvCall}
    (hlen : ∀ c ∈ cs, 0 < c.len ∧ c.len < 2 ^ 32) :
    Along (recvStep s) (v₀.opened P d) cs (Honest s) ↔
      Along (recvStep s) (v₀.opened P d) cs fun v _ => ¬ v.Full := by
  have hI : KeepsData P s fun _ => True := fun _ _ _ _ _ _ _ _ _ => trivial
  have hinv := always_squared hP hI v₀ (d := d) trivial cs
  have hone : ∀ pre c, pre ++ [c] <+: cs → ∀ v, runSteps (recvStep s) (v₀.opened P d) pre = .ok v →
      (Honest s v c ↔ ¬ v.Full) := by
    intro pre c hpre v hrun
    obtain ⟨hv, hs⟩ := hinv pre ((List.prefix_append pre [c]).trans hpre) v hrun
    have hc := hlen c (hpre.subset (by simp))
    exact honest_iff hP hI hv hs hc.1 hc.2
  exact ⟨fun h pre c hpre v v' hrun hstep =>
      (hone pre c hpre v hrun).1 (h pre c hpre v v' hrun hstep),
    fun h pre c hpre v v' hrun hstep => (hone pre c hpre v hrun).2 (h pre c hpre v v' hrun hstep)⟩

/-! ## The processors -/

theorem Parses.neverIdle {τ : Type} {get : σ → τ} {step : Resumable.Step τ Byte ℤ}
    {mk : ℤ → LogCall} (hs : Resumable.Lawful step)
    (hP : Parses (fun d => P.ppRead d s) get step mk) : NeverIdle P s := by
  intro d m n hpos hfit hlen
  obtain ⟨a, d', l, hr, h⟩ := hP d m n hpos hlen hfit
  refine Post.of_ok hr ?_
  rcases h with ⟨ha, -⟩ | ⟨k, ids, rfl, hsome, -⟩
  · simp only
    omega
  · have hne : m.take n ≠ [] := by
      apply List.ne_nil_of_length_pos
      rw [List.length_take]
      omega
    have := hs.bounds hne hsome
    simp only
    omega

/-- A parser that asks for more is in front of a unit that has not wholly come, or is stuck. -/
theorem Parses.of_neg {τ : Type} {get : σ → τ} {want : τ → Resumable.Want τ Byte ℤ}
    {mk : ℤ → LogCall} (hP : Parses (fun d => P.ppRead d s) get (Resumable.unitStep want) mk)
    {d d' : σ} {m : List Byte} {n : ℕ} {a : ℤ} {l : List LogCall} (hpos : 0 < n)
    (hlen : n ≤ m.length) (hfit : n ≤ vbufsize) (hr : P.ppRead d s m n = .ok (a, d', l))
    (ha : a < 0) :
    (∃ k f, want (get d') = .whole k f ∧ n < k) ∨ want (get d') = .stuck := by
  obtain ⟨a', d'', l', hr', h⟩ := hP d m n hpos hlen hfit
  have heq := hr.symm.trans hr'
  simp only [Except.ok.injEq, Prod.mk.injEq] at heq
  obtain ⟨rfl, rfl, rfl⟩ := heq
  have htake : (m.take n).length = n := by
    rw [List.length_take]
    omega
  rcases h with ⟨-, hnone, hget, -⟩ | ⟨k, _, rfl, -⟩
  · rw [hget]
    simp only [Resumable.unitStep, htake] at hnone
    split at hnone
    · next k f hw =>
      split at hnone
      · next hlt => exact Or.inl ⟨k, f, hw, hlt⟩
      · cases hnone
    · cases hnone
    · cases hnone
    · next hw => exact Or.inr hw
  · omega

/-- `speak_fcgi` consumes something or asks for more, and on a whole header it consumes. -/
theorem speakFcgi_takes {junk : PpFcgiState → List Byte} {state : PpFcgiState} {m : List Byte}
    {n : ℕ} {role : PpId} {dir : PpDirection} (hpos : 0 < n) :
    Post (speakFcgi junk state s m n role dir) (fun r => r.1 ≠ 0 ∧ (8 ≤ n → 0 < r.1))
      AnyFault := by
  unfold speakFcgi
  split
  · rw [Post.pure_iff]
    simp only
    omega
  split
  · split
    · next hlt =>
      rw [Post.pure_iff]
      have : fcgiHeaderLen = 8 := rfl
      simp only
      omega
    · rw [Post.pure_iff]
      have : fcgiHeaderLen = 8 := rfl
      simp only
      omega
  · refine (cAssert_post fun _ => trivial).bind fun _ hbody => ?_
    have htoread : ∀ l : List LogCall, Post (pure (state.body, state.finish, l))
        (fun r => r.1 ≠ 0 ∧ (8 ≤ n → 0 < r.1)) AnyFault := by
      intro l
      rw [Post.pure_iff]
      simp only
      omega
    split
    · rcases state.streamType with _ | streamType
      · exact htoread _
      · exact (inBounds_post fun _ => trivial).bind fun _ _ => htoread _
    · rw [Post.pure_iff]
      simp only
      omega

theorem fcgiRead_takes {junk : PpFcgiState → List Byte} {role : PpId} {d : PpFcgiStateWrap}
    {m : List Byte} {n : ℕ} (hpos : 0 < n) :
    Post (fcgiRead junk role d s m n) (fun r => r.1 ≠ 0 ∧ (8 ≤ n → 0 < r.1)) AnyFault :=
  (speakFcgi_takes hpos).bind fun _ h => h

theorem ppHttpsRead_spec {heap : ℤ → List Byte} {d : PpHttpState} {m : List Byte} {n : ℕ}
    (hpos : 0 < n) :
    Post (ppHttpsRead heap d s m n) (fun r => r.1 ≠ 0 ∧
      ((d.read.done = 0 → d.read.awaitHeader ≠ 0) → r.2.1.read.done = 0 →
        r.2.1.read.awaitHeader ≠ 0) ∧
      (r.1 < 0 → r.2.1 = d ∧ d.read.done = 0 ∧
        (d.read.awaitHeader ≠ 0 → strstr headerEnd m = none))) AnyFault := by
  by_cases hd : d.read.done = 0
  · by_cases ha : d.read.awaitHeader = 0
    · rw [ppHttpsRead_idle hd ha]
      exact (cAssert_post fun _ => trivial).bind fun _ _ =>
        ⟨by simp, fun h => h, fun _ => ⟨rfl, hd, fun h => absurd ha h⟩⟩
    · rcases hm : strstr headerEnd m with _ | i
      · rw [ppHttpsRead_none hd ha hm]
        exact ⟨by simp, fun h => h, fun _ => ⟨rfl, hd, fun _ => rfl⟩⟩
      · rw [ppHttpsRead_some hd ha hm]
        refine (httpsHeader_spec.mono_error fun _ _ => trivial).bind ?_
        rintro ⟨a, state, l⟩ ⟨rfl, hst⟩
        exact ⟨by simp only; omega, fun _ => hst, fun h => by simp only at h; omega⟩
  · rw [ppHttpsRead_done hd]
    exact ⟨by simp only; omega, fun h => h, fun h => by simp only at h; omega⟩

theorem ppXcRead_spec {d : PpXState} {m : List Byte} {n : ℕ} :
    Post (ppXcRead d s m n) (fun r => r.1 ≠ 0 ∧ (r.1 < 0 → r.2.1 = d ∧
      (n < 32 ∨ d.success ≠ 0 ∧ n < d.setup))) AnyFault := by
  unfold ppXcRead
  split
  · refine (cAssert_post fun _ => trivial).bind fun _ _ => ?_
    split
    · rw [Post.pure_iff]
      exact ⟨by simp, fun _ => ⟨rfl, Or.inl (by omega)⟩⟩
    · rw [Post.pure_iff]
      exact ⟨by simp, fun h => absurd h (by simp)⟩
  next hsucc =>
  split
  · next hsetup =>
    split
    · next hlt =>
      rw [Post.pure_iff]
      exact ⟨by simp, fun _ => ⟨rfl, Or.inr ⟨hsucc, hlt⟩⟩⟩
    · rw [Post.pure_iff]
      exact ⟨by simp only; omega, fun h => by simp only at h; omega⟩
  · split
    · rw [Post.pure_iff]
      exact ⟨by simp, fun _ => ⟨rfl, Or.inl (by omega)⟩⟩
    · rw [Post.pure_iff]
      exact ⟨by simp, fun h => absurd h (by simp)⟩

namespace Installed

variable (i : Installed)

/-- No processor is idle on what it is shown. -/
theorem neverIdle : NeverIdle i.pp s := by
  have hpsql : ∀ role, role = PpId.psqlc ∨ role = .psqls → ∀ init shut write,
      NeverIdle ⟨"postgresql", init, shut, psqlRead role, write⟩ s := fun role hr _ _ _ =>
    Parses.neverIdle (psqlUnits_lawful _) (psqlRead_parses hr s)
  have hmysql : ∀ role, role = PpId.mysqlc ∨ role = .mysqls → ∀ init shut write,
      NeverIdle ⟨"mysql", init, shut, mysqlRead role, write⟩ s := fun role hr _ _ _ =>
    Parses.neverIdle mysqlUnits_lawful (mysqlRead_parses hr s)
  cases i with
  | https heap write => exact fun d m n hpos _ _ => (ppHttpsRead_spec hpos).mono fun _ h => h.1
  | psqls => exact hpsql _ (Or.inr rfl) _ _ _
  | mysqls => exact hmysql _ (Or.inr rfl) _ _ _
  | perlps =>
    intro d m n hpos _ _
    change (n : ℤ) ≠ 0
    omega
  | fcgis junk => exact fun d m n hpos _ _ => (fcgiRead_takes hpos).mono fun _ h => h.1
  | httpc =>
    intro d m n hpos _ _
    change (n : ℤ) ≠ 0
    omega
  | psqlc => exact hpsql _ (Or.inl rfl) _ _ _
  | mysqlc => exact hmysql _ (Or.inl rfl) _ _ _
  | fcgic junk => exact fun d m n hpos _ _ => (fcgiRead_takes hpos).mono fun _ h => h.1
  | xc => exact fun d m n _ _ _ => ppXcRead_spec.mono fun _ h => h.1

/-- A side of `speak_psql` is in the middle of a query longer than the buffer, or it is stuck behind
a message without a payload. -/
def Longer (state : PpPsqlStateSide) : Prop :=
  state.type = 'Q'.toUInt8 ∧ vbufsize < state.todo ∨
    state.todo = 0 ∧ state.gotStartup ≠ 0 ∧ state.gotHeader ≠ 0

/-- What the processor is waiting for, when the bytes `b` that fill the buffer are not enough. -/
def Greedy : (i : Installed) → i.Data → List Byte → Prop
  | https .., d, b => d.read.done = 0 ∧ strstr headerEnd (b ++ [0]) = none
  | psqls, d, _ | psqlc, d, _ => Longer d.read
  | xc, d, _ => d.success ≠ 0 ∧ vbufsize < d.setup
  | mysqls, _, _ | mysqlc, _, _ | perlps, _, _ | fcgis _, _, _ | fcgic _, _, _
  | httpc, _, _ => False

/-- What holds of the data between calls. -/
def Steady : (i : Installed) → i.Data → Prop
  | https .., d => d.read.done = 0 → d.read.awaitHeader ≠ 0
  | _, _ => True

theorem keeps_steady : KeepsData i.pp s i.Steady := by
  intro d m n a d' l hpos hd hr
  cases i with
  | https heap write => exact ((ppHttpsRead_spec hpos).of_eq_ok hr).2.1 hd
  | _ => trivial

theorem steady_init (d : i.Data) : i.Steady (i.pp.ppInit s d).1 := by
  cases i with
  | https heap write => exact fun _ => by simp [pp, ppHttps, ppHttpsInit]
  | _ => trivial

/-- A parser of `speak_psql` in front of a unit longer than the buffer. -/
theorem longer_of_want {c : Byte} {state : PpPsqlStateSide}
    (h : (∃ k f, psqlWant c state = .whole k f ∧ vbufsize < k) ∨ psqlWant c state = .stuck) :
    Longer state := by
  unfold psqlWant at h
  split at h
  · next ht =>
    split at h
    · next hQ =>
      rcases h with ⟨k, f, hw, hk⟩ | h
      · cases hw
        exact Or.inl ⟨hQ, hk⟩
      · cases h
    · rcases h with ⟨_, _, hw, -⟩ | h
      · cases hw
      · cases h
  · next ht =>
    split at h
    · rcases h with ⟨k, f, hw, hk⟩ | h
      · cases hw
        exact absurd hk (by decide)
      · cases h
    next hg =>
    split at h
    · rcases h with ⟨k, f, hw, hk⟩ | h
      · cases hw
        exact absurd hk (by decide)
      · cases h
    · next hh => exact Or.inr ⟨by omega, hg, hh⟩

theorem not_mysqlWant {state : PpMysqlStateSide}
    (h : (∃ k f, mysqlWant state = .whole k f ∧ vbufsize < k) ∨ mysqlWant state = .stuck) :
    False := by
  unfold mysqlWant at h
  split at h
  · rcases h with ⟨_, _, hw, -⟩ | h
    · cases hw
    · cases h
  · rcases h with ⟨k, f, hw, hk⟩ | h
    · cases hw
      exact absurd hk (by decide)
    · cases h

/-- A processor that asks for more on a whole buffer waits for something longer. -/
theorem greedy_of_neg {d d' : i.Data} {m : List Byte} {a : ℤ} {l : List LogCall}
    (hlen : vbufsize ≤ m.length) (hd : i.Steady d')
    (hr : i.pp.ppRead d s m vbufsize = .ok (a, d', l)) (ha : a < 0) :
    i.Greedy d' (m.take vbufsize) := by
  have hpos : 0 < vbufsize := by decide
  have hpsql : ∀ role, role = PpId.psqlc ∨ role = .psqls → ∀ (d d' : PpPsqlState) (a : ℤ)
      (l : List LogCall), psqlRead role d s m vbufsize = .ok (a, d', l) → a < 0 →
        Longer d'.read := fun role hr d d' a l hread ha =>
    longer_of_want (Parses.of_neg (P := ⟨"postgresql", fun _ d => (d, []), fun d => (d, []),
      psqlRead role, psqlWrite role⟩) (psqlRead_parses hr s) hpos hlen (Nat.le_refl _) hread ha)
  have hmysql : ∀ role, role = PpId.mysqlc ∨ role = .mysqls → ∀ (d d' : PpMysqlState) (a : ℤ)
      (l : List LogCall), mysqlRead role d s m vbufsize = .ok (a, d', l) → a < 0 → False :=
    fun role hr d d' a l hread ha =>
      not_mysqlWant (Parses.of_neg (P := ⟨"mysql", fun _ d => (d, []), fun d => (d, []),
        mysqlRead role, mysqlWrite role⟩) (mysqlRead_parses hr s) hpos hlen (Nat.le_refl _) hread
        ha)
  have hfcgi : ∀ junk role (d d' : PpFcgiStateWrap) (a : ℤ) (l : List LogCall),
      fcgiRead junk role d s m vbufsize = .ok (a, d', l) → a < 0 → False := by
    intro junk role d d' a l hread ha
    have := ((fcgiRead_takes hpos).of_eq_ok hread).2 (by decide)
    simp only at this
    omega
  cases i with
  | https heap write =>
    obtain ⟨heq, hdone, hstr⟩ := ((ppHttpsRead_spec hpos).of_eq_ok hr).2.2 ha
    simp only at heq
    subst heq
    refine ⟨hdone, ?_⟩
    have hnone := hstr (hd hdone)
    rw [Option.eq_none_iff_forall_not_mem]
    intro i hi
    rw [Option.mem_def, strstr_take hlen, hnone] at hi
    cases hi.1
  | psqls => exact hpsql _ (Or.inr rfl) _ _ _ _ hr ha
  | mysqls => exact hmysql _ (Or.inr rfl) _ _ _ _ hr ha
  | perlps =>
    cases hr
    omega
  | fcgis junk => exact hfcgi _ _ _ _ _ _ hr ha
  | httpc =>
    cases hr
    omega
  | psqlc => exact hpsql _ (Or.inl rfl) _ _ _ _ hr ha
  | mysqlc => exact hmysql _ (Or.inl rfl) _ _ _ _ hr ha
  | fcgic junk => exact hfcgi _ _ _ _ _ _ hr ha
  | xc =>
    obtain ⟨heq, h⟩ := (ppXcRead_spec.of_eq_ok hr).2 ha
    simp only at heq
    subst heq
    rcases h with h | ⟨h₁, h₂⟩
    · exact absurd h (by decide)
    · exact ⟨h₁, h₂⟩

end Installed

/-- **No invented end of file.** On a descriptor just given any of the processors, all calls of a
run read from the kernel with room only, and return 0 only when the kernel did so, if and only if
none is made on a full descriptor. A descriptor gets full only where its processor waits for
something longer than the buffer. -/
theorem no_invented_eof_iff (i : Installed) (s : ℤ) (v₀ : Vfd i.Data) (d : i.Data)
    {cs : List RecvCall} (hlen : ∀ c ∈ cs, 0 < c.len ∧ c.len < 2 ^ 32) :
    (Along (recvStep s) (v₀.accepted i.pp s d) cs (Honest s) ↔
        Along (recvStep s) (v₀.accepted i.pp s d) cs fun v _ => ¬ v.Full) ∧
      Always (recvStep s) (v₀.accepted i.pp s d) cs fun v =>
        v.Full → i.Greedy v.ppData (v.rbuf.slice v.rbufofs.toNat vbufsize) := by
  refine ⟨roomy_iff i.neverIdle v₀ _ hlen, fun pre hpre v hrun hfull => ?_⟩
  obtain ⟨hv, hs⟩ :=
    always_squared i.neverIdle i.keeps_steady v₀ (i.steady_init (s := s) d) cs pre hpre v hrun
  obtain ⟨m, n, d', a, l, hn, hm, htake, hr, ha⟩ := hs.asked hfull.2.1
  obtain rfl : n = vbufsize := by
    have := hfull.2.2
    omega
  rw [← htake]
  exact i.greedy_of_neg hm hs.data hr ha

/-- One line, read whole. -/
def oneLine : List RecvCall := [⟨.read, 80, .give (ascii "GET /index.html")⟩]

theorem no_invented_eof_iff_oneLine :
    (Along (recvStep 5) ((Vfd.zero ⟨0, 0⟩).accepted ppPerlps 5 ⟨0, 0⟩) oneLine (Honest 5) ↔
        Along (recvStep 5) ((Vfd.zero ⟨0, 0⟩).accepted ppPerlps 5 ⟨0, 0⟩) oneLine
          fun v _ => ¬ v.Full) ∧
      Always (recvStep 5) ((Vfd.zero ⟨0, 0⟩).accepted ppPerlps 5 ⟨0, 0⟩) oneLine fun v =>
        v.Full → Installed.perlps.Greedy v.ppData (v.rbuf.slice v.rbufofs.toNat vbufsize) :=
  no_invented_eof_iff .perlps 5 (Vfd.zero ⟨0, 0⟩) ⟨0, 0⟩ (by decide)

/-! ## A header that fills the buffer -/

theorem give_whole {b : List Byte} (hb : b ≠ []) (flags : ℤ) {c : ℕ} (hc : b.length ≤ c) :
    (Kernel.give b flags c).ret = b.length ∧ (Kernel.give b flags c).bytes = b := by
  have hpos : b.length ≠ 0 := fun h => hb (List.eq_nil_of_length_eq_zero h)
  simp only [Kernel.give, List.take_of_length_le hc, hpos, dite_false, and_self]

/-- A processor that asks for more on the `vbufsize` bytes `b`, read by an application that takes
them all. -/
theorem full_of_neg {b : List Byte} (hb : b.length = vbufsize) (v₀ : Vfd σ) {d d' : σ}
    {l : List LogCall} (hr : P.ppRead d s (b ++ intBytes vbufsize) vbufsize = .ok (-1, d', l)) :
    ∃ v, recvStep s (v₀.opened P d) ⟨.read, vbufsize, .give b⟩ = .ok v ∧ v.Full := by
  have hpos : 0 < vbufsize := by decide
  have hint : toInt vbufsize = vbufsize := toInt_natCast_lt (by decide)
  have hne : b ≠ [] := by
    rintro rfl
    exact absurd hb.symm hpos.ne'
  obtain ⟨hret, hbytes⟩ := give_whole hne 0 hb.le
  rw [hb] at hret
  have hshift : bufShift (v₀.opened P d) = .ok (v₀.opened P d) := rfl
  have hfetch := fetch_of 0 (.give b) hshift (show (0 : ℤ) ≤ vbufsize by omega)
  rw [show (vbufsize - (v₀.opened P d).rbuflen).toNat = vbufsize from rfl] at hfetch
  simp only [hret, hbytes, if_neg (show ¬ (vbufsize : ℤ) ≤ 0 by omega)] at hfetch
  set v₁ : Vfd σ := { v₀.opened P d with
    rbuf := (v₀.opened P d).rbuf.store (v₀.opened P d).rbuflen.toNat b
    rbuflen := (v₀.opened P d).rbuflen + vbufsize } with hv₁
  have hlen : v₁.rbuflen - v₁.rbufofs = vbufsize := by simp [hv₁, Vfd.opened, vfdTabInitOne]
  have hlast : v₁.rbuflen - v₁.rlastlen = vbufsize := by simp [hv₁, Vfd.opened, vfdTabInitOne]
  have hwin : v₁.rwindow v₁.rbufofs = b ++ intBytes vbufsize := by
    have hslice := Mem.slice_store_self v₀.rbuf 0 b
    rw [hb] at hslice
    have hrbuf : v₁.rbuflen = vbufsize := by simp [hv₁, Vfd.opened, vfdTabInitOne]
    rw [Vfd.rwindow, hrbuf]
    exact congrArg (· ++ _) hslice
  have hpresent := presentPp_of (s := s) (P := P) (v := v₁) rfl (by omega)
  rw [hlen, hwin, show v₁.ppData = d from rfl, hr, ok_bind] at hpresent
  simp only [ppAnswered, if_pos (show (-1 : ℤ) < 0 by decide), hlast] at hpresent
  set v₂ : Vfd σ := { v₁ with ppData := d', tosend := vbufsize, ppwantmore := 1 } with hv₂
  have hts : v₂.tosend = vbufsize := rfl
  have hl₂ : v₂.rlastlen = 0 := rfl
  have hmin : min (toInt vbufsize) v₂.tosend = (vbufsize : ℕ) := by omega
  have hgot := bufRet_of (by omega) (by omega) hmin (by omega)
  have hone : recvOne (v₀.opened P d) s ⟨.read, vbufsize, .give b⟩ = .ok {
      vfd := { v₂ with rlastlen := v₂.rlastlen + vbufsize, tosend := v₂.tosend - vbufsize }
      ret := vbufsize
      out := v₂.rbuf.slice v₂.rlastlen.toNat vbufsize
      trace := .realRead 0 vbufsize vbufsize b :: (l.map .log ++ [.ppRead vbufsize (-1)])
      readable := some (v₂.rlastlen + vbufsize ≠ v₂.rbuflen) } := by
    rw [recvOne_eq]
    unfold virtualGet
    rw [if_neg (show ¬ (v₀.opened P d).tosend ≠ 0 from fun h => h rfl),
      if_neg (show ¬ ((v₀.opened P d).rbufofs < (v₀.opened P d).rbuflen ∧ _) from
        fun h => absurd h.1 (Int.lt_irrefl 0)),
      refill_eq rfl hfetch, if_neg (by omega), hpresent, ok_bind]
    unfold finish
    rw [cAssert_of (fun _ => by simp only; omega), ok_bind, hgot, ok_bind,
      cAssert_of (show v₂.rbufofs ≤ v₂.rbuflen by
        have : v₂.rbuflen - v₂.rbufofs = vbufsize := hlen
        omega), ok_bind]
    simp only [List.append_nil]
    rfl
  refine ⟨{ v₂ with rlastlen := v₂.rlastlen + vbufsize, tosend := v₂.tosend - vbufsize }, ?_, ?_,
    Int.one_ne_zero, hlen⟩
  · rw [recvStep, hone, ok_bind]
  · simp only
    omega

/-- A request whose first line fills the buffer. -/
def longRequest : List Byte := ascii "GET /" ++ List.replicate 65531 97

/-- The application reads the request of 65536 bytes, and then asks for more. -/
def longRequestReads : List RecvCall :=
  [⟨.read, 65536, .give longRequest⟩, ⟨.read, 1, .give (ascii " HTTP/1.1")⟩]

/-- The second read has no room for the rest of the line, and looks like the end of the file. -/
theorem long_request_ends :
    ¬ Along (recvStep 5) ((Vfd.zero default).accepted httpsTaking 5 default) longRequestReads
      (Honest 5) := by
  have hlen : longRequest.length = vbufsize := by
    rw [longRequest, List.length_append, List.length_replicate]
    decide
  have hmem : 13 ∉ longRequest := by
    rw [longRequest, List.mem_append, List.mem_replicate]
    decide
  have hread : ∀ b : List Byte, 13 ∉ b → httpsTaking.ppRead (ppHttpsInit 5 default).1 5
      (b ++ intBytes vbufsize) vbufsize = .ok (-1, (ppHttpsInit 5 default).1, []) := by
    intro b hb
    refine ppHttpsRead_none (d := (ppHttpsInit 5 default).1) rfl (by decide) ?_
    have hbytes : intBytes vbufsize = 0 :: [0, 1, 0] := by decide
    rw [hbytes]
    exact strstr_eq_none (by decide) hb
  obtain ⟨v, hrun, hfull⟩ := full_of_neg hlen (Vfd.zero default) (hread longRequest hmem)
  have hinv := always_squared (P := httpsTaking) (s := 5)
    (Installed.neverIdle (.https (fun _ => [0]) fun d _ _ n => .ok (n, d, [])))
    (I := fun _ => True) (fun _ _ _ _ _ _ _ _ _ => trivial) (Vfd.zero default)
    (d := (ppHttpsInit 5 default).1) trivial longRequestReads
  have hrun' : runSteps (recvStep 5) ((Vfd.zero default).accepted httpsTaking 5 default)
      [⟨.read, 65536, .give longRequest⟩] = .ok v := by
    rw [runSteps, show (Vfd.zero default).accepted httpsTaking 5 default =
      (Vfd.zero default).opened httpsTaking (ppHttpsInit 5 default).1 from rfl]
    exact (congrArg (· >>= _) hrun).trans rfl
  obtain ⟨hv, hs⟩ := hinv _ (List.prefix_append _ _) v hrun'
  intro h
  obtain ⟨g, r, b, hg, hevent⟩ := hfull.reads hv hs ⟨.read, 1, .give (ascii " HTTP/1.1")⟩
  have hroom := (h _ _ (List.prefix_refl _) v g.vfd hrun' (by rw [recvStep, hg, ok_bind]) g hg).1
    _ _ _ _ hevent
  omega

end BorderPatrol.Trace
