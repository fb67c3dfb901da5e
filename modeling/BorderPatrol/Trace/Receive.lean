import BorderPatrol.Trace.ReadPath

/-!
# Receive calls past a processor

The calls of an application on a descriptor, against any processor that keeps an invariant of its
own (`Serves`). One call is a sequence of moves of the flow that ends in a delivery
(`recvOne_spec`); a run of calls keeps the invariant `Tracks` and adds up the moves
(`recvRun_spec`).
-/

namespace BorderPatrol.Trace

open Foundations

variable {σ : Type}

/-! ## Presentations -/

/-- A call of `pp_read`: the processor's data, the memory at the buffer pointer and the number of
valid bytes. -/
structure Presentation (σ : Type) where
  data : σ
  mem : List Byte
  len : ℤ

/-- The presentation `present_pp` makes. -/
def Vfd.presentation (v : Vfd σ) : Presentation σ :=
  ⟨v.ppData, v.rwindow v.rbufofs, v.rbuflen - v.rbufofs⟩

/-- The presentation behind a receive from the kernel. -/
def fetchPresents (v : Vfd σ) (k : Kernel) : List (Presentation σ) :=
  match fetch v 0 k with
  | .error _ => []
  | .ok (v, r, _) => if r ≤ 0 then [] else [v.presentation]

/-- The presentations one call makes: of what the buffer holds, of what was read from the kernel, or
one after the other. -/
def callPresents (v : Vfd σ) (s : ℤ) (c : RecvCall) : List (Presentation σ) :=
  if v.tosend ≠ 0 then []
  else if v.rbufofs < v.rbuflen ∧ v.ppwantmore = 0 then
    v.presentation :: match presentPp v s with
      | .error _ => []
      | .ok (v, _) => if v.tosend ≠ 0 then [] else fetchPresents v c.kernel
  else fetchPresents v c.kernel

/-- What the kernel returns in a receive. -/
def fetchArrives (v : Vfd σ) (k : Kernel) : List Byte :=
  match fetch v 0 k with
  | .error _ => []
  | .ok (_, _, ev) => kernelBytes [ev]

/-- What the kernel returns in one call. -/
def callArrives (v : Vfd σ) (s : ℤ) (c : RecvCall) : List Byte :=
  if v.tosend ≠ 0 then []
  else if v.rbufofs < v.rbuflen ∧ v.ppwantmore = 0 then
    match presentPp v s with
    | .error _ => []
    | .ok (v, _) => if v.tosend ≠ 0 then [] else fetchArrives v c.kernel
  else fetchArrives v c.kernel

/-- The presentations a run makes, those of a call that fails included. -/
def runPresents (s : ℤ) : Vfd σ → List RecvCall → List (Presentation σ)
  | _, [] => []
  | v, c :: cs => callPresents v s c ++ match recvOne v s c with
    | .error _ => []
    | .ok g => runPresents s g.vfd cs

/-- What the kernel returns in a run, in a call that fails too. -/
def runArrives (s : ℤ) : Vfd σ → List RecvCall → List Byte
  | _, [] => []
  | v, c :: cs => callArrives v s c ++ match recvOne v s c with
    | .error _ => []
    | .ok g => runArrives s g.vfd cs

/-! ## Processors that keep an invariant -/

/-- A relation kept between the flow, the flag `ppwantmore`, the processor's data and the log. -/
abbrev Observer (σ : Type) := Flow Byte → ℤ → σ → List LogCall → Prop

/-- The processor `P` on descriptor `s` keeps `J`, failing with errors in `E` only. It is called
when the application has been given everything up to the goal. It asks for more, or it consumes
bytes past everything given; a processor that consumes more than it was shown is admitted when
failed assertions and accesses out of bounds are. -/
structure Serves (P : PpDispatcher σ) (s : ℤ) (J : Observer σ) (E : Fault → Prop) : Prop where
  arrive : ∀ {f w d l} (b : List Byte), f.taken ≤ f.seen.length → J f w d l → J (f.arrive b) w d l
  deliver : ∀ {f w d l} (n : ℕ), J f w d l → J (f.deliver n) w d l
  iso : ∀ {f w d l} (a n : ℤ), J f w d l → J f w d (l ++ [logbinIi .ppIsoRead 0 a n])
  read : ∀ {f w d l} (m : List Byte), J f w d l → f.Wf → f.given = f.goal →
    (w = 0 → f.goal = f.taken) → f.pending ≠ [] → f.pending.length ≤ vbufsize →
    m.take f.pending.length = f.pending →
    Post (P.ppRead d s m f.pending.length) (fun r =>
      r.1 < 0 ∧ J f.starve 1 r.2.1 (l ++ r.2.2) ∨
      (f.given < f.taken + r.1 ∧ 0 ≤ r.1 ∧ r.1 ≤ f.pending.length ∧
        J (f.take r.1.toNat) 0 r.2.1 (l ++ r.2.2)) ∨
      (f.pending.length < r.1 ∧ E .assertion ∧ E .overrun)) E

/-- The same for runs in which the kernel returns the stream `b` and the presentations meet `K`. -/
structure ServesOn (P : PpDispatcher σ) (s : ℤ) (b : List Byte) (K : Presentation σ → Prop)
    (J : Observer σ) (E : Fault → Prop) : Prop where
  arrive : ∀ {f w d l} (c : List Byte), f.taken ≤ f.seen.length → f.seen ++ c <+: b → J f w d l →
    J (f.arrive c) w d l
  deliver : ∀ {f w d l} (n : ℕ), J f w d l → J (f.deliver n) w d l
  iso : ∀ {f w d l} (a n : ℤ), J f w d l → J f w d (l ++ [logbinIi .ppIsoRead 0 a n])
  read : ∀ {f w d l} (m : List Byte), J f w d l → f.Wf → f.given = f.goal →
    (w = 0 → f.goal = f.taken) → f.pending ≠ [] → f.pending.length ≤ vbufsize →
    m.take f.pending.length = f.pending → K ⟨d, m, f.pending.length⟩ →
    Post (P.ppRead d s m f.pending.length) (fun r =>
      r.1 < 0 ∧ J f.starve 1 r.2.1 (l ++ r.2.2) ∨
      (f.given < f.taken + r.1 ∧ 0 ≤ r.1 ∧ r.1 ≤ f.pending.length ∧
        J (f.take r.1.toNat) 0 r.2.1 (l ++ r.2.2)) ∨
      (f.pending.length < r.1 ∧ E .assertion ∧ E .overrun)) E

theorem Serves.on {P : PpDispatcher σ} {s : ℤ} {J : Observer σ} {E : Fault → Prop}
    (hP : Serves P s J E) (b : List Byte) : ServesOn P s b (fun _ => True) J E where
  arrive := fun c ht _ h => hP.arrive c ht h
  deliver := hP.deliver
  iso := hP.iso
  read := fun m hJ hf hg hw hp hfit hm _ => hP.read m hJ hf hg hw hp hfit hm

/-- The descriptor between calls: it holds a well-formed flow, and the goal is the end of the last
unit or of everything that arrived, as `ppwantmore` says. -/
structure Tracks (P : PpDispatcher σ) (J : Observer σ) (v : Vfd σ) (f : Flow Byte)
    (l : List LogCall) : Prop where
  disp : v.ppDispatcher = some P
  rep : ∃ base, Rep v f base
  wf : f.Wf
  unit : v.ppwantmore = 0 → f.goal = f.taken
  want : v.ppwantmore ≠ 0 → f.goal = f.seen.length
  obs : J f v.ppwantmore v.ppData l

variable {P : PpDispatcher σ} {s : ℤ} {J : Observer σ} {E : Fault → Prop}
  {b : List Byte} {K : Presentation σ → Prop}

/-- The processor has claimed bytes it was not shown, and assertions may fail. -/
def Overshot (E : Fault → Prop) (v : Vfd σ) : Prop :=
  v.rbuflen < v.rbufofs ∧ v.tosend ≠ 0 ∧ E .assertion ∧ E .overrun

theorem presentPp_of {v : Vfd σ} (hd : v.ppDispatcher = some P) (h : v.rbuflen - v.rbufofs ≠ 0) :
    presentPp v s = (P.ppRead v.ppData s (v.rwindow v.rbufofs) (v.rbuflen - v.rbufofs) >>=
      fun r => .ok (ppAnswered v (v.rbuflen - v.rbufofs) r.1 r.2.1 r.2.2)) := by
  simp only [presentPp, h, if_false, hd]
  rfl

theorem moves_starve (f : Flow Byte) {a : ℤ} (ha : a < 0) (amt : ℤ) (l : List LogCall) :
    Moves f (l.map .log ++ [.ppRead amt a]) [] [] f.starve := by
  constructor <;>
    simp [Flow.starve, takenFrom_append, cutsFrom_append, takenFrom, cutsFrom, ha, kernelBytes]

theorem moves_take (f : Flow Byte) {a : ℤ} (ha : 0 ≤ a) (amt : ℤ) (l l' : List LogCall) :
    Moves f (l.map .log ++ [.ppRead amt a] ++ l'.map .log) [] [] (f.take a.toNat) := by
  have hn : ¬ a < 0 := by omega
  constructor <;>
    simp [Flow.take, takenFrom_append, cutsFrom_append, takenFrom, cutsFrom, hn, kernelBytes]

theorem Rep.starve {v : Vfd σ} {f : Flow Byte} {base : ℕ} (h : Rep v f base) (d : σ) :
    Rep { v with ppData := d, tosend := v.rbuflen - v.rlastlen, ppwantmore := 1 } f.starve
      base where
  len := h.len
  ofs := h.ofs
  last := h.last
  send := by
    have := h.len
    have := h.last
    simp only [Flow.starve]
    omega
  fits := h.fits
  ofs_nonneg := h.ofs_nonneg
  last_nonneg := h.last_nonneg
  bytes := h.bytes

theorem Rep.take {v : Vfd σ} {f : Flow Byte} {base : ℕ} (h : Rep v f base) (d : σ) {a : ℤ}
    (ha : 0 ≤ a) :
    Rep { v with
        ppData := d
        ppwantmore := 0
        rbufofs := v.rbufofs + a
        tosend := v.rbufofs + a - v.rlastlen } (f.take a.toNat) base where
  len := h.len
  ofs := by
    have := h.ofs
    simp only [Flow.take]
    omega
  last := h.last
  send := by
    have := h.ofs
    have := h.last
    simp only [Flow.take]
    omega
  fits := h.fits
  ofs_nonneg := h.ofs_nonneg.trans (Nat.le_add_right _ _)
  last_nonneg := h.last_nonneg
  bytes := h.bytes

/-- `present_pp`: the processor is called on what it has not consumed. Afterwards there is more
for the application. -/
theorem presentPp_rule (hP : ServesOn P s b K J E) {v : Vfd σ} {f : Flow Byte} {base : ℕ}
    {l : List LogCall} (hd : v.ppDispatcher = some P) (h : Rep v f base) (hf : f.Wf)
    (hJ : J f v.ppwantmore v.ppData l) (hg : f.given = f.goal)
    (hw : v.ppwantmore = 0 → f.goal = f.taken) (hs : f.given < f.seen.length)
    (hK : K v.presentation) :
    Post (presentPp v s) (fun r =>
      (∃ f', Tracks P J r.1 f' (l ++ logs r.2) ∧ Moves f r.2 [] [] f' ∧ f'.given < f'.goal) ∨
        Overshot E r.1) E := by
  have hlen := h.len
  have hofs := h.ofs
  have ht := hf.taken_le
  have hgl := hf.goal_le
  have hpl : f.pending.length = f.seen.length - f.taken := List.length_drop
  have hp : f.pending ≠ [] := List.ne_nil_of_length_pos (by omega)
  have hamt : v.rbuflen - v.rbufofs = f.pending.length := by omega
  have hfits := h.fits
  have hnonneg := h.ofs_nonneg
  have hread := hP.read (v.rwindow v.rbufofs) hJ hf hg hw hp (by omega) (h.rwindow (by omega))
    (hamt ▸ hK)
  rw [presentPp_of hd (by omega), hamt]
  refine hread.bind ?_
  rintro ⟨a, d, l'⟩ hr
  rw [Post.ok_iff]
  rcases hr with ⟨ha, hJ'⟩ | ⟨hlt, ha, hle, hJ'⟩ | ⟨hgt, hE⟩
  · -- it asks for more: everything may be given
    left
    simp only [ppAnswered, if_pos ha]
    refine ⟨f.starve, ⟨hd, ⟨base, h.starve d⟩, hf.starve hg, by simp, fun _ => rfl, ?_⟩,
      moves_starve f ha _ _, hs⟩
    simpa [logs] using hJ'
  · -- it consumes a unit: the goal is the end of the unit
    left
    simp only at hlt ha hle
    have hn : ¬ a < 0 := by omega
    have hiso : ∃ l'', (if a < (f.pending.length : ℤ)
          then [Event.log (logbinIi .ppIsoRead 0 a f.pending.length)] else []) = l''.map Event.log ∧
        J (f.take a.toNat) 0 d (l ++ l' ++ l'') := by
      split
      · exact ⟨[_], rfl, hP.iso _ _ hJ'⟩
      · exact ⟨[], rfl, by simpa using hJ'⟩
    obtain ⟨l'', hl'', hJ''⟩ := hiso
    simp only [ppAnswered, if_neg hn, hl'']
    refine ⟨f.take a.toNat, ⟨hd, ⟨base, h.take d ha⟩, hf.take hg (by omega) (by omega),
      fun _ => rfl, by simp, ?_⟩, moves_take f ha _ _ _, by simp only [Flow.take]; omega⟩
    simpa [logs] using hJ''
  · right
    simp only at hgt
    simp only [ppAnswered, if_neg (show ¬ a < 0 by omega)]
    have hlast := h.last
    exact ⟨by simp only; omega, by simp only; omega, hE⟩

theorem presentPp_spec (hP : Serves P s J E) {v : Vfd σ} {f : Flow Byte} {base : ℕ}
    {l : List LogCall} (hd : v.ppDispatcher = some P) (h : Rep v f base) (hf : f.Wf)
    (hJ : J f v.ppwantmore v.ppData l) (hg : f.given = f.goal)
    (hw : v.ppwantmore = 0 → f.goal = f.taken) (hs : f.given < f.seen.length) :
    Post (presentPp v s) (fun r =>
      (∃ f', Tracks P J r.1 f' (l ++ logs r.2) ∧ Moves f r.2 [] [] f' ∧ f'.given < f'.goal) ∨
        Overshot E r.1) E :=
  presentPp_rule (hP.on []) hd h hf hJ hg hw hs trivial

/-- The end of a receive call, once the processor has been called: give the application a piece and
check the cursors. -/
def finish (checked : Bool) (len : ℕ) (tr : List Event) (v : Vfd σ) : Except Fault (Got σ) := do
  cAssert (checked = true → v.tosend ≠ 0)
  let g ← bufRet v len
  cAssert (g.vfd.rbufofs ≤ g.vfd.rbuflen)
  return { g with trace := tr ++ g.trace }

theorem bufRet_overshot {v : Vfd σ} (hv : Overshot E v) (len : ℕ) :
    Post (bufRet v len) (fun g => g.vfd.rbuflen < g.vfd.rbufofs) E := by
  obtain ⟨hlt, -, hE, hE'⟩ := hv
  simp only [bufRet]
  refine Post.bind (Q := fun _ => True) (by unfold cAssert; split; exacts [trivial, hE]) ?_
  intro _ _
  refine Post.bind (Q := fun _ => True) (by unfold cAssert; split; exacts [trivial, hE]) ?_
  intro _ _
  refine Post.bind (Q := fun _ => True) (by unfold inBounds; split; exacts [trivial, hE']) ?_
  intro _ _
  refine Post.bind (Q := fun _ => True) (by unfold cAssert; split; exacts [trivial, hE]) ?_
  intro _ _
  exact hlt

/-- A call's outcome: the descriptor tracks a flow that the call moved the former one to. -/
def Received (P : PpDispatcher σ) (J : Observer σ) (f : Flow Byte) (l : List LogCall)
    (g : Got σ) : Prop :=
  ∃ f', Tracks P J g.vfd f' (l ++ logs g.trace) ∧
    Moves f g.trace g.out [(f.given, f.given + g.out.length)] f'

theorem finish_spec (hP : ServesOn P s b K J E) {checked : Bool} {len : ℕ} (hl : len < 2 ^ 31)
    {tr : List Event} {v : Vfd σ} {f : Flow Byte} {l : List LogCall}
    (h : (∃ f', Tracks P J v f' (l ++ logs tr) ∧ Moves f tr [] [] f' ∧ f'.given < f'.goal) ∨
      Overshot E v) : Post (finish checked len tr v) (Received P J f l) E := by
  unfold finish
  rcases h with ⟨f', hT, hm, hlt⟩ | hv
  · obtain ⟨base, hrep⟩ := hT.rep
    have hsend := hrep.send
    obtain ⟨g, n, hg, hn, -, hrep', hout, hlen, htr, hd, hp, hw, -⟩ := bufRet_spec hrep hT.wf hlt hl
    have hlen' := hrep'.len
    have hofs' := hrep'.ofs
    have hwf := hT.wf.deliver (n := n) (by omega)
    have h₁ := hwf.taken_le
    have h₂ := hwf.goal_le
    rw [cAssert_of (fun _ => by omega)]
    simp only [Bind.bind, Except.bind, hg]
    rw [cAssert_of (by omega)]
    refine ⟨f'.deliver n, ⟨hd.trans hT.disp, ⟨base, hrep'⟩, hwf, ?_, ?_, ?_⟩, ?_⟩
    · rw [hw]
      exact hT.unit
    · rw [hw]
      exact hT.want
    · rw [hw, hp, htr]
      simpa using hP.deliver n hT.obs
    · rw [htr, List.append_nil]
      have hgiven : f'.given = f.given := by simpa using hm.given
      have htake : f'.seen.take f'.given = f.seen.take f.given := by simpa using hm.out
      constructor
      · exact hm.seen
      · exact hm.taken
      · exact hm.cuts
      · simp only [Flow.deliver, hlen, hgiven]
      · simp only [Flow.deliver]
        rw [List.take_add, htake, hout]
      · simp only [Flow.deliver, hm.spans, hgiven, hlen, List.append_nil]
  · refine Post.bind (Q := fun _ => True) (by unfold cAssert; split; exacts [trivial, hv.2.2.1]) ?_
    intro _ _
    refine (bufRet_overshot hv len).bind ?_
    intro g hg
    -- the wrapper's assertion fails
    rw [cAssert, if_neg (by omega)]
    exact hv.2.2.1

/-- The assertion the wrappers make after the virtual function. -/
def checkCursors (g : Got σ) : Except Fault (Got σ) := do
  cAssert (g.vfd.rbufofs ≤ g.vfd.rbuflen)
  return g

theorem recvOne_eq (v : Vfd σ) (s : ℤ) (c : RecvCall) :
    recvOne v s c =
      virtualGet (decide (c.fn = .read)) v s c.len 0 c.kernel >>= checkCursors := by
  unfold recvOne
  cases c.fn <;> rfl

theorem finish_eq (len : ℕ) (tr : List Event) (v : Vfd σ) :
    ((bufRet v len >>= fun g => pure { g with trace := tr ++ g.trace }) >>= checkCursors) =
      finish false len tr v := by
  unfold finish
  rw [cAssert_of (by simp)]
  simp only [bind_assoc, pure_bind, checkCursors]
  rfl

theorem bufRet_check_eq (len : ℕ) (v : Vfd σ) :
    (bufRet v len >>= checkCursors) = finish false len [] v := by
  rw [← finish_eq len [] v]
  change _ = (bufRet v len >>= pure) >>= checkCursors
  rw [bind_pure]

theorem refill_eq {checked : Bool} {v v₁ : Vfd σ} {s : ℤ} {len : ℕ} {flags r : ℤ} {k : Kernel}
    {ev : Event} (ht : v.tosend = 0) (hf : fetch v flags k = .ok (v₁, r, ev)) :
    (refill checked v s len flags k >>= checkCursors) =
      if r ≤ 0 then checkCursors { vfd := v₁, ret := r, out := [], trace := [ev], readable := none }
      else presentPp v₁ s >>= fun q => finish checked len (ev :: q.2) q.1 := by
  unfold refill finish
  rw [cAssert_of ht, hf]
  split
  · next h =>
    simp only [Bind.bind, Except.bind, h, if_true]
    rfl
  · next h =>
    change ((if r ≤ 0 then _ else _) >>= _) = _
    rw [if_neg h]
    simp only [bind_assoc, pure_bind, checkCursors]

theorem moves_arrive {f : Flow Byte} {ev : Event} {b : List Byte} (hb : kernelBytes [ev] = b)
    (ht : takenFrom f.taken [ev] = f.taken) (hc : cutsFrom f.taken [ev] = [])
    (hf : f.given ≤ f.seen.length) : Moves f [ev] [] [] (f.arrive b) := by
  constructor <;> simp [Flow.arrive, hb, ht, hc, List.take_append_of_le_length hf]

/-- A receive that got nothing from the kernel moves the flow by an empty delivery. -/
theorem received_none (hP : ServesOn P s b K J E) {v v₁ : Vfd σ} {f : Flow Byte} {l : List LogCall}
    {base : ℕ} {r : ℤ} {ev : Event} (hT : Tracks P J v f l) (hb : kernelBytes [ev] = [])
    (hrep : Rep v₁ (f.arrive []) base) (ht : takenFrom f.taken [ev] = f.taken)
    (hc : cutsFrom f.taken [ev] = []) (hl : logs [ev] = []) (hd : v₁.ppDispatcher = v.ppDispatcher)
    (hp : v₁.ppData = v.ppData) (hw : v₁.ppwantmore = v.ppwantmore) :
    Post (checkCursors ⟨v₁, r, [], [ev], none⟩) (Received P J f l) E := by
  have hfa : f.arrive [] = f := by simp [Flow.arrive]
  rw [hfa] at hrep
  have h₁ := hrep.len
  have h₂ := hrep.ofs
  have h₃ := hT.wf.taken_le
  have h₄ := hT.wf.goal_le
  unfold checkCursors
  rw [cAssert_of (by simp only; omega)]
  refine ⟨f.deliver 0, ⟨hd.trans hT.disp, ⟨base, ?_⟩, hT.wf.deliver hT.wf.given_le, ?_, ?_, ?_⟩, ?_⟩
  · exact ⟨hrep.len, hrep.ofs, hrep.last, hrep.send, hrep.fits, hrep.ofs_nonneg, hrep.last_nonneg,
      hrep.bytes⟩
  · exact fun h => hT.unit (hw ▸ h)
  · exact fun h => hT.want (hw ▸ h)
  · simp only [hw, hp, hl, List.append_nil]
    exact hP.deliver 0 hT.obs
  · constructor <;> simp [Flow.deliver, hb, ht, hc]

/-- **A receive call** on a descriptor that tracks a flow moves the flow by one delivery. -/
theorem recvOne_rule (hP : ServesOn P s b K J E) {v : Vfd σ} {f : Flow Byte} {l : List LogCall}
    (hT : Tracks P J v f l) {c : RecvCall} (hl : c.len < 2 ^ 31)
    (hb : f.seen ++ callArrives v s c <+: b) (hK : ∀ p ∈ callPresents v s c, K p) :
    Post (recvOne v s c) (Received P J f l) E := by
  obtain ⟨base, hrep⟩ := hT.rep
  have hsend := hrep.send
  have hgiven := hT.wf.given_le
  have hgoal := hT.wf.goal_le
  have hlen := hrep.len
  have hofs := hrep.ofs
  rw [recvOne_eq]
  unfold virtualGet
  unfold callArrives at hb
  unfold callPresents at hK
  by_cases hts : v.tosend ≠ 0
  · -- something is cached for the application
    rw [if_pos hts, bufRet_check_eq]
    refine finish_spec hP hl (Or.inl ⟨f, by simpa using hT, Moves.refl f, by omega⟩)
  rw [if_neg hts]
  have hg : f.given = f.goal := by omega
  by_cases hpres : v.rbufofs < v.rbuflen ∧ v.ppwantmore = 0
  · -- the processor may work on what the buffer holds
    rw [if_pos hpres]
    rw [if_neg hts, if_pos hpres] at hK
    have hunit := hT.unit hpres.2
    have hpp := presentPp_rule hP hT.disp hrep hT.wf hT.obs hg hT.unit (by omega)
      (hK _ List.mem_cons_self)
    rw [bind_assoc]
    refine hpp.bind ?_
    rintro ⟨v₁, tr⟩ h₁
    have hne : v₁.tosend ≠ 0 := by
      rcases h₁ with ⟨f', hT', -, hlt⟩ | hov
      · obtain ⟨base', hrep'⟩ := hT'.rep
        have := hrep'.send
        simp only at this
        omega
      · exact hov.2.1
    simp only [hne, ne_eq, not_false_eq_true, if_true]
    rw [finish_eq]
    exact finish_spec hP hl h₁
  · -- the kernel is asked
    rw [if_neg hpres]
    obtain ⟨v₁, got, r, ev, base', hf, hgot, hr, hrep', ht, hc, hlo, hd, hp, hw, hts'⟩ :=
      fetch_spec hrep hT.wf 0 c.kernel
    rw [if_neg hts, if_neg hpres] at hb hK
    simp only [fetchArrives, hf, hgot] at hb
    simp only [fetchPresents, hf] at hK
    rw [refill_eq (by omega) hf]
    split
    · next hle =>
      obtain rfl : got = [] := by
        rcases hr with ⟨-, h⟩ | ⟨h, -⟩
        · exact h
        · omega
      exact received_none hP hT hgot hrep' ht hc hlo hd hp hw
    · next hgt =>
      have hne : got ≠ [] := by
        rcases hr with ⟨h, -⟩ | ⟨-, h⟩
        · omega
        · exact h
      rw [if_neg hgt] at hK
      have hpos := List.length_pos_of_ne_nil hne
      have hJ := hP.arrive got (hT.wf.taken_le.trans hT.wf.goal_le) hb hT.obs
      rw [← hw, ← hp] at hJ
      have hunit := hT.unit
      rw [← hw] at hunit
      have hpp := presentPp_rule hP (hd.trans hT.disp) hrep' (hT.wf.arrive got) hJ hg hunit
        (by simp only [Flow.arrive, List.length_append]; omega) (hK _ List.mem_cons_self)
      refine hpp.bind ?_
      rintro ⟨v₂, tr⟩ h₁
      refine finish_spec hP hl ?_
      rcases h₁ with ⟨f', hT', hm, hlt⟩ | hov
      · refine Or.inl ⟨f', ?_, (moves_arrive hgot ht hc (hgiven.trans hgoal)).trans hm, hlt⟩
        rw [← List.singleton_append, logs_append, hlo]
        exact hT'
      · exact Or.inr hov

theorem recvOne_spec (hP : Serves P s J E) {v : Vfd σ} {f : Flow Byte} {l : List LogCall}
    (hT : Tracks P J v f l) {c : RecvCall} (hl : c.len < 2 ^ 31) :
    Post (recvOne v s c) (Received P J f l) E :=
  recvOne_rule (hP.on (f.seen ++ callArrives v s c)) hT hl (List.prefix_refl _) fun _ _ => trivial

/-- A newly opened descriptor tracks the empty flow. -/
theorem tracks_opened (v : Vfd σ) (P : PpDispatcher σ) {d : σ} (hJ : J Flow.start 0 d []) :
    Tracks P J (v.opened P d) Flow.start [] where
  disp := rfl
  rep := ⟨0, by constructor <;> simp [Vfd.opened, vfdTabInitOne, Flow.start]⟩
  wf := Flow.start_wf
  unit := fun _ => rfl
  want := fun h => absurd rfl h
  obs := hJ

/-- The spans given to the application by the calls of a run begun at `n`. -/
def spansFrom : ℕ → List (Got σ) → List (ℕ × ℕ)
  | _, [] => []
  | n, g :: gs => (n, n + g.out.length) :: spansFrom (n + g.out.length) gs

theorem handed_cons (g : Got σ) (gs : List (Got σ)) : handed (g :: gs) = g.out ++ handed gs := by
  simp [handed]

theorem traces_append (gs₁ gs₂ : List (Got σ)) :
    traces (gs₁ ++ gs₂) = traces gs₁ ++ traces gs₂ := by
  simp [traces]

theorem traces_cons (g : Got σ) (gs : List (Got σ)) : traces (g :: gs) = g.trace ++ traces gs := by
  simp [traces]

/-- A run of calls is a run of the first of them, then one of the others. -/
theorem recvRun_append (v : Vfd σ) (cs₁ cs₂ : List RecvCall) :
    recvRun s v (cs₁ ++ cs₂) = recvRun s v cs₁ >>= fun q =>
      recvRun s q.1 cs₂ >>= fun q' => .ok (q'.1, q.2 ++ q'.2) := by
  induction cs₁ generalizing v with
  | nil =>
    rcases hrun : recvRun s v cs₂ with e | ⟨v', gs⟩ <;>
      simp [recvRun, hrun, Bind.bind, Except.bind]
  | cons c cs₁ ih =>
    simp only [List.cons_append, recvRun, ih, bind_assoc]
    rfl

/-- What the first calls of a run that goes through give back. -/
theorem recvRun_prefix {v v₁ v' : Vfd σ} {cs₁ cs₂ : List RecvCall} {gs₁ gs : List (Got σ)}
    (h₁ : recvRun s v cs₁ = .ok (v₁, gs₁)) (h : recvRun s v (cs₁ ++ cs₂) = .ok (v', gs)) :
    ∃ gs₂, gs = gs₁ ++ gs₂ := by
  rw [recvRun_append, h₁] at h
  simp only [Bind.bind, Except.bind] at h
  split at h
  · cases h
  · cases h
    exact ⟨_, rfl⟩

theorem presentPp_kernelBytes (v : Vfd σ) (s : ℤ) :
    Post (presentPp v s) (fun q => kernelBytes q.2 = []) AnyFault := by
  unfold presentPp
  dsimp only
  split
  · rfl
  · split
    · trivial
    · refine (anyFault_post _).bind fun r _ => ?_
      have hone : ∀ n a : ℤ, kernelBytes [.ppRead n a] = [] := fun _ _ => rfl
      unfold ppAnswered
      split
      · simp only [Post.pure_iff, kernelBytes_append, kernelBytes_logs, hone, List.append_nil]
      · simp only [Post.pure_iff, kernelBytes_append, kernelBytes_logs, hone, List.nil_append]
        split <;> rfl

theorem bufRet_trace (v : Vfd σ) (n : ℕ) :
    Post (bufRet v n) (fun g => g.trace = []) AnyFault := by
  unfold bufRet
  refine (anyFault_post _).bind fun _ _ => ?_
  refine (anyFault_post _).bind fun _ _ => ?_
  refine (anyFault_post _).bind fun _ _ => ?_
  exact (anyFault_post _).bind fun _ _ => rfl

/-- A piece returned behind a trace. -/
theorem bufRet_kernelBytes (v : Vfd σ) (n : ℕ) (tr : List Event) :
    Post (bufRet v n >>= fun g => pure { g with trace := tr ++ g.trace })
      (fun g => kernelBytes g.trace = kernelBytes tr) AnyFault := by
  refine (bufRet_trace v n).bind fun g hg => ?_
  simp only [Post.pure_iff, hg, List.append_nil]

theorem refill_arrives (checked : Bool) (v : Vfd σ) (s : ℤ) (len : ℕ) (k : Kernel) :
    Post (refill checked v s len 0 k) (fun g => kernelBytes g.trace = fetchArrives v k)
      AnyFault := by
  unfold refill fetchArrives
  refine (anyFault_post _).bind fun _ _ => ?_
  rcases fetch v 0 k with e | ⟨v₁, r, ev⟩
  · trivial
  rw [ok_bind]
  dsimp only
  split
  · rfl
  · refine (presentPp_kernelBytes v₁ s).bind fun q hq => ?_
    refine (anyFault_post _).bind fun _ _ => ?_
    refine (bufRet_kernelBytes q.1 len (ev :: q.2)).mono fun g hg => ?_
    rw [hg, ← List.singleton_append, kernelBytes_append, hq, List.append_nil]

/-- What the kernel returns in a call that goes through. -/
theorem callArrives_eq {v : Vfd σ} {c : RecvCall} {g : Got σ} (hg : recvOne v s c = .ok g) :
    kernelBytes g.trace = callArrives v s c := by
  suffices h : Post (recvOne v s c) (fun g => kernelBytes g.trace = callArrives v s c) AnyFault from
    h.of_eq_ok hg
  rw [recvOne_eq]
  have hget : Post (virtualGet (decide (c.fn = .read)) v s c.len 0 c.kernel)
      (fun g => kernelBytes g.trace = callArrives v s c) AnyFault := by
    unfold virtualGet callArrives
    split
    · refine (bufRet_trace v c.len).mono fun g hg => ?_
      rw [hg, kernelBytes_nil]
    · split
      · have hnone := presentPp_kernelBytes v s
        rcases hpres : presentPp v s with e | ⟨v₁, tr⟩
        · trivial
        rw [hpres, Post.ok_iff] at hnone
        rw [ok_bind]
        dsimp only
        split
        · refine (bufRet_kernelBytes v₁ c.len tr).mono fun g hg => ?_
          rw [hg, hnone]
        · refine (refill_arrives _ v₁ s c.len c.kernel).bind fun g hg => ?_
          simp only [Post.pure_iff, kernelBytes_append, hnone, List.nil_append, hg]
      · exact refill_arrives _ v s c.len c.kernel
  refine hget.bind fun g hg => ?_
  exact (anyFault_post _).bind fun _ _ => hg

/-- **A run of receive calls** keeps the descriptor tracking a flow, and the flow is what the calls
did. -/
theorem recvRun_rule (hP : ServesOn P s b K J E) {cs : List RecvCall}
    (hl : ∀ c ∈ cs, c.len < 2 ^ 31) {v : Vfd σ} {f : Flow Byte} {l : List LogCall}
    (hT : Tracks P J v f l) (hb : f.seen ++ runArrives s v cs <+: b)
    (hK : ∀ p ∈ runPresents s v cs, K p) :
    Post (recvRun s v cs) (fun q => ∃ f', Tracks P J q.1 f' (l ++ logs (traces q.2)) ∧
      Moves f (traces q.2) (handed q.2) (spansFrom f.given q.2) f') E := by
  induction cs generalizing v f l with
  | nil =>
    exact ⟨f, by simpa [traces] using hT, by simpa [traces, handed, spansFrom] using Moves.refl f⟩
  | cons c cs ih =>
    have hone := recvOne_rule hP hT (hl c (by simp)) (by
      refine List.IsPrefix.trans ?_ hb
      rw [runArrives, ← List.append_assoc]
      exact List.prefix_append ..) fun p hp => hK p (List.mem_append_left _ hp)
    rw [recvRun]
    rcases hres : recvOne v s c with e | g
    · rw [hres] at hone
      exact hone
    rw [hres] at hone
    obtain ⟨f₁, hT₁, hm₁⟩ := hone
    simp only [runArrives, runPresents, hres] at hb hK
    rw [ok_bind]
    refine (ih (fun c hc => hl c (by simp [hc])) hT₁ ?_
      fun p hp => hK p (List.mem_append_right _ hp)).bind ?_
    · rw [hm₁.seen, callArrives_eq hres, List.append_assoc]
      exact hb
    rintro ⟨v', gs⟩ ⟨f', hT', hm⟩
    refine ⟨f', ?_, ?_⟩
    · simpa only [traces_cons, logs_append, List.append_assoc] using hT'
    · have := hm₁.trans hm
      rw [hm₁.given] at this
      simpa only [traces_cons, handed_cons, spansFrom, List.singleton_append] using this

theorem recvRun_spec (hP : Serves P s J E) {cs : List RecvCall} (hl : ∀ c ∈ cs, c.len < 2 ^ 31)
    {v : Vfd σ} {f : Flow Byte} {l : List LogCall} (hT : Tracks P J v f l) :
    Post (recvRun s v cs) (fun q => ∃ f', Tracks P J q.1 f' (l ++ logs (traces q.2)) ∧
      Moves f (traces q.2) (handed q.2) (spansFrom f.given q.2) f') E :=
  recvRun_rule (hP.on (f.seen ++ runArrives s v cs)) hl hT (List.prefix_refl _) fun _ _ => trivial

/-! ## Runs that go through -/

/-- The processor returns, and does not claim more than the presentation has. -/
def Contained (P : PpDispatcher σ) (s : ℤ) (p : Presentation σ) : Prop :=
  ∃ r, P.ppRead p.data s p.mem p.len = .ok r ∧ (r.1 < 0 ∨ r.1 ≤ p.len)

theorem presentPp_contained {v : Vfd σ} (hd : v.ppDispatcher = some P)
    (h : v.rbuflen - v.rbufofs ≠ 0) :
    Post (presentPp v s) (fun q => q.1.rbufofs ≤ q.1.rbuflen → Contained P s v.presentation)
      AnyFault := by
  rw [presentPp_of hd h]
  rcases hread : P.ppRead v.ppData s (v.rwindow v.rbufofs) (v.rbuflen - v.rbufofs) with e | r
  · trivial
  rw [ok_bind, Post.ok_iff]
  intro hle
  refine ⟨r, hread, ?_⟩
  by_cases ha : r.1 < 0
  · exact Or.inl ha
  · right
    simp only [ppAnswered, if_neg ha] at hle
    simp only [Vfd.presentation]
    omega

/-- A call that goes through ends with the cursors in order. -/
theorem finish_cursors (checked : Bool) (len : ℕ) (tr : List Event) (v : Vfd σ) :
    Post (finish checked len tr v) (fun _ => v.rbufofs ≤ v.rbuflen) AnyFault := by
  have hret : Post (bufRet v len)
      (fun g => g.vfd.rbufofs = v.rbufofs ∧ g.vfd.rbuflen = v.rbuflen) AnyFault := by
    unfold bufRet
    refine (anyFault_post _).bind fun _ _ => ?_
    refine (anyFault_post _).bind fun _ _ => ?_
    refine (anyFault_post _).bind fun _ _ => ?_
    exact (anyFault_post _).bind fun _ _ => ⟨rfl, rfl⟩
  refine (anyFault_post _).bind fun _ _ => ?_
  refine hret.bind ?_
  rintro g ⟨hofs, hlen⟩
  refine (cAssert_post fun _ => trivial).bind fun _ hle => ?_
  rw [hofs, hlen] at hle
  exact hle

/-- At a call that goes through the processor claims no more than it is shown. -/
theorem callPresents_contained (hP : Serves P s J E) {v : Vfd σ} {f : Flow Byte} {l : List LogCall}
    (hT : Tracks P J v f l) {c : RecvCall} {g : Got σ} (hg : recvOne v s c = .ok g) :
    ∀ p ∈ callPresents v s c, Contained P s p := by
  suffices h : Post (recvOne v s c) (fun _ => ∀ p ∈ callPresents v s c, Contained P s p)
      AnyFault from h.of_eq_ok hg
  obtain ⟨base, hrep⟩ := hT.rep
  have hsend := hrep.send
  have hlen := hrep.len
  have hofs := hrep.ofs
  have hgoal := hT.wf.goal_le
  rw [recvOne_eq]
  unfold virtualGet callPresents
  by_cases hts : v.tosend ≠ 0
  · rw [if_pos hts, if_pos hts]
    exact (anyFault_post _).mono fun _ _ p hp => absurd hp List.not_mem_nil
  rw [if_neg hts, if_neg hts]
  by_cases hpres : v.rbufofs < v.rbuflen ∧ v.ppwantmore = 0
  · rw [if_pos hpres, if_pos hpres, bind_assoc]
    have hunit := hT.unit hpres.2
    have hpp := presentPp_spec hP hT.disp hrep hT.wf hT.obs (by omega) hT.unit (by omega)
    have hcont := presentPp_contained (s := s) hT.disp (show v.rbuflen - v.rbufofs ≠ 0 by omega)
    rcases hp : presentPp v s with e | ⟨v₁, tr⟩
    · trivial
    rw [hp, Post.ok_iff] at hpp hcont
    have hne : v₁.tosend ≠ 0 := by
      rcases hpp with ⟨f', hT', -, hlt⟩ | hov
      · obtain ⟨base', hrep'⟩ := hT'.rep
        have := hrep'.send
        simp only at this
        omega
      · exact hov.2.1
    rw [ok_bind]
    simp only [hne, ne_eq, not_false_eq_true, if_true]
    rw [finish_eq]
    refine (finish_cursors ..).mono fun _ hle p hp => ?_
    obtain rfl := List.mem_singleton.1 hp
    exact hcont hle
  · rw [if_neg hpres, if_neg hpres]
    obtain ⟨v₁, got, r, ev, base', hf, hgot, hr, hrep', -, -, -, hd, -⟩ :=
      fetch_spec hrep hT.wf 0 c.kernel
    simp only [fetchPresents, hf]
    rw [refill_eq (by omega) hf]
    split
    · exact (anyFault_post _).mono fun _ _ p hp => absurd hp List.not_mem_nil
    · next hgt =>
      have hpos : 0 < got.length := by
        rcases hr with ⟨h, -⟩ | ⟨-, h⟩
        · omega
        · exact List.length_pos_of_ne_nil h
      have hlen' := hrep'.len
      have hofs' := hrep'.ofs
      have htaken := hT.wf.taken_le
      simp only [Flow.arrive, List.length_append] at hlen' hofs'
      refine (presentPp_contained (hd.trans hT.disp) (by omega)).bind fun q hcont => ?_
      refine (finish_cursors ..).mono fun _ hle p hp => ?_
      obtain rfl := List.mem_singleton.1 hp
      exact hcont hle

theorem runPresents_contained (hP : Serves P s J E) {cs : List RecvCall}
    (hl : ∀ c ∈ cs, c.len < 2 ^ 31) {v v' : Vfd σ} {gs : List (Got σ)} {f : Flow Byte}
    {l : List LogCall} (hT : Tracks P J v f l) (hrun : recvRun s v cs = .ok (v', gs)) :
    ∀ p ∈ runPresents s v cs, Contained P s p := by
  induction cs generalizing v v' f l gs with
  | nil => exact fun p hp => absurd hp List.not_mem_nil
  | cons c cs ih =>
    rw [recvRun] at hrun
    rcases hone : recvOne v s c with e | g
    · rw [hone] at hrun
      cases hrun
    rw [hone, ok_bind] at hrun
    rcases hrest : recvRun s g.vfd cs with e | ⟨v₁, gs₁⟩
    · rw [hrest] at hrun
      cases hrun
    rw [hrest] at hrun
    obtain ⟨f₁, hT₁, -⟩ := (recvOne_spec hP hT (hl c (by simp))).of_eq_ok hone
    simp only [runPresents, hone, List.mem_append]
    rintro p (hp | hp)
    · exact callPresents_contained hP hT hone p hp
    · exact ih (fun c hc => hl c (by simp [hc])) hT₁ hrest p hp

end BorderPatrol.Trace
