import BorderPatrol.Trace.Protocol.Fcgi

/-!
# How `speak_fcgi` skips the body of a record

`speak_fcgi` takes a body in pieces, but counts the bytes still to be skipped in a local variable:
a body that does not lie in one piece is skipped too far. `fcgiScan` is the parser that keeps the
count, and is lawful. The code does what it does as long as no fragment ends strictly inside a body
(`pump_follows`); once one does, no later header is read where a record begins (`Lost`). And the
strings it copies into a buffer of 1024 bytes have to fit. So feeding is independent of the
fragmentation, and skips each body exactly, if and only if no fragment ends inside a body before
the first `STDOUT` record and the bodies logged have 2 to 1026 bytes of content
(`fcgi_fragments_iff`).
-/

namespace BorderPatrol.Trace

open Foundations Foundations.Resumable

variable {junk : PpFcgiState → List Byte} {s : ℤ} {role : PpId} {d : PpDirection}

/-! ## The parser that keeps the count -/

/-- A side of a connection with what the code does not keep: the bytes of the body still to be
skipped. Beside it are the bytes consumed, the offsets of the headers, and whether a body was logged
that did not fit. -/
structure FcgiScan where
  state : PpFcgiState
  rem : ℕ
  off : ℕ
  headers : List ℕ
  overran : Bool

/-- What is copied of a body, when it is logged at all, fits in 1024 bytes. -/
def PpFcgiState.Loggable (state : PpFcgiState) : Prop :=
  state.streamType = none ∨ 2 ≤ state.conlen ∧ state.conlen ≤ 1026

instance (state : PpFcgiState) : Decidable state.Loggable :=
  inferInstanceAs (Decidable (_ ∨ _))

def FcgiScan.header (sc : FcgiScan) (m : List Byte) : FcgiScan :=
  { sc with
    state := sc.state.header m
    rem := (sc.state.header m).body.toNat
    off := sc.off + 8
    headers := sc.headers ++ [sc.off] }

def FcgiScan.skip (sc : FcgiScan) (n : ℕ) : FcgiScan :=
  if n < sc.rem then { sc with rem := sc.rem - n, off := sc.off + n }
  else if sc.state.Loggable then
    { sc with state := sc.state.finish, rem := 0, off := sc.off + n }
  else { sc with rem := 0, off := sc.off + n, overran := true }

/-- What `speak_fcgi` would want if it kept the count. -/
def fcgiWant (s : ℤ) (role : PpId) (d : PpDirection) (sc : FcgiScan) :
    Want FcgiScan Byte LogCall :=
  if sc.overran then .stuck
  else if sc.state.done ≠ 0 then .sink
  else if sc.state.success = 0 then
    .whole 8 fun m => (sc.header m, messages (fcgiHeaderLog m s role d))
  else if 0 < sc.rem then .skip sc.rem sc.skip
  else .stuck

/-- The parser that keeps the count. -/
def fcgiScan (s : ℤ) (role : PpId) (d : PpDirection) : Step FcgiScan Byte LogCall :=
  unitStep (fcgiWant s role d)

theorem fcgiWant_sink {sc : FcgiScan} (ho : sc.overran = false) (hd : sc.state.done ≠ 0) :
    fcgiWant s role d sc = .sink := by
  simp only [fcgiWant, ho, hd, Bool.false_eq_true, if_false, ne_eq, not_false_eq_true, if_true]

theorem fcgiWant_whole {sc : FcgiScan} (ho : sc.overran = false) (hd : sc.state.done = 0)
    (hs : sc.state.success = 0) : fcgiWant s role d sc =
      .whole 8 fun m => (sc.header m, messages (fcgiHeaderLog m s role d)) := by
  simp only [fcgiWant, ho, hd, hs, Bool.false_eq_true, if_false, ne_eq, not_true_eq_false, if_true]

theorem fcgiWant_skip {sc : FcgiScan} (ho : sc.overran = false) (hd : sc.state.done = 0)
    (hs : sc.state.success ≠ 0) (hr : 0 < sc.rem) :
    fcgiWant s role d sc = .skip sc.rem sc.skip := by
  simp only [fcgiWant, ho, hd, hs, hr, Bool.false_eq_true, if_false, ne_eq, not_true_eq_false,
    if_true]

theorem fcgiWant_stuck {sc : FcgiScan} (ho : sc.overran = true) :
    fcgiWant s role d sc = .stuck := by
  simp only [fcgiWant, ho, if_true]

theorem fcgiWant_coherent : Coherent (fcgiWant s role d) where
  whole := by
    intro sc k f h
    unfold fcgiWant at h
    split at h
    · cases h
    · split at h
      · cases h
      · split at h
        · cases h
          omega
        · split at h <;> cases h
  skip := by
    intro sc k f h
    unfold fcgiWant at h
    split at h
    · cases h
    · split at h
      · cases h
      · split at h
        · cases h
        · split at h
          · cases h
            assumption
          · cases h
  resume := by
    intro sc k f j h hj hjk
    unfold fcgiWant at h
    split at h
    · cases h
    · next ho =>
      split at h
      · cases h
      · next hd =>
        split at h
        · cases h
        · next hs =>
          split at h
          · cases h
            have hskip : sc.skip j = { sc with rem := sc.rem - j, off := sc.off + j } := by
              rw [FcgiScan.skip, if_pos hjk]
            have hw : fcgiWant s role d (sc.skip j) = .skip (sc.skip j).rem (sc.skip j).skip := by
              rw [hskip]
              exact fcgiWant_skip (by simpa using ho) (by simpa using hd) hs (by simp only; omega)
            rw [hw, hskip]
            congr 1
            funext i
            by_cases hi : i < sc.rem - j
            · simp only [FcgiScan.skip, hi, show j + i < sc.rem by omega, if_true, Nat.sub_sub,
                Nat.add_assoc]
            · simp only [FcgiScan.skip, hi, show ¬ j + i < sc.rem by omega, if_false, Nat.add_assoc]
          · cases h

theorem fcgiScan_lawful : Lawful (fcgiScan s role d) := unitStep_lawful fcgiWant_coherent

/-! ## What one call does -/

theorem fcgiType_take (m : List Byte) {n : ℕ} (h : 8 ≤ n) : fcgiType (m.take n) = fcgiType m := by
  rw [fcgiType, fcgiType, getD_take (by omega)]

theorem fcgiReqId_take (m : List Byte) {n : ℕ} (h : 8 ≤ n) :
    fcgiReqId (m.take n) = fcgiReqId m := by
  rw [fcgiReqId, fcgiReqId, getD_take (by omega), getD_take (by omega)]

theorem fcgiConlen_take (m : List Byte) {n : ℕ} (h : 8 ≤ n) :
    fcgiConlen (m.take n) = fcgiConlen m := by
  rw [fcgiConlen, fcgiConlen, getD_take (by omega), getD_take (by omega)]

theorem fcgiPadlen_take (m : List Byte) {n : ℕ} (h : 8 ≤ n) :
    fcgiPadlen (m.take n) = fcgiPadlen m := by
  rw [fcgiPadlen, fcgiPadlen, getD_take (by omega)]

theorem header_take_eight (state : PpFcgiState) (m : List Byte) {n : ℕ} (h : 8 ≤ n) :
    state.header (m.take n) = state.header m := by
  rw [PpFcgiState.header, PpFcgiState.header, fcgiType_take m h, fcgiReqId_take m h,
    fcgiConlen_take m h, fcgiPadlen_take m h]

theorem fcgiHeaderLog_take (m : List Byte) {n : ℕ} (h : 8 ≤ n) :
    fcgiHeaderLog (m.take n) s role d = fcgiHeaderLog m s role d := by
  rw [fcgiHeaderLog, fcgiHeaderLog, fcgiType_take m h, fcgiReqId_take m h]

section Calls

variable {state : PpFcgiState} {m : List Byte}

theorem speakFcgi_done (hd : state.done ≠ 0) :
    speakFcgi junk state s m m.length role d = .ok (m.length, state, []) := by
  rw [speakFcgi, if_pos hd]
  rfl

theorem speakFcgi_wait (hd : state.done = 0) (hs : state.success = 0) (hl : m.length < 8) :
    speakFcgi junk state s m m.length role d = .ok (-1, state, []) := by
  rw [speakFcgi, if_neg (not_not.2 hd), if_pos hs, if_pos (by simp only [fcgiHeaderLen]; omega)]
  rfl

theorem speakFcgi_header (hd : state.done = 0) (hs : state.success = 0) (hl : 8 ≤ m.length) :
    speakFcgi junk state s m m.length role d =
      .ok (8, state.header m, fcgiHeaderLog m s role d) := by
  rw [speakFcgi, if_neg (not_not.2 hd), if_pos hs, if_neg (by simp only [fcgiHeaderLen]; omega)]
  rfl

/-- A piece of a body is taken, and not counted. -/
theorem speakFcgi_piece (hd : state.done = 0) (hs : state.success ≠ 0)
    (hl : m.length < state.body) :
    speakFcgi junk state s m m.length role d = .ok (m.length, state, []) := by
  rw [speakFcgi, if_neg (not_not.2 hd), if_neg hs]
  dsimp only
  rw [cAssert_of (by omega)]
  simp only [Bind.bind, Except.bind, if_neg (show ¬ state.body ≤ m.length by omega)]
  rfl

/-- The end of a body: the bytes logged have to fit. -/
theorem speakFcgi_body (junk : PpFcgiState → List Byte) (s : ℤ) (role : PpId) (d : PpDirection)
    (hd : state.done = 0) (hs : state.success ≠ 0) (hb : 0 < state.body)
    (hl : state.body ≤ m.length) :
    (state.Loggable → ∃ l, speakFcgi junk state s m m.length role d =
      .ok (state.body, state.finish, l) ∧ messages l = []) ∧
    (¬ state.Loggable → speakFcgi junk state s m m.length role d = .error .overrun) := by
  rw [speakFcgi, if_neg (not_not.2 hd), if_neg hs]
  dsimp only
  rw [cAssert_of hb]
  simp only [Bind.bind, Except.bind, hl, if_true, PpFcgiState.Loggable]
  rcases hst : state.streamType with _ | t
  · simp [pure, Except.pure]
  · simp only [reduceCtorEq, false_or]
    constructor
    · intro hc
      rw [inBounds_of (by omega)]
      exact ⟨_, rfl, by simp [messages, logbinSs, logbinS]⟩
    · intro hc
      rw [inBounds, if_neg (by omega)]

theorem speakFcgi_assert (hd : state.done = 0) (hs : state.success ≠ 0) (hb : ¬ 0 < state.body) :
    speakFcgi junk state s m m.length role d = .error .assertion := by
  rw [speakFcgi, if_neg (not_not.2 hd), if_neg hs]
  dsimp only
  rw [cAssert, if_neg hb]
  rfl

/-- What `speak_fcgi` can do on a presentation. -/
theorem speakFcgi_cases {state' : PpFcgiState} {req : ℤ} {l : List LogCall}
    (h : speakFcgi junk state s m m.length role d = .ok (req, state', l)) :
    state.done ≠ 0 ∧ req = m.length ∧ state' = state ∨
    state.done = 0 ∧ state.success = 0 ∧ req = -1 ∧ state' = state ∨
    state.done = 0 ∧ state.success = 0 ∧ 8 ≤ m.length ∧ req = 8 ∨
    state.done = 0 ∧ state.success ≠ 0 ∧ 0 < state.body ∧ state.body ≤ m.length ∧
      req = state.body ∨
    state.done = 0 ∧ state.success ≠ 0 ∧ req = m.length ∧ state' = state := by
  by_cases hd : state.done = 0
  · by_cases hs : state.success = 0
    · by_cases hl : m.length < 8
      · rw [speakFcgi_wait hd hs hl] at h
        simp only [Except.ok.injEq, Prod.mk.injEq] at h
        exact Or.inr (Or.inl ⟨hd, hs, h.1.symm, h.2.1.symm⟩)
      · rw [speakFcgi_header hd hs (by omega)] at h
        simp only [Except.ok.injEq, Prod.mk.injEq] at h
        exact Or.inr (Or.inr (Or.inl ⟨hd, hs, by omega, h.1.symm⟩))
    · by_cases hb : 0 < state.body
      · by_cases hl : state.body ≤ m.length
        · obtain ⟨hfit, hover⟩ := speakFcgi_body junk s role d hd hs hb hl
          by_cases hlog : state.Loggable
          · obtain ⟨l', hl', -⟩ := hfit hlog
            rw [hl'] at h
            simp only [Except.ok.injEq, Prod.mk.injEq] at h
            exact Or.inr (Or.inr (Or.inr (Or.inl ⟨hd, hs, hb, hl, h.1.symm⟩)))
          · rw [hover hlog] at h
            cases h
        · rw [speakFcgi_piece hd hs (by omega)] at h
          simp only [Except.ok.injEq, Prod.mk.injEq] at h
          exact Or.inr (Or.inr (Or.inr (Or.inr ⟨hd, hs, h.1.symm, h.2.1.symm⟩)))
      · rw [speakFcgi_assert hd hs hb] at h
        cases h
  · rw [speakFcgi_done hd] at h
    simp only [Except.ok.injEq, Prod.mk.injEq] at h
    exact Or.inl ⟨hd, h.1.symm, h.2.1.symm⟩

end Calls

/-! ## The code follows the parser while no fragment ends inside a body -/

/-- The code's state, offset and headers are the parser's. -/
structure Follows (f : Fed) (sc : FcgiScan) : Prop where
  state : f.state = sc.state
  off : sc.state.done = 0 → f.off = sc.off
  headers : f.headers = sc.headers

/-- The parser is not strictly inside a body. -/
def FcgiScan.Aligned (sc : FcgiScan) : Prop :=
  sc.state.done = 0 → sc.state.success ≠ 0 → (sc.rem : ℤ) = sc.state.body ∧ 0 < sc.rem

theorem header_aligned (sc : FcgiScan) (m : List Byte) : (sc.header m).Aligned := by
  intro _ hs
  simp only [FcgiScan.header] at hs ⊢
  have hpos : 0 ≤ (sc.state.header m).body := by
    simp only [PpFcgiState.body, PpFcgiState.header, fcgiConlen, fcgiPadlen]
    omega
  have hne : (sc.state.header m).body ≠ 0 := by
    intro h0
    simp only [PpFcgiState.body, PpFcgiState.header] at h0 hs
    simp [h0] at hs
  omega

/-- One round of `pumpFcgi`. -/
theorem pumpFcgi_of {n : ℕ} {f : Fed} {req : ℤ} {state : PpFcgiState} {l : List LogCall}
    (hl : f.left ≠ [])
    (h : speakFcgi junk f.state s f.left f.left.length role d = .ok (req, state, l)) :
    pumpFcgi junk s role d (n + 1) f =
      if 0 < req then pumpFcgi junk s role d n (f.took req state l)
      else .ok { f with state := state, log := f.log ++ l } := by
  simp only [pumpFcgi, hl, if_false, h, Bind.bind, Except.bind]
  rfl

theorem pumpFcgi_nil (n : ℕ) {f : Fed} (hl : f.left = []) :
    pumpFcgi junk s role d (n + 1) f = .ok f := by
  simp only [pumpFcgi, hl, if_true]
  rfl

theorem pumpFcgi_error {n : ℕ} {f : Fed} {e : Fault} (hl : f.left ≠ [])
    (h : speakFcgi junk f.state s f.left f.left.length role d = .error e) :
    pumpFcgi junk s role d (n + 1) f = .error e := by
  simp only [pumpFcgi, hl, if_false, h, Bind.bind, Except.bind]

/-- The loop on `f` does what the parser does from `sc`: it fails when a body logged does not fit,
and otherwise ends in the parser's state with what the parser left. -/
def PumpFollows (junk : PpFcgiState → List Byte) (s : ℤ) (role : PpId) (d : PpDirection) (n : ℕ)
    (f : Fed) (sc : FcgiScan) : Prop :=
  ((drain (fcgiScan s role d) sc f.left).state.overran = true →
    ∃ e, pumpFcgi junk s role d n f = .error e) ∧
  ((drain (fcgiScan s role d) sc f.left).state.overran = false →
    ∃ f', pumpFcgi junk s role d n f = .ok f' ∧
      Follows f' (drain (fcgiScan s role d) sc f.left).state ∧
      f'.left = (drain (fcgiScan s role d) sc f.left).rest ∧
      messages f'.log = messages f.log ++ (drain (fcgiScan s role d) sc f.left).out)

theorem PumpFollows.nil {n : ℕ} {f : Fed} {sc : FcgiScan} (hf : Follows f sc)
    (ho : sc.overran = false) (hl : f.left = []) : PumpFollows junk s role d (n + 1) f sc := by
  rw [PumpFollows, hl, drain_nil]
  refine ⟨fun h => absurd h (by simp [ho]), fun _ => ⟨f, pumpFcgi_nil n hl, hf, hl, ?_⟩⟩
  rw [List.append_nil]

/-- One call of the code that is one step of the parser. -/
theorem PumpFollows.step {n k : ℕ} {f : Fed} {sc sc' : FcgiScan} {state : PpFcgiState}
    {l : List LogCall} (hl : f.left ≠ []) (hk : 0 < k)
    (hcall : speakFcgi junk f.state s f.left f.left.length role d = .ok ((k : ℤ), state, l))
    (hscan : fcgiScan s role d sc f.left = some (k, sc', messages l))
    (h : PumpFollows junk s role d n (f.took k state l) sc') :
    PumpFollows junk s role d (n + 1) f sc := by
  have hpump := pumpFcgi_of (n := n) hl hcall
  rw [if_pos (by omega)] at hpump
  have hleft : (f.took k state l).left = f.left.drop k := by simp [Fed.took]
  have hlog : (f.took k state l).log = f.log ++ l := rfl
  rw [PumpFollows, hleft, hlog, ← hpump] at h
  rw [PumpFollows, drain_of_some fcgiScan_lawful hl hscan]
  refine ⟨h.1, fun ho => ?_⟩
  obtain ⟨f', hf', hfol, hrest, hmsg⟩ := h.2 ho
  refine ⟨f', hf', hfol, hrest, ?_⟩
  rw [hmsg, messages_append, Result.after_out, List.append_assoc]

/-- **From a point outside bodies the loop does what the parser does.** -/
theorem pump_follows {n : ℕ} {f : Fed} {sc : FcgiScan} (hf : Follows f sc) (ha : sc.Aligned)
    (ho : sc.overran = false) (hn : f.left.length < n) : PumpFollows junk s role d n f sc := by
  induction n generalizing f sc with
  | zero => omega
  | succ n ih =>
    by_cases hl : f.left = []
    · exact .nil hf ho hl
    have hpos : 0 < f.left.length := List.length_pos_of_ne_nil hl
    obtain ⟨n, rfl⟩ : ∃ n', n = n' + 1 := ⟨n - 1, by omega⟩
    have hst := hf.state
    by_cases hd : sc.state.done = 0
    · by_cases hs : sc.state.success = 0
      · have hw : fcgiWant s role d sc = _ := fcgiWant_whole ho hd hs
        by_cases hlen : f.left.length < 8
        · -- the header is not there yet
          have hcall : speakFcgi junk f.state s f.left f.left.length role d = _ :=
            speakFcgi_wait (hst ▸ hd) (hst ▸ hs) hlen
          have hpump := pumpFcgi_of (n := n + 1) hl hcall
          rw [if_neg (by omega)] at hpump
          rw [PumpFollows, fcgiScan, drain_wait hw hlen]
          refine ⟨fun h => absurd h (by simp [ho]), fun _ => ⟨_, hpump, ?_, rfl, by simp⟩⟩
          exact ⟨hf.state, hf.off, hf.headers⟩
        · refine .step (k := 8) hl (by omega)
            (speakFcgi_header (hst ▸ hd) (hst ▸ hs) (by omega)) ?_ (ih ?_ (header_aligned sc f.left)
              ho ?_)
          · rw [fcgiScan, unitStep_whole hw (by omega), fcgiHeaderLog_take _ (Nat.le_refl 8),
              FcgiScan.header, header_take_eight _ _ (Nat.le_refl 8)]
            rfl
          · refine ⟨?_, fun _ => ?_, ?_⟩
            · simp only [Fed.took, FcgiScan.header, hst]
            · simp only [Fed.took, FcgiScan.header, hf.off hd]
              rfl
            · simp only [Fed.took, FcgiScan.header, hst, hd, hs, and_self, if_true, hf.headers,
                hf.off hd]
          · simp only [Fed.took, List.length_drop]
            omega
      · obtain ⟨hrem, hrp⟩ := ha hd hs
        have hw : fcgiWant s role d sc = _ := fcgiWant_skip ho hd hs hrp
        have hscan := unitStep_skip hw f.left
        by_cases hlen : f.left.length < sc.rem
        · -- a piece of the body: the code and the parser part, but only in the count
          have hmin : min f.left.length sc.rem = f.left.length := by omega
          rw [hmin] at hscan
          refine .step hl hpos (speakFcgi_piece (hst ▸ hd) (hst ▸ hs) (by rw [hst]; omega)) hscan
            (.nil ?_ ?_ (by simp [Fed.took]))
          · rw [FcgiScan.skip, if_pos hlen]
            refine ⟨hst, fun _ => ?_, ?_⟩
            · simp only [Fed.took, Int.toNat_natCast, hf.off hd]
            · simp only [Fed.took, hst, hs, and_false, if_false, hf.headers]
          · rw [FcgiScan.skip, if_pos hlen]
            exact ho
        · have hmin : min f.left.length sc.rem = sc.rem := by omega
          rw [hmin] at hscan
          have hbody : f.state.body = sc.rem := by rw [hst, hrem]
          obtain ⟨hfit, hover⟩ := speakFcgi_body junk s role d (m := f.left) (hst ▸ hd) (hst ▸ hs)
            (by omega) (by omega)
          by_cases hlog : sc.state.Loggable
          · obtain ⟨l, hcall, hmsg⟩ := hfit (hst ▸ hlog)
            rw [hbody] at hcall
            have hskip : sc.skip sc.rem =
                { sc with state := sc.state.finish, rem := 0, off := sc.off + sc.rem } := by
              rw [FcgiScan.skip, if_neg (Nat.lt_irrefl _), if_pos hlog]
            refine .step hl hrp hcall (hmsg ▸ hscan) (ih ?_ ?_ ?_ ?_)
            · rw [hskip]
              refine ⟨by simp only [Fed.took, hst], fun _ => ?_, ?_⟩
              · simp only [Fed.took, Int.toNat_natCast, hf.off hd]
              · simp only [Fed.took, hst, hs, and_false, if_false, hf.headers]
            · rw [hskip]
              exact fun _ h => absurd rfl h
            · rw [hskip]
              exact ho
            · simp only [Fed.took, List.length_drop, Int.toNat_natCast]
              omega
          · have herr := pumpFcgi_error (n := n + 1) hl (hover (hst ▸ hlog))
            have hskip : (sc.skip sc.rem).overran = true := by
              rw [FcgiScan.skip, if_neg (Nat.lt_irrefl _), if_neg hlog]
            have hdrain : (drain (fcgiScan s role d) sc f.left).state.overran = true := by
              rw [drain_of_some fcgiScan_lawful hl hscan, Result.after_state, fcgiScan,
                drain_stuck (fcgiWant_stuck hskip)]
              exact hskip
            exact ⟨fun _ => ⟨_, herr⟩, fun h => absurd hdrain (by simp [h])⟩
    · have hw : fcgiWant s role d sc = _ := fcgiWant_sink ho hd
      refine .step hl hpos (speakFcgi_done (hst ▸ hd)) (unitStep_sink hw f.left)
        (.nil ?_ ho (by simp [Fed.took]))
      refine ⟨hst, fun h => absurd h hd, ?_⟩
      simp only [Fed.took, hst, hd, false_and, if_false, hf.headers]

/-! ## Once a fragment has ended inside a body -/

/-- The body that ended at offset `e` was skipped too far, when the headers so far were `hs`: the
body is not over though `e` is passed, or it is over beyond `e`, or a header was read beyond `e`.
-/
def Lost (hs : List ℕ) (e : ℕ) (f : Fed) : Prop :=
  (f.headers = hs ∧ f.state.done = 0 ∧ f.state.success ≠ 0 ∧ e < f.off + f.state.body) ∨
    (f.headers = hs ∧ e < f.off) ∨ ∃ h t, f.headers = hs ++ h :: t ∧ e < h

/-- A call on a side that is lost leaves it lost. -/
theorem Lost.took {hs : List ℕ} {e : ℕ} {f : Fed} (h : Lost hs e f) {req : ℤ} {state : PpFcgiState}
    {l : List LogCall} (hreq : 0 < req)
    (hcall : speakFcgi junk f.state s f.left f.left.length role d = .ok (req, state, l)) :
    Lost hs e (f.took req state l) := by
  rcases h with ⟨hh, hd, hs', he⟩ | ⟨hh, he⟩ | ⟨x, t, hh, he⟩
  · have hhead : (f.took req state l).headers = hs := by
      simp only [Fed.took, hs', and_false, if_false, hh]
    rcases speakFcgi_cases hcall with h | h | h | ⟨-, -, hb, -, rfl⟩ | ⟨-, -, rfl, rfl⟩
    · exact absurd hd h.1
    · exact absurd h.2.1 hs'
    · exact absurd h.2.1 hs'
    · refine Or.inr (Or.inl ⟨hhead, ?_⟩)
      simp only [Fed.took]
      omega
    · refine Or.inl ⟨hhead, hd, hs', ?_⟩
      simp only [Fed.took]
      omega
  · by_cases hc : f.state.done = 0 ∧ f.state.success = 0
    · refine Or.inr (Or.inr ⟨f.off, [], ?_, he⟩)
      simp only [Fed.took, hc, and_self, if_true, hh]
    · refine Or.inr (Or.inl ⟨?_, ?_⟩)
      · simp only [Fed.took, hc, if_false, hh]
      · simp only [Fed.took]
        omega
  · refine Or.inr (Or.inr ?_)
    by_cases hc : f.state.done = 0 ∧ f.state.success = 0
    · refine ⟨x, t ++ [f.off], ?_, he⟩
      simp only [Fed.took, hc, and_self, if_true, hh, List.append_assoc, List.cons_append]
    · exact ⟨x, t, by simp only [Fed.took, hc, if_false, hh], he⟩

theorem Lost.pump {hs : List ℕ} {e n : ℕ} {f f' : Fed} (h : Lost hs e f)
    (hp : pumpFcgi junk s role d n f = .ok f') : Lost hs e f' := by
  induction n generalizing f with
  | zero => cases hp
  | succ n ih =>
    by_cases hl : f.left = []
    · rw [pumpFcgi_nil n hl] at hp
      cases hp
      exact h
    rcases hcall : speakFcgi junk f.state s f.left f.left.length role d with e' | ⟨req, state, l⟩
    · rw [pumpFcgi_error hl hcall] at hp
      cases hp
    · rw [pumpFcgi_of hl hcall] at hp
      split at hp
      · next hreq => exact ih (h.took hreq hcall) hp
      · next hreq =>
        cases hp
        -- only a wait for a header takes nothing
        have hpos : 0 < f.left.length := List.length_pos_of_ne_nil hl
        have hst : state = f.state := by
          rcases speakFcgi_cases hcall with ⟨-, hr, -⟩ | ⟨-, -, -, hst⟩ | ⟨-, -, -, hr⟩ |
            ⟨-, -, hb, -, hr⟩ | ⟨-, -, hr, -⟩
          · omega
          · exact hst
          · omega
          · omega
          · omega
        subst hst
        exact h

theorem Lost.feed {hs : List ℕ} {e : ℕ} {cs : List (List Byte)} {f f' : Fed} (h : Lost hs e f)
    (hp : feedFcgi junk s role d f cs = .ok f') : Lost hs e f' := by
  induction cs generalizing f with
  | nil =>
    cases hp
    exact h
  | cons c cs ih =>
    simp only [feedFcgi, Bind.bind, Except.bind] at hp
    split at hp
    · cases hp
    · next f₁ hf₁ =>
      have h₁ : Lost hs e { f with left := f.left ++ c } := h
      exact ih (h₁.pump hf₁) hp

/-- What has been consumed and what is left is what was there. -/
theorem pump_length {n : ℕ} {f f' : Fed} (hp : pumpFcgi junk s role d n f = .ok f') :
    f'.off + f'.left.length = f.off + f.left.length := by
  induction n generalizing f with
  | zero => cases hp
  | succ n ih =>
    by_cases hl : f.left = []
    · rw [pumpFcgi_nil n hl] at hp
      cases hp
      rfl
    rcases hcall : speakFcgi junk f.state s f.left f.left.length role d with e' | ⟨req, state, l⟩
    · rw [pumpFcgi_error hl hcall] at hp
      cases hp
    · rw [pumpFcgi_of hl hcall] at hp
      split at hp
      · next hreq =>
        have hle : req ≤ f.left.length := by
          rcases speakFcgi_cases hcall with ⟨-, hr, -⟩ | ⟨-, -, hr, -⟩ | ⟨-, -, h8, hr⟩ |
            ⟨-, -, -, hb, hr⟩ | ⟨-, -, hr, -⟩ <;> omega
        rw [ih hp]
        simp only [Fed.took, List.length_drop]
        omega
      · cases hp
        rfl

theorem feed_length {cs : List (List Byte)} {f f' : Fed}
    (hf : feedFcgi junk s role d f cs = .ok f') :
    f'.off + f'.left.length = f.off + f.left.length + cs.flatten.length := by
  induction cs generalizing f with
  | nil =>
    cases hf
    rfl
  | cons c cs ih =>
    simp only [feedFcgi, Bind.bind, Except.bind] at hf
    split at hf
    · cases hf
    · next f₁ hf₁ =>
      have hlen := pump_length hf₁
      simp only [List.length_append] at hlen
      rw [ih hf, List.flatten_cons, List.length_append]
      omega

/-! ## Feeding chunks -/

/-- The parser after the stream `b`. -/
def scanned (s : ℤ) (role : PpId) (d : PpDirection) (b : List Byte) :
    Result FcgiScan Byte LogCall :=
  drain (fcgiScan s role d) ⟨fcgiInit, 0, 0, [], false⟩ b

/-- A point in a stream where the parser is outside bodies and nothing logged was too long. -/
def Clean (r : Result FcgiScan Byte LogCall) : Prop := r.state.Aligned ∧ r.state.overran = false

/-- The code after some chunks, with the parser after them. -/
structure Keeps (f : Fed) (r : Result FcgiScan Byte LogCall) : Prop where
  follows : Follows f r.state
  left : f.left = r.rest
  log : messages f.log = r.out

theorem keeps_start : Keeps Fed.start (scanned s role d []) :=
  ⟨⟨rfl, fun _ => rfl, rfl⟩, rfl, rfl⟩

/-- One chunk from a clean point. -/
theorem pump_keeps (junk : PpFcgiState → List Byte) {f : Fed} {b : List Byte}
    (h : Keeps f (scanned s role d b))
    (hc : Clean (scanned s role d b)) (c : List Byte) :
    ((scanned s role d (b ++ c)).state.overran = true →
      ∃ e, pumpFcgi junk s role d ((f.left ++ c).length + 1) { f with left := f.left ++ c } =
        .error e) ∧
    ((scanned s role d (b ++ c)).state.overran = false →
      ∃ f', pumpFcgi junk s role d ((f.left ++ c).length + 1) { f with left := f.left ++ c } =
          .ok f' ∧
        Keeps f' (scanned s role d (b ++ c))) := by
  have hf : Follows { f with left := f.left ++ c } (scanned s role d b).state :=
    ⟨h.follows.state, h.follows.off, h.follows.headers⟩
  have hp : PumpFollows junk s role d ((f.left ++ c).length + 1) { f with left := f.left ++ c }
      (scanned s role d b).state := pump_follows hf hc.1 hc.2 (Nat.lt_succ_self _)
  have happ : scanned s role d (b ++ c) =
      (drain (fcgiScan s role d) (scanned s role d b).state (f.left ++ c)).after
        (scanned s role d b).out := by
    rw [scanned, drain_append fcgiScan_lawful, h.left]
    rfl
  rw [happ]
  refine ⟨hp.1, fun ho => ?_⟩
  obtain ⟨f', hf', hfol, hrest, hmsg⟩ := hp.2 ho
  exact ⟨f', hf', hfol, hrest, by rw [hmsg, h.log]; rfl⟩

/-- **When every chunk ends at a clean point** the code has done what the parser does. -/
theorem feed_keeps (junk : PpFcgiState → List Byte) {cs : List (List Byte)} {f : Fed}
    {b : List Byte}
    (h : Keeps f (scanned s role d b))
    (hc : ∀ cs₁, cs₁ <+: cs → Clean (scanned s role d (b ++ cs₁.flatten))) :
    ∃ f', feedFcgi junk s role d f cs = .ok f' ∧ Keeps f' (scanned s role d (b ++ cs.flatten)) := by
  induction cs generalizing f b with
  | nil => exact ⟨f, rfl, by simpa using h⟩
  | cons c cs ih =>
    have h₀ : Clean (scanned s role d b) := by simpa using hc [] (List.nil_prefix ..)
    have h₁ : Clean (scanned s role d (b ++ c)) := by
      simpa using hc [c] (by simp)
    obtain ⟨f₁, hf₁, hk₁⟩ := (pump_keeps junk h h₀ c).2 h₁.2
    obtain ⟨f', hf', hk'⟩ := ih hk₁ fun cs₁ hcs₁ => by
      have := hc (c :: cs₁) (by simpa using hcs₁)
      rwa [List.flatten_cons, ← List.append_assoc] at this
    refine ⟨f', ?_, by rwa [List.flatten_cons, ← List.append_assoc]⟩
    simp only [feedFcgi, hf₁, Bind.bind, Except.bind]
    exact hf'

/-- **When a chunk does not end at a clean point** and feeding goes through, the side is lost, in
the first body a chunk ended in. -/
theorem feed_lost {cs : List (List Byte)} {f f' : Fed} {b : List Byte}
    (h : Keeps f (scanned s role d b)) (h₀ : Clean (scanned s role d b))
    (hc : ¬ ∀ cs₁, cs₁ <+: cs → Clean (scanned s role d (b ++ cs₁.flatten)))
    (hf : feedFcgi junk s role d f cs = .ok f') :
    ∃ cs₁, cs₁ <+: cs ∧ (scanned s role d (b ++ cs₁.flatten)).state.overran = false ∧
      ¬ (scanned s role d (b ++ cs₁.flatten)).state.Aligned ∧
      ∀ e : ℕ, e < (scanned s role d (b ++ cs₁.flatten)).state.off +
          (scanned s role d (b ++ cs₁.flatten)).state.state.body →
        Lost (scanned s role d (b ++ cs₁.flatten)).state.headers e f' := by
  induction cs generalizing f b with
  | nil =>
    refine absurd (fun cs₁ hcs₁ => ?_) hc
    rw [List.prefix_nil.1 hcs₁]
    simpa using h₀
  | cons c cs ih =>
    simp only [feedFcgi, Bind.bind, Except.bind] at hf
    split at hf
    · cases hf
    · next f₁ hf₁ =>
      obtain ⟨hover, hok⟩ := pump_keeps junk h h₀ c
      by_cases ho : (scanned s role d (b ++ c)).state.overran = true
      · obtain ⟨e, he⟩ := hover ho
        rw [he] at hf₁
        cases hf₁
      · have ho' : (scanned s role d (b ++ c)).state.overran = false := by simpa using ho
        obtain ⟨f₂, hf₂, hk⟩ := hok ho'
        obtain rfl : f₂ = f₁ := Except.ok.inj (hf₂.symm.trans hf₁)
        by_cases ha : (scanned s role d (b ++ c)).state.Aligned
        · have hc' : ¬ ∀ cs₁, cs₁ <+: cs → Clean (scanned s role d (b ++ c ++ cs₁.flatten)) := by
            intro hall
            refine hc fun cs₁ hcs₁ => ?_
            rcases cs₁ with _ | ⟨c', cs₁⟩
            · simpa using h₀
            · obtain ⟨rfl, htail⟩ := List.cons_prefix_cons.1 hcs₁
              rw [List.flatten_cons, ← List.append_assoc]
              exact hall cs₁ htail
          obtain ⟨cs₁, hcs₁, h₁, h₂, h₃⟩ := ih hk ⟨ha, ho'⟩ hc' hf
          refine ⟨c :: cs₁, by simpa using hcs₁, ?_⟩
          rw [List.flatten_cons, ← List.append_assoc]
          exact ⟨h₁, h₂, h₃⟩
        · refine ⟨[c], by simp, ?_⟩
          simp only [List.flatten_cons, List.flatten_nil, List.append_nil]
          refine ⟨ho', ha, fun e he => Lost.feed (Or.inl ⟨hk.follows.headers, ?_, ?_, ?_⟩) hf⟩
          · rw [hk.follows.state]
            by_contra hd
            exact ha fun h => absurd h hd
          · rw [hk.follows.state]
            intro hs
            exact ha fun _ h => absurd hs h
          · have hd : (scanned s role d (b ++ c)).state.state.done = 0 := by
              by_contra hd
              exact ha fun h => absurd h hd
            rw [hk.follows.state, hk.follows.off hd]
            exact he

/-! ## Records -/

/-- A well-formed record. -/
structure FcgiRecord where
  version : Byte
  type : Byte
  reqId : ℕ
  content : List Byte
  padding : List Byte
  reserved : Byte
  reqId_lt : reqId < 2 ^ 16
  content_lt : content.length < 2 ^ 16
  padding_lt : padding.length < 2 ^ 8

namespace FcgiRecord

def head (r : FcgiRecord) : List Byte :=
  [r.version, r.type] ++ toBE 2 r.reqId ++ toBE 2 r.content.length ++
    [UInt8.ofNat r.padding.length, r.reserved]

def bytes (r : FcgiRecord) : List Byte := r.head ++ (r.content ++ r.padding)

/-- The length of content and padding. -/
def body (r : FcgiRecord) : ℕ := r.content.length + r.padding.length

/-- A `STDOUT` record, after whose header everything is taken. -/
def Last (r : FcgiRecord) : Prop := r.type = 6

instance (r : FcgiRecord) : Decidable r.Last := inferInstanceAs (Decidable (_ = _))

theorem head_eq (r : FcgiRecord) : r.head = [r.version, r.type, UInt8.ofNat (r.reqId / 256),
    UInt8.ofNat r.reqId, UInt8.ofNat (r.content.length / 256), UInt8.ofNat r.content.length,
    UInt8.ofNat r.padding.length, r.reserved] := by
  simp [head, toBE, toLE]

@[simp] theorem length_head (r : FcgiRecord) : r.head.length = 8 := by simp [head_eq]

@[simp] theorem length_bytes (r : FcgiRecord) : r.bytes.length = 8 + r.body := by
  simp [bytes, body]

theorem fcgiType_head (r : FcgiRecord) : fcgiType r.head = r.type.toNat := by
  rw [head_eq]
  rfl

theorem fcgiConlen_head (r : FcgiRecord) : fcgiConlen r.head = r.content.length := by
  have h := r.content_lt
  have h₁ : (UInt8.ofNat (r.content.length / 256)).toNat = r.content.length / 256 % 256 :=
    UInt8.toNat_ofNat'
  have h₂ : (UInt8.ofNat r.content.length).toNat = r.content.length % 256 := UInt8.toNat_ofNat'
  rw [head_eq]
  simp only [fcgiConlen, List.getD_cons_succ, List.getD_cons_zero, h₁, h₂]
  omega

theorem fcgiPadlen_head (r : FcgiRecord) : fcgiPadlen r.head = r.padding.length := by
  have h := r.padding_lt
  have h₁ : (UInt8.ofNat r.padding.length).toNat = r.padding.length % 256 := UInt8.toNat_ofNat'
  rw [head_eq]
  simp only [fcgiPadlen, List.getD_cons_succ, List.getD_cons_zero, h₁]
  omega

end FcgiRecord

/-- The records one after the other. -/
def fcgiStream (rs : List FcgiRecord) : List Byte := rs.flatMap FcgiRecord.bytes

/-- The offsets at which the records begin, from `n` on, up to the first `STDOUT` record. -/
def fcgiStarts : ℕ → List FcgiRecord → List ℕ
  | _, [] => []
  | n, r :: rs => n :: if r.Last then [] else fcgiStarts (n + (8 + r.body)) rs

/-- An offset lies strictly inside a body, before the first `STDOUT` record. -/
def InsideBody : List FcgiRecord → ℕ → Prop
  | [], _ => False
  | r :: rs, n => ¬ r.Last ∧
    (8 < n ∧ n < 8 + r.body ∨ 8 + r.body ≤ n ∧ InsideBody rs (n - (8 + r.body)))

/-- The bodies that are logged have 2 to 1026 bytes of content. A body is logged when a `PARAMS`
header came since the last body ended, which is `params` at the beginning. -/
def BodiesLoggable : (params : Bool) → List FcgiRecord → Prop
  | _, [] => True
  | params, r :: rs =>
    r.Last ∨
    if r.body = 0 then BodiesLoggable (params || r.type = 4) rs
    else ((params || r.type = 4) = true → 2 ≤ r.content.length ∧ r.content.length ≤ 1026) ∧
      BodiesLoggable false rs

/-- The parser is between records. -/
structure FcgiScan.Ready (sc : FcgiScan) : Prop where
  fit : sc.overran = false
  done : sc.state.done = 0
  success : sc.state.success = 0

section Headers

variable {sc : FcgiScan} (r : FcgiRecord)

theorem header_body : (sc.state.header r.head).body = r.body := by
  simp only [PpFcgiState.body, PpFcgiState.header, r.fcgiConlen_head, r.fcgiPadlen_head,
    FcgiRecord.body]
  push_cast
  rfl

theorem header_success :
    (sc.state.header r.head).success = if r.body = 0 then 0 else 1 := by
  have h : (sc.state.header r.head).body = r.body := header_body r
  simp only [PpFcgiState.body, PpFcgiState.header] at h
  simp only [PpFcgiState.header, h, Int.natCast_eq_zero]

theorem header_done (hd : sc.state.done = 0) :
    (sc.state.header r.head).done = if r.Last then 1 else 0 := by
  have h6 : r.type.toNat = 6 ↔ r.type = 6 := by
    rw [show (6 : ℕ) = (6 : Byte).toNat from rfl, UInt8.toNat_inj]
  by_cases hl : r.type = 6 <;>
    simp [PpFcgiState.header, r.fcgiType_head, h6, hd, FcgiRecord.Last, hl]

theorem header_streamType : (sc.state.header r.head).streamType.isSome =
    (sc.state.streamType.isSome || r.type = 4) := by
  have h4 : r.type.toNat = 4 ↔ r.type = 4 := by
    rw [show (4 : ℕ) = (4 : Byte).toNat from rfl, UInt8.toNat_inj]
  simp only [PpFcgiState.header, r.fcgiType_head, h4]
  by_cases h : r.type = 4 <;> simp [h]

theorem header_loggable : (sc.state.header r.head).Loggable ↔
    ((sc.state.streamType.isSome || r.type = 4) = true →
      2 ≤ r.content.length ∧ r.content.length ≤ 1026) := by
  rw [← header_streamType, PpFcgiState.Loggable]
  have hc : (sc.state.header r.head).conlen = r.content.length := r.fcgiConlen_head
  rw [hc]
  cases (sc.state.header r.head).streamType <;> simp

/-- The parser after a header and `n` bytes of its body. -/
def FcgiScan.past (sc : FcgiScan) (r : FcgiRecord) (n : ℕ) : FcgiScan :=
  if r.Last ∨ n = 0 then sc.header r.head else (sc.header r.head).skip n

/-- A header and some bytes behind it. -/
theorem drain_past (hr : sc.Ready) {b c : List Byte} (hb : b.length ≤ r.body)
    (hc : b.length < r.body → c = []) :
    drain (fcgiScan s role d) sc (r.head ++ (b ++ c)) =
      (drain (fcgiScan s role d) (sc.past r b.length) c).after
        (messages (fcgiHeaderLog r.head s role d)) := by
  have hw : fcgiWant s role d sc = _ := fcgiWant_whole hr.fit hr.done hr.success
  have hdone : (sc.header r.head).state.done = if r.Last then 1 else 0 := header_done r hr.done
  rw [fcgiScan, drain_whole fcgiWant_coherent hw r.length_head]
  congr 1
  by_cases hl : r.Last
  · have hsink : fcgiWant s role d (sc.header r.head) = _ :=
      fcgiWant_sink hr.fit (by rw [hdone, if_pos hl]; decide)
    simp only
    rw [FcgiScan.past, if_pos (Or.inl hl), drain_sink fcgiWant_coherent hsink,
      drain_sink fcgiWant_coherent hsink]
  · by_cases hn : b.length = 0
    · rw [FcgiScan.past, if_pos (Or.inr hn), List.eq_nil_of_length_eq_zero hn, List.nil_append]
    · have hrem : (sc.header r.head).rem = r.body := by
        simp only [FcgiScan.header, header_body, Int.toNat_natCast]
      have hskip : fcgiWant s role d (sc.header r.head) = _ :=
        fcgiWant_skip hr.fit (by rw [hdone, if_neg hl]) (by
          change (sc.state.header r.head).success ≠ 0
          rw [header_success, if_neg (by omega)]
          decide) (by rw [hrem]; omega)
      rw [FcgiScan.past, if_neg (not_or.2 ⟨hl, hn⟩)]
      have hstep := unitStep_skip hskip (b ++ c)
      have hmin : min (b ++ c).length (sc.header r.head).rem = b.length := by
        rw [hrem, List.length_append]
        rcases Nat.lt_or_eq_of_le hb with hlt | heq
        · rw [hc hlt, List.length_nil]
          omega
        · omega
      rw [hmin] at hstep
      have hne : b ++ c ≠ [] := List.ne_nil_of_length_pos (by rw [List.length_append]; omega)
      change drain (fcgiScan s role d) (sc.header r.head) (b ++ c) = _
      rw [drain_of_some fcgiScan_lawful hne hstep, List.drop_left, Result.after_nil]
      rfl

/-- A whole record, and what follows. -/
theorem drain_record (hr : sc.Ready) (c : List Byte) :
    drain (fcgiScan s role d) sc (r.bytes ++ c) =
      (drain (fcgiScan s role d) (sc.past r r.body) c).after
        (messages (fcgiHeaderLog r.head s role d)) := by
  have hb : (r.content ++ r.padding).length = r.body := by simp [FcgiRecord.body]
  rw [FcgiRecord.bytes, List.append_assoc, drain_past r hr (by omega) (by omega), hb]

theorem past_last (hr : sc.Ready) (hl : r.Last) (n : ℕ) :
    (sc.past r n).overran = false ∧ (sc.past r n).state.done ≠ 0 ∧
      (sc.past r n).headers = sc.headers ++ [sc.off] := by
  rw [FcgiScan.past, if_pos (Or.inl hl)]
  refine ⟨hr.fit, ?_, rfl⟩
  change (sc.state.header r.head).done ≠ 0
  rw [header_done r hr.done, if_pos hl]
  decide

/-- Inside a body that is not the last the parser is not aligned, and has kept the count. -/
theorem past_inside (hr : sc.Ready) (hl : ¬ r.Last) {n : ℕ} (hn : 0 < n) (hb : n < r.body) :
    (sc.past r n).overran = false ∧ ¬ (sc.past r n).Aligned ∧
      (sc.past r n).headers = sc.headers ++ [sc.off] ∧ (sc.past r n).off = sc.off + 8 + n ∧
      (sc.past r n).state.body = r.body := by
  have hrem : (sc.header r.head).rem = r.body := by
    simp only [FcgiScan.header, header_body, Int.toNat_natCast]
  rw [FcgiScan.past, if_neg (not_or.2 ⟨hl, by omega⟩), FcgiScan.skip, if_pos (by omega)]
  refine ⟨hr.fit, fun ha => ?_, rfl, rfl, header_body r⟩
  obtain ⟨h, -⟩ := ha ((header_done r hr.done).trans (if_neg hl)) (by
    change (sc.state.header r.head).success ≠ 0
    rw [header_success, if_neg (by omega)]
    decide)
  simp only [FcgiScan.header, header_body] at h
  omega

/-- After a record that is not the last the parser is between records, unless a body logged did not
fit. -/
theorem past_record (hr : sc.Ready) (hl : ¬ r.Last) :
    (sc.past r r.body).headers = sc.headers ++ [sc.off] ∧
    (sc.past r r.body).off = sc.off + (8 + r.body) ∧
    ((sc.past r r.body).overran = false →
      (sc.past r r.body).Ready ∧ (sc.past r r.body).state.streamType.isSome =
        if r.body = 0 then sc.state.streamType.isSome || r.type = 4 else false) ∧
    ((sc.past r r.body).overran = true ↔ r.body ≠ 0 ∧ ¬ (sc.state.header r.head).Loggable) := by
  have hdone : (sc.state.header r.head).done = 0 := (header_done r hr.done).trans (if_neg hl)
  by_cases hb : r.body = 0
  · have hp : sc.past r r.body = sc.header r.head := by rw [FcgiScan.past, if_pos (Or.inr hb)]
    have hfit : (sc.header r.head).overran = false := hr.fit
    rw [hp]
    refine ⟨rfl, by simp only [FcgiScan.header, hb], fun _ => ⟨⟨hr.fit, hdone, ?_⟩, ?_⟩, ?_⟩
    · exact (header_success r).trans (if_pos hb)
    · rw [if_pos hb]
      exact header_streamType r
    · simp [hb, hfit]
  · have hrem : (sc.header r.head).rem = r.body := by
      simp only [FcgiScan.header, header_body, Int.toNat_natCast]
    have hp : sc.past r r.body = (sc.header r.head).skip r.body := by
      rw [FcgiScan.past, if_neg (not_or.2 ⟨hl, hb⟩)]
    rw [hp, FcgiScan.skip, if_neg (by omega)]
    by_cases hlog : (sc.header r.head).state.Loggable
    · rw [if_pos hlog]
      refine ⟨rfl, by simp only [FcgiScan.header]; omega, fun _ => ⟨⟨hr.fit, hdone, rfl⟩, ?_⟩, ?_⟩
      · rw [if_neg hb]
        rfl
      · have hlog' : (sc.state.header r.head).Loggable := hlog
        have hfit : (sc.header r.head).overran = false := hr.fit
        simp [hlog', hfit]
    · rw [if_neg hlog]
      have hlog' : ¬ (sc.state.header r.head).Loggable := hlog
      exact ⟨rfl, by simp only [FcgiScan.header]; omega, fun h => absurd h (by simp),
        by simp [hb, hlog']⟩

end Headers

/-! ## A stream of records -/

section Streams

variable {sc : FcgiScan} {rs : List FcgiRecord} (r : FcgiRecord)

/-- A record whose logged body does not fit is one the condition excludes. -/
theorem not_bodiesLoggable_cons (hr : sc.Ready) (hl : ¬ r.Last)
    (ho : (sc.past r r.body).overran = true) :
    ¬ BodiesLoggable sc.state.streamType.isSome (r :: rs) := by
  intro hlog
  obtain ⟨-, -, -, h₄⟩ := past_record r hr hl
  obtain ⟨hbody, hnot⟩ := h₄.1 ho
  rcases hlog with hlog | hlog
  · exact absurd hlog hl
  · rw [if_neg hbody] at hlog
    exact absurd ((header_loggable r).2 hlog.1) hnot

/-- Where the body of a record fits, the condition is about the records behind it. -/
theorem bodiesLoggable_cons_iff (hr : sc.Ready) (hl : ¬ r.Last)
    (ho : (sc.past r r.body).overran = false) :
    BodiesLoggable sc.state.streamType.isSome (r :: rs) ↔
      BodiesLoggable (sc.past r r.body).state.streamType.isSome rs := by
  obtain ⟨-, -, h₃, h₄⟩ := past_record r hr hl
  rw [(h₃ ho).2, BodiesLoggable, or_iff_right hl]
  split
  · exact Iff.rfl
  · next hbody =>
    have hlog : (sc.state.header r.head).Loggable := by
      by_contra h
      rw [h₄.2 ⟨hbody, h⟩] at ho
      cases ho
    exact and_iff_right ((header_loggable r).1 hlog)

/-- The parser went from `sc` to `sc'` on the first `n` bytes of a stream of records. Where all
bodies that are logged fit, it is between records unless `n` is inside a body. If it is not between
records, then `e` is where the next one begins, or the stream ends, and it expects it further on. -/
structure Begun (sc : FcgiScan) (rs : List FcgiRecord) (n : ℕ) (sc' : FcgiScan) : Prop where
  clean : BodiesLoggable sc.state.streamType.isSome rs →
    sc'.overran = false ∧ (sc'.Aligned ↔ ¬ InsideBody rs n)
  lost : sc'.overran = false → ¬ sc'.Aligned →
    ∃ t e, sc.headers ++ fcgiStarts sc.off rs = sc'.headers ++ t ∧
      (t = [] ∧ e = sc.off + (fcgiStream rs).length ∨ ∃ t', t = e :: t') ∧
      e < sc'.off + sc'.state.body

theorem Begun.of_aligned {sc' : FcgiScan} {n : ℕ} (hfit : sc'.overran = false) (ha : sc'.Aligned)
    (hn : ¬ InsideBody rs n) : Begun sc rs n sc' :=
  ⟨fun _ => ⟨hfit, iff_of_true ha hn⟩, fun _ h => absurd ha h⟩

/-- The stream breaks off inside a record. -/
theorem begun_past (hr : sc.Ready) {n : ℕ} (hn : n < r.body) :
    Begun sc (r :: rs) (8 + n) (sc.past r n) := by
  by_cases hl : r.Last
  · obtain ⟨h₁, h₂, -⟩ := past_last r hr hl n
    exact .of_aligned h₁ (fun h => absurd h h₂) fun h => h.1 hl
  rcases Nat.eq_zero_or_pos n with hz | hpos
  · have hp : sc.past r n = sc.header r.head := by
      rw [FcgiScan.past, if_pos (Or.inr hz)]
    rw [hp]
    refine .of_aligned hr.fit (header_aligned sc r.head) ?_
    rintro ⟨-, ⟨h, -⟩ | ⟨h, -⟩⟩ <;> omega
  · obtain ⟨h₁, h₂, h₃, h₄, h₅⟩ := past_inside r hr hl hpos hn
    refine ⟨fun _ => ⟨h₁, iff_of_false h₂ fun h => h ⟨hl, Or.inl (by omega)⟩⟩, fun _ _ => ?_⟩
    refine ⟨fcgiStarts (sc.off + (8 + r.body)) rs, sc.off + (8 + r.body), ?_, ?_, ?_⟩
    · rw [h₃, fcgiStarts, if_neg hl, List.append_assoc]
      rfl
    · rcases rs with _ | ⟨r', rs⟩
      · exact Or.inl ⟨rfl, by simp [fcgiStream]⟩
      · exact Or.inr ⟨_, rfl⟩
    · rw [h₄, h₅]
      omega

/-- What is known of the records behind the first, which is not the last and fits, is known of
all. -/
theorem Begun.cons (hr : sc.Ready) (hl : ¬ r.Last) (ho : (sc.past r r.body).overran = false)
    {sc' : FcgiScan} {n : ℕ} (h : Begun (sc.past r r.body) rs n sc') :
    Begun sc (r :: rs) (8 + r.body + n) sc' := by
  obtain ⟨h₁, h₂, -, -⟩ := past_record r hr hl
  refine ⟨fun hlog => ?_, fun hfit ha => ?_⟩
  · obtain ⟨hfit, hiff⟩ := h.clean ((bodiesLoggable_cons_iff r hr hl ho).1 hlog)
    refine ⟨hfit, hiff.trans (not_congr ?_)⟩
    constructor
    · intro hin
      refine ⟨hl, Or.inr ⟨by omega, ?_⟩⟩
      rwa [Nat.add_sub_cancel_left]
    · rintro ⟨-, ⟨-, hlt⟩ | ⟨-, hin⟩⟩
      · omega
      · rwa [Nat.add_sub_cancel_left] at hin
  · obtain ⟨t, e, ht, he, hlt⟩ := h.lost hfit ha
    have hstream : fcgiStream (r :: rs) = r.bytes ++ fcgiStream rs := List.flatMap_cons ..
    refine ⟨t, e, ?_, ?_, hlt⟩
    · rw [← ht, h₁, h₂, fcgiStarts, if_neg hl, List.append_assoc]
      rfl
    · rw [hstream, List.length_append, r.length_bytes]
      rw [h₂] at he
      rcases he with ⟨rfl, rfl⟩ | he
      · exact Or.inl ⟨rfl, by omega⟩
      · exact Or.inr he

end Streams

/-- The parser on part of a stream of records. -/
theorem drain_begins (s : ℤ) (role : PpId) (d : PpDirection) {rs : List FcgiRecord}
    {sc : FcgiScan} (hr : sc.Ready) {b : List Byte} (hb : b <+: fcgiStream rs) :
    Begun sc rs b.length (drain (fcgiScan s role d) sc b).state := by
  have ha : ∀ {sc : FcgiScan}, sc.Ready → sc.Aligned := fun hr _ h => absurd hr.success h
  induction rs generalizing sc b with
  | nil =>
    obtain rfl : b = [] := List.prefix_nil.1 hb
    rw [drain_nil]
    exact .of_aligned hr.fit (ha hr) (by simp [InsideBody])
  | cons r rs ih =>
    by_cases hlen : b.length < 8
    · -- the header is not there yet
      rw [fcgiScan, drain_wait (fcgiWant_whole hr.fit hr.done hr.success) hlen]
      refine .of_aligned hr.fit (ha hr) ?_
      rintro ⟨-, ⟨h, -⟩ | ⟨h, -⟩⟩ <;> omega
    have hstream : fcgiStream (r :: rs) = r.bytes ++ fcgiStream rs := List.flatMap_cons ..
    rw [hstream] at hb
    rcases Nat.lt_or_ge b.length (8 + r.body) with hlt | hge
    · -- the header and part of the body
      have hhead : r.head <+: r.bytes ++ fcgiStream rs := by
        rw [FcgiRecord.bytes, List.append_assoc]
        exact List.prefix_append ..
      obtain ⟨b, rfl⟩ := List.prefix_of_prefix_length_le hhead hb (by rw [r.length_head]; omega)
      rw [List.length_append, r.length_head] at hlt ⊢
      have hd : drain (fcgiScan s role d) sc (r.head ++ b) = _ :=
        (congrArg _ (by rw [List.append_nil])).trans
          (drain_past r hr (b := b) (c := []) (by omega) fun _ => rfl)
      rw [hd, Result.after_state, drain_nil]
      exact begun_past r hr (by omega)
    · -- the whole record
      have hrec : r.bytes <+: r.bytes ++ fcgiStream rs := List.prefix_append ..
      obtain ⟨b, rfl⟩ := List.prefix_of_prefix_length_le hrec hb (by rw [r.length_bytes]; omega)
      rw [drain_record r hr, Result.after_state, List.length_append, r.length_bytes]
      have hb' : b <+: fcgiStream rs := (List.prefix_append_right_inj _).1 hb
      by_cases hl : r.Last
      · obtain ⟨h₁, h₂, -⟩ := past_last r hr hl r.body
        rw [fcgiScan, drain_sink fcgiWant_coherent (fcgiWant_sink h₁ h₂)]
        exact .of_aligned h₁ (fun h => absurd h h₂) fun h => h.1 hl
      by_cases ho : (sc.past r r.body).overran = true
      · rw [fcgiScan, drain_stuck (fcgiWant_stuck ho)]
        refine ⟨fun hlog => absurd hlog (not_bodiesLoggable_cons r hr hl ho), fun h => ?_⟩
        exact absurd (ho.symm.trans h) (by decide)
      · rw [Bool.not_eq_true] at ho
        obtain ⟨-, -, h₃, -⟩ := past_record r hr hl
        exact (ih (h₃ ho).1 hb').cons r hr hl ho

/-- The parser on a whole stream of records. -/
theorem drain_stream (s : ℤ) (role : PpId) (d : PpDirection) {rs : List FcgiRecord}
    {sc : FcgiScan} (hr : sc.Ready) :
    (BodiesLoggable sc.state.streamType.isSome rs →
      (drain (fcgiScan s role d) sc (fcgiStream rs)).rest = [] ∧
      (drain (fcgiScan s role d) sc (fcgiStream rs)).state.headers =
        sc.headers ++ fcgiStarts sc.off rs ∧
      ((drain (fcgiScan s role d) sc (fcgiStream rs)).state.state.success = 0 ∨
        (drain (fcgiScan s role d) sc (fcgiStream rs)).state.state.done ≠ 0)) ∧
    (¬ BodiesLoggable sc.state.streamType.isSome rs →
      (drain (fcgiScan s role d) sc (fcgiStream rs)).state.overran = true) := by
  induction rs generalizing sc with
  | nil => exact ⟨fun _ => ⟨rfl, by simp [fcgiStarts, fcgiStream], Or.inl hr.success⟩,
      fun h => absurd trivial h⟩
  | cons r rs ih =>
    have hstream : fcgiStream (r :: rs) = r.bytes ++ fcgiStream rs := List.flatMap_cons ..
    rw [hstream, drain_record r hr]
    simp only [Result.after_state, Result.after_rest]
    by_cases hl : r.Last
    · obtain ⟨h₁, h₂, h₃⟩ := past_last r hr hl r.body
      rw [fcgiScan, drain_sink fcgiWant_coherent (fcgiWant_sink h₁ h₂)]
      refine ⟨fun _ => ⟨rfl, ?_, Or.inr h₂⟩, fun h => absurd (Or.inl hl) h⟩
      rw [h₃, fcgiStarts, if_pos hl]
    · obtain ⟨h₁, h₂, h₃, -⟩ := past_record r hr hl
      by_cases ho : (sc.past r r.body).overran = true
      · rw [fcgiScan, drain_stuck (fcgiWant_stuck ho)]
        exact ⟨fun hlog => absurd hlog (not_bodiesLoggable_cons r hr hl ho), fun _ => ho⟩
      · rw [Bool.not_eq_true] at ho
        obtain ⟨hok, hbad⟩ := ih (h₃ ho).1
        rw [bodiesLoggable_cons_iff r hr hl ho]
        refine ⟨fun h => ?_, hbad⟩
        obtain ⟨h₅, h₆, h₇⟩ := hok h
        refine ⟨h₅, ?_, h₇⟩
        rw [h₆, h₁, h₂, fcgiStarts, if_neg hl, List.append_assoc]
        rfl

/-! ## Fragments -/

/-- The side has skipped each body exactly: it has read its headers where the records begin, up to
the first `STDOUT` record, is past the last body, and has nothing left. -/
def SkipsExactly (rs : List FcgiRecord) (f : Fed) : Prop :=
  f.headers = fcgiStarts 0 rs ∧ (f.state.success = 0 ∨ f.state.done ≠ 0) ∧ f.left = []

/-- No chunk ends strictly inside a body before the first `STDOUT` record. -/
def WholeBodies (rs : List FcgiRecord) (cs : List (List Byte)) : Prop :=
  ∀ cs₁, cs₁ <+: cs → ¬ InsideBody rs cs₁.flatten.length

theorem start_ready : (⟨fcgiInit, 0, 0, [], false⟩ : FcgiScan).Ready := ⟨rfl, rfl, rfl⟩

theorem flatten_prefix {cs₁ cs : List (List Byte)} (h : cs₁ <+: cs) :
    cs₁.flatten <+: cs.flatten := by
  obtain ⟨cs₂, rfl⟩ := h
  rw [List.flatten_append]
  exact List.prefix_append ..

/-- A side that is lost has not skipped exactly. -/
theorem Lost.not_skipsExactly {rs : List FcgiRecord} {hs t : List ℕ} {e : ℕ} {f : Fed}
    (h : Lost hs e f) (ht : fcgiStarts 0 rs = hs ++ t)
    (he : t = [] ∧ e = (fcgiStream rs).length ∨ ∃ t', t = e :: t')
    (hoff : f.off ≤ (fcgiStream rs).length) : ¬ SkipsExactly rs f := by
  rintro ⟨hh, hdone, -⟩
  rw [ht] at hh
  rcases h with ⟨-, hd, hs', -⟩ | ⟨hh', hlt⟩ | ⟨x, t', hh', hlt⟩
  · rcases hdone with h | h
    · exact hs' h
    · exact h hd
  · have hnil : t = [] := List.append_cancel_left (hh.symm.trans (by rw [hh', List.append_nil]))
    rcases he with ⟨-, rfl⟩ | ⟨t', rfl⟩
    · omega
    · cases hnil
  · have hcons : t = x :: t' := List.append_cancel_left (hh.symm.trans hh')
    rcases he with ⟨rfl, -⟩ | ⟨t'', rfl⟩
    · cases hcons
    · obtain ⟨rfl, -⟩ := List.cons.inj hcons
      omega

/-- Feeding a stream of records in chunks that end outside bodies does what the parser does. -/
theorem feed_of_wholeBodies (junk : PpFcgiState → List Byte) (s : ℤ) (role : PpId) (d : PpDirection)
    {rs : List FcgiRecord} {cs : List (List Byte)} (hcs : cs.flatten = fcgiStream rs)
    (hlog : BodiesLoggable false rs) (hw : WholeBodies rs cs) :
    ∃ f, feedFcgi junk s role d Fed.start cs = .ok f ∧ Keeps f (scanned s role d (fcgiStream rs)) ∧
      SkipsExactly rs f := by
  have hclean : ∀ cs₁, cs₁ <+: cs → Clean (scanned s role d ([] ++ cs₁.flatten)) := by
    intro cs₁ hcs₁
    obtain ⟨ho, ha⟩ :=
      (drain_begins s role d start_ready (hcs ▸ flatten_prefix hcs₁)).clean hlog
    exact ⟨ha.2 (hw cs₁ hcs₁), ho⟩
  obtain ⟨f, hf, hk⟩ := feed_keeps junk keeps_start hclean
  rw [List.nil_append, hcs] at hk
  obtain ⟨h₁, h₂, h₃⟩ := (drain_stream s role d start_ready).1 hlog
  refine ⟨f, hf, hk, ?_, ?_, hk.left.trans h₁⟩
  · exact hk.follows.headers.trans h₂
  · rw [hk.follows.state]
    exact h₃

/-- **Fragments and bodies.** Feeding a stream of records goes through and skips each body exactly
if and only if what is logged fits and no chunk ends inside a body. -/
theorem feed_skips_iff (junk : PpFcgiState → List Byte) (s : ℤ) (role : PpId) (d : PpDirection)
    {rs : List FcgiRecord} {cs : List (List Byte)} (hcs : cs.flatten = fcgiStream rs) :
    (∃ f, feedFcgi junk s role d Fed.start cs = .ok f ∧ SkipsExactly rs f) ↔
      BodiesLoggable false rs ∧ WholeBodies rs cs := by
  constructor
  · rintro ⟨f, hf, hskip⟩
    have hclean : ∀ cs₁, cs₁ <+: cs → Clean (scanned s role d ([] ++ cs₁.flatten)) := by
      by_contra hc
      obtain ⟨cs₁, hcs₁, ho, ha, hlost⟩ :=
        feed_lost keeps_start ⟨fun _ h => absurd rfl h, rfl⟩ hc hf
      rw [List.nil_append] at ho ha hlost
      obtain ⟨t, e, ht, he, hlt⟩ := (drain_begins s role d start_ready
        (hcs ▸ flatten_prefix hcs₁)).lost ho ha
      have hlen := feed_length hf
      rw [hcs] at hlen
      simp only [Fed.start, List.length_nil, Nat.add_zero, Nat.zero_add] at hlen
      refine (hlost e hlt).not_skipsExactly ht ?_ (by omega) hskip
      simpa using he
    simp only [List.nil_append] at hclean
    have hlog : BodiesLoggable false rs := by
      by_contra h
      have := (drain_stream s role d start_ready).2 h
      have hfit := (hclean cs (List.prefix_refl _)).2
      rw [hcs, scanned, this] at hfit
      cases hfit
    refine ⟨hlog, fun cs₁ hcs₁ => ?_⟩
    exact ((drain_begins s role d start_ready
      (hcs ▸ flatten_prefix hcs₁)).clean hlog).2.1 (hclean cs₁ hcs₁).1
  · rintro ⟨hlog, hw⟩
    obtain ⟨f, hf, -, hskip⟩ := feed_of_wholeBodies junk s role d hcs hlog hw
    exact ⟨f, hf, hskip⟩

/-- **Fragmentation independence of `speak_fcgi`.** Two ways of feeding a stream of well-formed
records report the same messages, end in the same state and skip each body exactly, if and only if
the bodies that are logged have 2 to 1026 bytes of content and, in neither, a chunk ends strictly
inside a body before the first `STDOUT` record. -/
theorem fcgi_fragments_iff (junk junk' : PpFcgiState → List Byte) (s : ℤ) (role : PpId)
    (d : PpDirection) (rs : List FcgiRecord) (cs cs' : List (List Byte))
    (hcs : cs.flatten = fcgiStream rs) (hcs' : cs'.flatten = fcgiStream rs) :
    (∃ f f', feedFcgi junk s role d Fed.start cs = .ok f ∧
      feedFcgi junk' s role d Fed.start cs' = .ok f' ∧ messages f.log = messages f'.log ∧
      f.state = f'.state ∧ SkipsExactly rs f ∧ SkipsExactly rs f') ↔
    BodiesLoggable false rs ∧ WholeBodies rs cs ∧ WholeBodies rs cs' := by
  constructor
  · rintro ⟨f, f', hf, hf', -, -, hskip, hskip'⟩
    obtain ⟨hlog, hw⟩ := (feed_skips_iff junk s role d hcs).1 ⟨f, hf, hskip⟩
    exact ⟨hlog, hw, ((feed_skips_iff junk' s role d hcs').1 ⟨f', hf', hskip'⟩).2⟩
  · rintro ⟨hlog, hw, hw'⟩
    obtain ⟨f, hf, hk, hskip⟩ := feed_of_wholeBodies junk s role d hcs hlog hw
    obtain ⟨f', hf', hk', hskip'⟩ := feed_of_wholeBodies junk' s role d hcs' hlog hw'
    exact ⟨f, f', hf, hf', hk.log.trans hk'.log.symm,
      hk.follows.state.trans hk'.follows.state.symm, hskip, hskip'⟩

/-- A request that begins and ends, each record with a body of eight bytes. -/
def beginAndEnd : List FcgiRecord :=
  [⟨1, 1, 1, [0, 1, 0, 0, 0, 0, 0, 0], [], 0, by decide, by decide, by decide⟩,
    ⟨1, 3, 1, [0, 0, 0, 0, 0, 0, 0, 0], [], 0, by decide, by decide, by decide⟩]

theorem fcgi_fragments_iff_beginAndEnd :
    (∃ f f', feedFcgi (fun _ => []) 4 .fcgis .read Fed.start [fcgiStream beginAndEnd] = .ok f ∧
      feedFcgi (fun _ => []) 4 .fcgis .read Fed.start
        [(fcgiStream beginAndEnd).take 9, (fcgiStream beginAndEnd).drop 9] = .ok f' ∧
      messages f.log = messages f'.log ∧ f.state = f'.state ∧ SkipsExactly beginAndEnd f ∧
      SkipsExactly beginAndEnd f') ↔
    BodiesLoggable false beginAndEnd ∧ WholeBodies beginAndEnd [fcgiStream beginAndEnd] ∧
      WholeBodies beginAndEnd
        [(fcgiStream beginAndEnd).take 9, (fcgiStream beginAndEnd).drop 9] :=
  fcgi_fragments_iff (fun _ => []) (fun _ => []) 4 .fcgis .read beginAndEnd _ _ (by simp) (by simp)

/-- In one piece the request's end is reported, and not when the first body comes in two. -/
theorem split_body_loses_end :
    ∃ f f', feedFcgi (fun _ => []) 4 .fcgis .read Fed.start [fcgiStream beginAndEnd] = .ok f ∧
      feedFcgi (fun _ => []) 4 .fcgis .read Fed.start
        [(fcgiStream beginAndEnd).take 9, (fcgiStream beginAndEnd).drop 9] = .ok f' ∧
      messages f.log ≠ messages f'.log :=
  ⟨_, _, rfl, rfl, by decide⟩

end BorderPatrol.Trace
