import BorderPatrol.Trace.HttpsReads
import BorderPatrol.Trace.Parsing

/-!
# The calls that writes make

`vwrite_req` calls the processor on what is in its buffer until the processor asks for more. Here
are the calls a run of writes makes (`runCalls`), each with what the processor was called on and
what it gave, and the rule for what holds over such a run (`writeRun_rule`): a statement about the
bytes written so far, the number of them consumed, the data of the processor and the calls made,
that every call keeps. A processor that consumes more than it is given ends the run with a fault
(`vwriteLoop_beyond`).
-/

namespace BorderPatrol.Trace

open Foundations

variable {σ : Type}

/-- A call of `pp_write`: what the processor is called on and what it gives. -/
structure PpCall (σ : Type) where
  before : Presentation σ
  result : Except Fault (ℤ × σ × List LogCall)

/-- What the call returns. -/
def PpCall.ret (c : PpCall σ) : ℤ :=
  match c.result with
  | .ok r => r.1
  | .error _ => 0

/-- What the call logs. -/
def PpCall.log (c : PpCall σ) : List LogCall :=
  match c.result with
  | .ok r => r.2.2
  | .error _ => []

/-- The number of bytes the calls consume. -/
def consumed (cs : List (PpCall σ)) : ℕ := (cs.map fun c => c.ret.toNat).sum

/-- What the calls log. -/
def callLogs (cs : List (PpCall σ)) : List LogCall := cs.flatMap PpCall.log

@[simp] theorem consumed_nil : consumed ([] : List (PpCall σ)) = 0 := rfl

@[simp] theorem consumed_append (cs₁ cs₂ : List (PpCall σ)) :
    consumed (cs₁ ++ cs₂) = consumed cs₁ + consumed cs₂ := by
  simp [consumed]

@[simp] theorem consumed_singleton (c : PpCall σ) : consumed [c] = c.ret.toNat := by
  simp [consumed]

@[simp] theorem callLogs_nil : callLogs ([] : List (PpCall σ)) = [] := rfl

@[simp] theorem callLogs_append (cs₁ cs₂ : List (PpCall σ)) :
    callLogs (cs₁ ++ cs₂) = callLogs cs₁ ++ callLogs cs₂ := by
  simp [callLogs]

@[simp] theorem callLogs_singleton (c : PpCall σ) : callLogs [c] = c.log := by
  simp [callLogs]

/-- The call the loop of `vwrite_req` makes. -/
def Vfd.writeCall (v : Vfd σ) (P : PpDispatcher σ) (s : ℤ) : PpCall σ :=
  ⟨⟨v.ppData, v.wwindow v.wbufofs, v.wbuflen - v.wbufofs⟩,
    P.ppWrite v.ppData s (v.wwindow v.wbufofs) (v.wbuflen - v.wbufofs)⟩

/-- The calls of the loop of `vwrite_req`, one that fails included. -/
def loopCalls : ℕ → Vfd σ → ℤ → List (PpCall σ)
  | 0, _, _ => []
  | n + 1, v, s =>
    if v.wbuflen - v.wbufofs = 0 then []
    else
      match v.ppDispatcher with
      | none => []
      | some p =>
        v.writeCall p s :: match (v.writeCall p s).result with
          | .error _ => []
          | .ok (req, d, _) =>
            if 0 < req then loopCalls n { v with ppData := d, wbufofs := v.wbufofs + req } s else []

/-- The calls of `vwrite_req`. -/
def reqCalls (v : Vfd σ) (s : ℤ) (buf : List Byte) : List (PpCall σ) :=
  if v.ppDispatcher.isNone ∨ buf = [] then []
  else
    loopCalls ((v.wbuflen + buf.length).toNat + 1) { v with
      wbuf := v.wbuf.store v.wbuflen.toNat buf
      wbuflen := v.wbuflen + buf.length } s

/-- The calls of a run of writes. -/
def runCalls (s : ℤ) : Vfd σ → List (List Byte) → List (PpCall σ)
  | _, [] => []
  | v, c :: cs => reqCalls v s c ++ match vwriteReq v s c c.length with
    | .error _ => []
    | .ok q => runCalls s q.1 cs

/-! ## One write -/

/-- The buffer holds the bytes written and not consumed. -/
structure Held (P : PpDispatcher σ) (v : Vfd σ) (seen : List Byte) (taken : ℕ) : Prop where
  disp : v.ppDispatcher = some P
  le : taken ≤ seen.length
  len : v.wbuflen - v.wbufofs = ((seen.length - taken : ℕ) : ℤ)
  ofs : 0 ≤ v.wbufofs
  fits : v.wbuflen ≤ vbufsize
  bytes : v.wbuf.slice v.wbufofs.toNat (seen.length - taken) = seen.drop taken

/-- What is said over a run of writes: about the bytes written, the number of them consumed, the
data of the processor and the calls made. -/
abbrev Writing (σ : Type) := List Byte → ℕ → σ → List (PpCall σ) → Prop

/-- The calls of a processor keep `J` while there is more to do and end in `R`, as long as what is
written is the beginning of the stream `b`. The calls are assumed to meet `K`, and a fault is one of
`E`. -/
structure Writes (P : PpDispatcher σ) (s : ℤ) (b : List Byte) (J R : Writing σ)
    (K : PpCall σ → Prop) (E : Fault → Prop) : Prop where
  arrive : ∀ {seen taken d h} (c : List Byte), seen ++ c <+: b → R seen taken d h →
    J (seen ++ c) taken d h
  rest : ∀ {seen d h}, J seen seen.length d h → R seen seen.length d h
  call : ∀ {seen taken d h m} {n : ℕ}, J seen taken d h → 0 < n → n = seen.length - taken →
    m.take n = seen.drop taken → K ⟨⟨d, m, n⟩, P.ppWrite d s m n⟩ →
    Post (P.ppWrite d s m n) (fun r =>
      r.1 ≤ 0 ∧ R seen taken r.2.1 (h ++ [⟨⟨d, m, n⟩, .ok r⟩]) ∨
      0 < r.1 ∧ r.1 ≤ n ∧ J seen (taken + r.1.toNat) r.2.1 (h ++ [⟨⟨d, m, n⟩, .ok r⟩]) ∨
      n < r.1 ∧ ∀ e, E e) E

variable {P : PpDispatcher σ} {s : ℤ} {b : List Byte} {J R : Writing σ} {K : PpCall σ → Prop}
  {E : Fault → Prop}

theorem vwriteLoop_error {v : Vfd σ} (n : ℕ) {e : Fault} (hd : v.ppDispatcher = some P)
    (hv₀ : v.wbuflen - v.wbufofs ≠ 0)
    (hw : P.ppWrite v.ppData s (v.wwindow v.wbufofs) (v.wbuflen - v.wbufofs) = .error e) :
    vwriteLoop (n + 1) v s = .error e := by
  simp only [vwriteLoop, hv₀, if_false, hd, hw, Bind.bind, Except.bind]

/-- Beyond the end of the buffer there is no way back. -/
theorem vwriteLoop_beyond {n : ℕ} {v : Vfd σ} (hd : v.ppDispatcher = some P)
    (hv : v.wbuflen < v.wbufofs) :
    Post (vwriteLoop n v s) (fun q => q.1.wbuflen < q.1.wbufofs) AnyFault := by
  induction n generalizing v with
  | zero => trivial
  | succ n ih =>
    have h₀ : v.wbuflen - v.wbufofs ≠ 0 := by omega
    rcases hres : P.ppWrite v.ppData s (v.wwindow v.wbufofs) (v.wbuflen - v.wbufofs)
      with e | ⟨req, d, l⟩
    · rw [vwriteLoop_error n hd h₀ hres]
      trivial
    · rw [vwriteLoop_of n hd rfl h₀ hres]
      split
      · have hbeyond := ih (v := { v with ppData := d, wbufofs := v.wbufofs + req }) hd
          (by simp only; omega)
        exact hbeyond.bind fun q hq => hq
      · exact hv

theorem loopCalls_succ {v : Vfd σ} (n : ℕ) (hd : v.ppDispatcher = some P)
    (h₀ : v.wbuflen - v.wbufofs ≠ 0) : loopCalls (n + 1) v s =
      v.writeCall P s :: match (v.writeCall P s).result with
        | .error _ => []
        | .ok r => if 0 < r.1 then
            loopCalls n { v with ppData := r.2.1, wbufofs := v.wbufofs + r.1 } s else [] := by
  rw [loopCalls, if_neg h₀, hd]
  dsimp only
  rcases (v.writeCall P s).result with e | ⟨req, d, l⟩ <;> rfl

/-- The loop of `vwrite_req`. -/
theorem vwriteLoop_rule (hW : Writes P s b J R K E) {n : ℕ} {v : Vfd σ} {seen : List Byte}
    {taken : ℕ} {h : List (PpCall σ)} (hv : Held P v seen taken) (hJ : J seen taken v.ppData h)
    (hn : seen.length - taken < n) (hK : ∀ c ∈ loopCalls n v s, K c) :
    Post (vwriteLoop n v s) (fun q =>
      (∃ taken', Held P q.1 seen taken' ∧ q.1.wbuf = v.wbuf ∧ q.1.wbuflen = v.wbuflen ∧
        R seen taken' q.1.ppData (h ++ loopCalls n v s) ∧
        logs q.2 = callLogs (loopCalls n v s)) ∨
      q.1.wbuflen < q.1.wbufofs ∧ ∀ e, E e) E := by
  induction n generalizing v taken h with
  | zero => omega
  | succ n ih =>
    have hlen := hv.len
    have hle := hv.le
    have hofs := hv.ofs
    by_cases h₀ : v.wbuflen - v.wbufofs = 0
    · -- everything is consumed
      obtain rfl : taken = seen.length := by omega
      have hloop : vwriteLoop (n + 1) v s = .ok (v, []) := by
        simp only [vwriteLoop, h₀, if_true]
        rfl
      have hcalls : loopCalls (n + 1) v s = [] := by rw [loopCalls, if_pos h₀]
      rw [hloop, hcalls]
      left
      refine ⟨seen.length, hv, rfl, rfl, ?_, rfl⟩
      rw [List.append_nil]
      exact hW.rest hJ
    have hwin : (v.wwindow v.wbufofs).take (seen.length - taken) = seen.drop taken := by
      have hl : (seen.drop taken).length = seen.length - taken := List.length_drop
      have hb := hv.bytes
      rw [← hl] at hb ⊢
      exact take_wwindow (by rw [hl]; exact hlen) hofs hv.fits hb
    rw [loopCalls_succ n hv.disp h₀] at hK ⊢
    have hcall := hW.call (n := seen.length - taken) hJ (by omega) rfl hwin
      (by rw [← hlen]; exact hK _ List.mem_cons_self)
    rw [← hlen] at hcall
    rcases hres : P.ppWrite v.ppData s (v.wwindow v.wbufofs) (v.wbuflen - v.wbufofs)
      with e | ⟨req, d, l⟩
    · rw [hres] at hcall
      rw [vwriteLoop_error n hv.disp h₀ hres]
      exact hcall
    rw [hres] at hcall
    rw [vwriteLoop_of n hv.disp rfl h₀ hres]
    have hc : v.writeCall P s = ⟨⟨v.ppData, v.wwindow v.wbufofs, v.wbuflen - v.wbufofs⟩,
        .ok (req, d, l)⟩ := by
      rw [Vfd.writeCall, hres]
    have hlog : logs (l.map Event.log ++ [.ppWrite (v.wbuflen - v.wbufofs) req]) =
        callLogs [v.writeCall P s] := by
      rw [hc]
      simp [logs, PpCall.log]
    rw [hc] at hlog hK ⊢
    simp only at hK ⊢
    rcases hcall with ⟨hreq, hR⟩ | ⟨hreq, hfit, hJ'⟩ | ⟨hover, hE⟩
    · -- more is asked for
      simp only at hreq
      rw [if_neg (by omega), if_neg (by omega)]
      left
      exact ⟨taken, ⟨hv.disp, hle, hlen, hofs, hv.fits, hv.bytes⟩, rfl, rfl, hR, hlog⟩
    · simp only at hreq hJ' hfit
      rw [if_pos hreq] at hK ⊢
      rw [if_pos hreq]
      set v₁ : Vfd σ := { v with ppData := d, wbufofs := v.wbufofs + req } with hv₁
      have hofs₁ : v₁.wbufofs = v.wbufofs + req := rfl
      have hlen₁ : v₁.wbuflen = v.wbuflen := rfl
      have hheld : Held P v₁ seen (taken + req.toNat) := by
        refine ⟨hv.disp, by omega, by omega, by omega, hv.fits, ?_⟩
        have hb := congrArg (List.drop req.toNat) hv.bytes
        rw [Mem.drop_slice _ _ (by omega), List.drop_drop] at hb
        rw [hofs₁, show (v.wbufofs + req).toNat = v.wbufofs.toNat + req.toNat by omega,
          show seen.length - (taken + req.toNat) = seen.length - taken - req.toNat by omega]
        exact hb
      refine (ih hheld hJ' (by omega) fun c hc => hK c (List.mem_cons_of_mem _ hc)).bind ?_
      rintro ⟨v', tr⟩ (⟨taken', hheld', hbuf, hwl, hR, hlogs⟩ | hbeyond)
      · left
        refine ⟨taken', hheld', hbuf, hwl, ?_, ?_⟩
        · rw [← List.append_cons] at hR
          exact hR
        · simp only at hlogs ⊢
          rw [logs_append, hlog, hlogs, ← callLogs_append, List.singleton_append]
      · exact Or.inr hbeyond
    · -- more was consumed than given
      simp only at hover
      rw [if_pos (by omega)]
      have hbeyond := vwriteLoop_beyond (s := s) (n := n)
        (v := { v with ppData := d, wbufofs := v.wbufofs + req }) hv.disp (by simp only; omega)
      exact (hbeyond.mono_error fun e _ => hE e).bind fun q hq => Or.inr ⟨hq, hE⟩

/-- A write. -/
theorem vwriteReq_rule (hW : Writes P s b J R K E) {v : Vfd σ} {seen c : List Byte} {taken : ℕ}
    {h : List (PpCall σ)} (hv : Held P v seen taken) (h₀ : v.wbufofs = 0)
    (hR : R seen taken v.ppData h) (hpre : seen ++ c <+: b) (hfit : v.wbuflen + c.length ≤ vbufsize)
    (hK : ∀ call ∈ reqCalls v s c, K call) :
    Post (vwriteReq v s c c.length) (fun q => ∃ taken', Held P q.1 (seen ++ c) taken' ∧
      q.1.wbufofs = 0 ∧ R (seen ++ c) taken' q.1.ppData (h ++ reqCalls v s c) ∧
      logs q.2 = callLogs (reqCalls v s c)) E := by
  have hlen := hv.len
  have hle := hv.le
  have hd := hv.disp
  by_cases hc : c = []
  · subst hc
    have hreq : vwriteReq v s [] ([] : List Byte).length = .ok (v, []) := by
      simp [vwriteReq]
      rfl
    have hcalls : reqCalls v s [] = [] := by simp [reqCalls]
    rw [hreq, hcalls]
    refine ⟨taken, ?_, h₀, ?_, rfl⟩
    · rw [List.append_nil]
      exact hv
    · rw [List.append_nil, List.append_nil]
      exact hR
  have hpos : 0 < c.length := List.length_pos_of_ne_nil hc
  have hcalls : reqCalls v s c = loopCalls ((v.wbuflen + c.length).toNat + 1) { v with
      wbuf := v.wbuf.store v.wbuflen.toNat c
      wbuflen := v.wbuflen + c.length } s := by
    rw [reqCalls, if_neg (by simp [hd, hc])]
  rw [hcalls] at hK ⊢
  set v₁ : Vfd σ := { v with
    wbuf := v.wbuf.store v.wbuflen.toNat c
    wbuflen := v.wbuflen + c.length } with hv₁
  have hofs₁ : v₁.wbufofs = 0 := h₀
  have hlen₁ : v₁.wbuflen = v.wbuflen + c.length := rfl
  have hheld : Held P v₁ (seen ++ c) taken := by
    refine ⟨hd, by rw [List.length_append]; omega, ?_, by omega, hfit, ?_⟩
    · rw [List.length_append]
      omega
    · have hb := hv.bytes
      have hst := Mem.slice_store_append v.wbuf c (Nat.zero_le v.wbuflen.toNat)
      rw [h₀, Int.toNat_zero, show seen.length - taken = v.wbuflen.toNat by omega] at hb
      rw [Nat.sub_zero, hb] at hst
      rw [hofs₁, List.length_append, List.drop_append_of_le_length hle, ← hst, Int.toNat_zero,
        show seen.length + c.length - taken = v.wbuflen.toNat + c.length by omega]
  have hJ : J (seen ++ c) taken v₁.ppData h := hW.arrive c hpre hR
  have hloop := vwriteLoop_rule hW (n := (v.wbuflen + c.length).toNat + 1) hheld hJ
    (by rw [List.length_append]; omega) hK
  rw [vwriteReq, if_neg (by simp [hd]; omega), inBounds_of ⟨Int.le_refl _, by omega, hfit⟩]
  simp only [Int.toNat_natCast, List.take_length, ok_bind]
  refine hloop.bind ?_
  rintro ⟨v', tr⟩ (⟨taken', hheld', -, -, hR', hlogs⟩ | ⟨hbeyond, hE⟩)
  · have hlen' := hheld'.len
    have hofs' := hheld'.ofs
    have hfits' := hheld'.fits
    simp only at hlen' hofs' hfits' hlogs hR' ⊢
    rw [inBounds_of ⟨by omega, by omega, by omega⟩, ok_bind]
    refine ⟨taken', ⟨hheld'.disp, hheld'.le, ?_, Int.le_refl _, ?_, ?_⟩, rfl, hR', hlogs⟩
    · simp only
      omega
    · simp only
      omega
    · have hb := hheld'.bytes
      have hm := Mem.slice_move v'.wbuf 0 v'.wbufofs.toNat (i := 0)
        (Nat.le_refl (0 + ((seen ++ c).length - taken')))
      simp only [Nat.zero_add, Nat.add_zero] at hm
      simp only [Int.toNat_zero] at hb ⊢
      rw [show (v'.wbuflen - v'.wbufofs).toNat = (seen ++ c).length - taken' by omega, hm, hb]
  · simp only at hbeyond ⊢
    rw [inBounds, if_neg (by omega)]
    exact hE _

/-- **Writes keep what each call keeps.** -/
theorem writeRun_rule (hW : Writes P s b J R K E) {v : Vfd σ} {seen : List Byte} {taken : ℕ}
    {h : List (PpCall σ)} (hv : Held P v seen taken) (h₀ : v.wbufofs = 0)
    (hR : R seen taken v.ppData h) {cs : List (List Byte)} (hpre : seen ++ cs.flatten <+: b)
    (hfit : WriteFits s v cs)
    (hK : ∀ c ∈ runCalls s v cs, K c) :
    Post (writeRun s v cs) (fun q => ∃ taken', Held P q.1 (seen ++ cs.flatten) taken' ∧
      R (seen ++ cs.flatten) taken' q.1.ppData (h ++ runCalls s v cs) ∧
      logs q.2 = callLogs (runCalls s v cs)) E := by
  induction cs generalizing v seen taken h with
  | nil =>
    refine ⟨taken, ?_, ?_, rfl⟩
    · simpa using hv
    · simpa [runCalls] using hR
  | cons c cs ih =>
    rw [List.flatten_cons, ← List.append_assoc] at hpre
    have hreq := vwriteReq_rule hW hv h₀ hR ((List.prefix_append ..).trans hpre) hfit.1
      fun call hc => hK call (List.mem_append_left _ hc)
    rcases hres : vwriteReq v s c c.length with e | ⟨v₁, tr⟩
    · rw [hres] at hreq
      rw [writeRun, hres]
      exact hreq
    rw [hres] at hreq
    obtain ⟨taken₁, hv₁, hz₁, hR₁, hlogs₁⟩ := hreq
    have hcalls : runCalls s v (c :: cs) = reqCalls v s c ++ runCalls s v₁ cs := by
      rw [runCalls, hres]
    rw [hcalls] at hK ⊢
    rw [writeRun, hres, ok_bind]
    refine (ih hv₁ hz₁ hR₁ hpre (hfit.2 v₁ tr hres)
      fun call hc => hK call (List.mem_append_right _ hc)).bind ?_
    rintro ⟨v₂, tr₂⟩ ⟨taken₂, hv₂, hR₂, hlogs₂⟩
    rw [List.append_assoc] at hv₂ hR₂
    rw [List.append_assoc] at hR₂
    refine ⟨taken₂, hv₂, hR₂, ?_⟩
    simp only at hlogs₁ hlogs₂
    simp only [logs_append, callLogs_append, hlogs₁, hlogs₂]

/-- A descriptor just opened. -/
theorem held_opened (v : Vfd σ) (P : PpDispatcher σ) (d : σ) : Held P (v.opened P d) [] 0 := by
  constructor <;> simp [Vfd.opened, vfdTabInitOne]

end BorderPatrol.Trace
