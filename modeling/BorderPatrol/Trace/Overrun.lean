import BorderPatrol.Trace.Capacity
import BorderPatrol.Trace.HttpsWrites
import BorderPatrol.Trace.Sending
import BorderPatrol.Trace.WritePath

/-!
# Room in the write buffer

`vwrite_req` copies what an application has written behind what the processor has left in the
buffer, and asks neither how long the one is nor the other. Whatever the processor is, the buffer
holds the bytes that were passed in and not consumed (`reqRun_heldBy`), so that a copy stays inside
it exactly when these and the new ones are `VBUFSIZE` at most (`copies_inside_iff`). What is not
consumed depends on the processor: nothing for some, an incomplete message for others, and for
`pp_https_write` everything behind the last head of a response it has found. For the first two it is
a function of the bytes (`Installed.rest`), and the condition one on the bytes alone (`RestFits`).
-/

namespace BorderPatrol.Trace

open Foundations Foundations.Resumable

variable {σ : Type}

/-! ## Calls that send -/

/-- A call that sends, with what the kernel returns: an error, or the number of the bytes it took.
-/
inductive SendCall
  | write (buf : List Byte) (r : ℤ) (sent : -1 ≤ r ∧ r ≤ buf.length)
  | writev (vec : List (List Byte)) (r : ℤ) (sent : -1 ≤ r ∧ r ≤ vec.flatten.length)
  | send (buf : List Byte) (flags r : ℤ) (sent : -1 ≤ r ∧ r ≤ buf.length)
  | sendto (buf : List Byte) (flags r : ℤ) (sent : -1 ≤ r ∧ r ≤ buf.length)

namespace SendCall

/-- The call among those of a process. -/
def io : SendCall → IoCall
  | write buf r _ => .write buf r
  | writev vec r _ => .writev vec r
  | send buf flags r _ => .send buf flags r
  | sendto buf flags r _ => .sendto buf flags r

theorem toInt_sent_le {n : ℕ} {r : ℤ} (sent : -1 ≤ r ∧ r ≤ n) : toInt r ≤ n := by
  rw [toInt, Int.bmod_def]
  split <;> omega

/-- The call of `vwrite_req` for what the kernel took of one buffer. -/
def req (buf : List Byte) (r : ℤ) (sent : -1 ≤ r ∧ r ≤ buf.length) : WriteCall where
  buf := buf
  len := toInt r
  le := toInt_sent_le sent

/-- The calls of `vwrite_req` that `writev` makes when `todo` bytes are left to be shown. -/
def vecReqs : List (List Byte) → ℤ → List WriteCall
  | [], _ => []
  | buf :: vec, todo =>
    let c : WriteCall := {
      buf := buf
      len := if todo < buf.length then todo else buf.length
      le := by split <;> omega }
    c :: if todo - c.len = 0 then [] else vecReqs vec (todo - c.len)

/-- The calls of `vwrite_req` that a call makes. -/
def reqs : SendCall → List WriteCall
  | write buf r sent => [req buf r sent]
  | writev vec r _ => if 0 < toInt r then vecReqs vec (toInt r) else []
  | send buf _ r sent => [req buf r sent]
  | sendto buf _ r sent => [req buf r sent]

end SendCall

/-- The process after a call on descriptor `s`. -/
def sendStep (s : ℤ) (p : Process σ) (c : SendCall) : Except Fault (Process σ) :=
  c.io.run p s >>= fun q => .ok q.proc

/-- The descriptor after a call of `vwrite_req`. -/
def reqStep (s : ℤ) (v : Vfd σ) (c : WriteCall) : Except Fault (Vfd σ) :=
  vwriteReq v s c.buf c.len >>= fun q => .ok q.1

/-- Where there is something to copy, the copy stays inside the buffer. -/
def CopyInside (v : Vfd σ) (c : WriteCall) : Prop := 0 < c.len → v.wbuflen + c.len ≤ vbufsize

/-- Every call of `vwrite_req` that a call makes copies inside the buffer. -/
def CopiesInside (s : ℤ) (p : Process σ) (c : SendCall) : Prop :=
  Tried (reqStep s) (p.vfdTab s) c.reqs CopyInside

variable {s : ℤ} {v : Vfd σ}

theorem vwriteReq_plain (hd : v.ppDispatcher = none) (buf : List Byte) (len : ℤ) :
    vwriteReq v s buf len = .ok (v, []) := by
  rw [vwriteReq, if_pos (Or.inl (by rw [hd]; rfl))]
  rfl

/-- Without a processor nothing happens. -/
theorem runSteps_plain (hd : v.ppDispatcher = none) (cs : List WriteCall) :
    runSteps (reqStep s) v cs = .ok v := by
  induction cs with
  | nil => rfl
  | cons c cs ih => rw [runSteps, reqStep, vwriteReq_plain hd, ok_bind, ok_bind, ih]

/-- The loop of `writev`. -/
theorem writevReq_eq (vec : List (List Byte)) (todo : ℤ) :
    (writevReq s v vec todo).map Prod.fst =
      runSteps (reqStep s) v (SendCall.vecReqs vec todo) := by
  induction vec generalizing v todo with
  | nil => rfl
  | cons buf vec ih =>
    rw [writevReq, SendCall.vecReqs, runSteps, reqStep]
    dsimp only
    rcases vwriteReq v s buf (if todo < buf.length then todo else buf.length) with e | ⟨v₁, tr⟩
    · rfl
    · rw [ok_bind, ok_bind, ok_bind]
      dsimp only
      generalize todo - (if todo < buf.length then todo else (buf.length : ℤ)) = left
      by_cases hleft : left = 0
      · rw [if_pos hleft, if_pos hleft]
        rfl
      · rw [if_neg hleft, if_neg hleft, ← ih]
        rcases writevReq s v₁ vec left with e | q
        · rfl
        · rfl

theorem wrapSend_req {begin' : LogCall} {end' : ℤ → LogCall} (hs : ¬ (s < 0 ∨ maxFds ≤ s))
    (p : Process σ) (buf : List Byte) (r : ℤ) (sent : -1 ≤ r ∧ r ≤ buf.length) :
    (wrapSend begin' end' p s buf r >>= fun q => Except.ok q.proc).map (fun p => p.vfdTab s) =
      runSteps (reqStep s) (p.vfdTab s) [SendCall.req buf r sent] := by
  rw [wrapSend, if_neg hs, runSteps, reqStep, SendCall.req]
  rcases vwriteReq (p.vfdTab s) s buf (toInt r) with e | q
  · rfl
  · refine congrArg Except.ok ?_
    exact Function.update_self ..

/-- **A call that sends** is, on its descriptor, a run of calls of `vwrite_req`. -/
theorem sendStep_reqs (hs : ¬ (s < 0 ∨ maxFds ≤ s)) (p : Process σ) (c : SendCall) :
    (sendStep s p c).map (fun p => p.vfdTab s) = runSteps (reqStep s) (p.vfdTab s) c.reqs := by
  cases c with
  | write buf r sent =>
    rw [sendStep, SendCall.io, IoCall.run, Trace.write]
    exact wrapSend_req hs p buf r sent
  | send buf flags r sent =>
    rw [sendStep, SendCall.io, IoCall.run, Trace.send]
    exact wrapSend_req hs p buf r sent
  | sendto buf flags r sent =>
    rw [sendStep, SendCall.io, IoCall.run, Trace.sendto]
    exact wrapSend_req hs p buf r sent
  | writev vec r sent =>
    have hshown : (writevShown s (p.vfdTab s) vec (toInt r)).map Prod.fst =
        runSteps (reqStep s) (p.vfdTab s) (SendCall.writev vec r sent).reqs := by
      rw [writevShown, SendCall.reqs]
      by_cases hr : 0 < toInt r
      · rw [if_pos hr]
        rcases hd : (p.vfdTab s).ppDispatcher with _ | P
        · rw [if_neg (by simp), runSteps_plain hd]
          rfl
        · rw [if_pos ⟨hr, rfl⟩]
          exact writevReq_eq vec (toInt r)
      · rw [if_neg (fun h => hr h.1), if_neg hr]
        rfl
    rw [← hshown, sendStep, SendCall.io, IoCall.run, writev, if_neg hs]
    dsimp only
    rcases writevShown s (p.vfdTab s) vec (toInt r) with e | q
    · rfl
    · refine congrArg Except.ok ?_
      exact Function.update_self ..

/-! ## What the buffer holds -/

/-- A copy that goes through stays inside the buffer. -/
theorem fits_of_vwriteReq {P : PpDispatcher σ} (hd : v.ppDispatcher = some P) {c : WriteCall}
    {q : Vfd σ × List Event} (h : vwriteReq v s c.buf c.len = .ok q) : CopyInside v c := by
  intro hpos
  by_contra hover
  rw [vwriteReq, if_neg (by rw [hd, not_or]; exact ⟨by simp, by omega⟩), inBounds,
    if_neg fun hin => hover hin.2.2] at h
  cases h

/-- When the processor does not consume what it is called on, `Q` holds of the data it leaves and of
these bytes. -/
def Leaves (P : PpDispatcher σ) (s : ℤ) (Q : σ → List Byte → Prop) : Prop :=
  ∀ (d : σ) (m : List Byte) (n : ℕ) a d' l, 0 < n → n ≤ m.length → n ≤ vbufsize →
    P.ppWrite d s m n = .ok (a, d', l) → a ≤ 0 → Q d' (m.take n)

section Held

variable {P : PpDispatcher σ} {Q : σ → List Byte → Prop} {seen : List Byte} {h : List (PpCall σ)}

/-- The buffer holds what is passed in and not consumed by the calls `h`, and where this is
something, the processor has left it. -/
structure HeldBy (P : PpDispatcher σ) (Q : σ → List Byte → Prop) (v : Vfd σ) (seen : List Byte)
    (h : List (PpCall σ)) : Prop where
  held : Held P v seen (consumed h)
  start : v.wbufofs = 0
  left : seen.drop (consumed h) = [] ∨ Q v.ppData (seen.drop (consumed h))

/-- The calls made so far have consumed so many bytes. -/
def Spent : Writing σ := fun _ taken _ h => taken = consumed h

/-- What is left then is what the processor leaves. -/
def Left (Q : σ → List Byte → Prop) : Writing σ := fun seen taken d h =>
  taken = consumed h ∧ (seen.drop taken = [] ∨ Q d (seen.drop taken))

/-- Whatever the processor consumes is counted. -/
theorem Leaves.writes (hQ : Leaves P s Q) (b : List Byte) :
    Writes P s b Spent (Left Q) (fun c => c.before.len ≤ vbufsize) AnyFault where
  arrive := fun _ _ h => h.1
  rest := fun h => ⟨h, Or.inl (List.drop_length ..)⟩
  call := by
    rintro seen taken d h m n hspent hn hlen hm hfit
    rcases hres : P.ppWrite d s m n with e | ⟨a, d', l⟩
    · trivial
    have hml := congrArg List.length hm
    rw [List.length_take, List.length_drop] at hml
    rw [Post.ok_iff]
    simp only [Spent, Left, consumed_append, consumed_singleton, PpCall.ret]
    rcases lt_or_ge (n : ℤ) a with hover | hle
    · exact Or.inr (Or.inr ⟨hover, fun _ => trivial⟩)
    · rcases lt_or_ge 0 a with hpos | hneg
      · exact Or.inr (Or.inl ⟨hpos, hle, by rw [hspent]⟩)
      · refine Or.inl ⟨hneg, ?_, Or.inr ?_⟩
        · rw [Int.toNat_of_nonpos hneg, Nat.add_zero, hspent]
        · rw [← hm]
          exact hQ d m n a d' l hn (by omega) (by simp only at hfit; omega) hres hneg

/-- What has been passed in and not consumed. -/
theorem HeldBy.len (hv : HeldBy P Q v seen h) : v.wbuflen = seen.length - consumed h := by
  have hlen := hv.held.len
  have hle := hv.held.le
  have hofs := hv.start
  omega

/-- A call of the processor is for what the buffer holds. -/
theorem loopCalls_len (n : ℕ) (v : Vfd σ) :
    ∀ c ∈ loopCalls n v s, c.before.len ≤ v.wbuflen - v.wbufofs := by
  induction n generalizing v with
  | zero => simp [loopCalls]
  | succ n ih =>
    by_cases hz : v.wbuflen - v.wbufofs = 0
    · rw [loopCalls, if_pos hz]
      simp
    rcases hd : v.ppDispatcher with _ | P
    · rw [loopCalls, if_neg hz, hd]
      simp
    rw [loopCalls_succ n hd hz]
    refine List.forall_mem_cons.2 ⟨Int.le_refl _, ?_⟩
    rcases (v.writeCall P s).result with e | ⟨req, d, l⟩
    · simp
    · dsimp only
      split
      · intro c hc
        have hle := ih _ c hc
        dsimp only at hle
        omega
      · simp

theorem reqCalls_len (hofs : v.wbufofs = 0) {buf : List Byte}
    (hfit : v.wbuflen + buf.length ≤ vbufsize) :
    ∀ c ∈ reqCalls v s buf, c.before.len ≤ vbufsize := by
  intro c hc
  rw [reqCalls] at hc
  split at hc
  · cases hc
  · have hle := loopCalls_len _ _ c hc
    dsimp only at hle
    omega

theorem vwriteReq_heldBy (hQ : Leaves P s Q) (hv : HeldBy P Q v seen h) {c : WriteCall}
    {q : Vfd σ × List Event} (hreq : vwriteReq v s c.buf c.len = .ok q) :
    HeldBy P Q q.1 (seen ++ c.bytes) (h ++ reqCalls v s c.bytes) := by
  have hlen := c.length_bytes
  have hfits : v.wbuflen + c.bytes.length ≤ vbufsize := by
    have hin := fits_of_vwriteReq hv.held.disp hreq
    have hfits := hv.held.fits
    rw [CopyInside] at hin
    omega
  rw [vwriteReq_bytes] at hreq
  have hpost := vwriteReq_rule (hQ.writes (seen ++ c.bytes)) hv.held hv.start ⟨rfl, hv.left⟩
    (List.prefix_refl _) hfits (reqCalls_len hv.start hfits)
  obtain ⟨taken, hheld, hofs, ⟨rfl, hleft⟩, -⟩ := hpost.of_eq_ok hreq
  exact ⟨hheld, hofs, hleft⟩

/-- A run that goes through is a run of steps, and leaves in the buffer what is not consumed. -/
theorem reqRun_heldBy (hQ : Leaves P s Q) (hv : HeldBy P Q v seen h) {cs : List WriteCall}
    {v' : Vfd σ} {calls : List (PpCall σ)} (hrun : reqRun s v cs = .ok (v', calls)) :
    HeldBy P Q v' (seen ++ cs.flatMap WriteCall.bytes) (h ++ calls) := by
  induction cs generalizing v seen h calls with
  | nil =>
    cases hrun
    simpa using hv
  | cons c cs ih =>
    obtain ⟨⟨v₁, tr⟩, hreq, hrest⟩ := bind_eq_ok hrun
    obtain ⟨⟨v₂, calls'⟩, hrun', hret⟩ := bind_eq_ok hrest
    cases hret
    rw [List.flatMap_cons, ← List.append_assoc, ← List.append_assoc]
    exact ih (vwriteReq_heldBy hQ hv hreq) hrun'

theorem runSteps_reqRun (v : Vfd σ) (cs : List WriteCall) :
    (reqRun s v cs).map Prod.fst = runSteps (reqStep s) v cs := by
  induction cs generalizing v with
  | nil => rfl
  | cons c cs ih =>
    rw [reqRun, runSteps, reqStep]
    rcases vwriteReq v s c.buf c.len with e | ⟨v₁, tr⟩
    · rfl
    · rw [ok_bind, ok_bind, ok_bind, ← ih]
      dsimp only
      rcases reqRun s v₁ cs with e | q
      · rfl
      · rfl

end Held

/-- The number of bytes passed in and not consumed, after calls that go through. -/
def unread (s : ℤ) (v : Vfd σ) (cs : List WriteCall) : Except Fault ℤ :=
  reqRun s v cs >>= fun q => .ok ((cs.flatMap WriteCall.bytes).length - consumed q.2)

/-- At each call of `vwrite_req`, what the processor has not consumed of the bytes passed in before,
and the new ones, are `VBUFSIZE` at most. -/
def Roomy (s : ℤ) (v : Vfd σ) (cs : List WriteCall) : Prop :=
  ∀ pre c, pre ++ [c] <+: cs → ∀ n, unread s v pre = .ok n → 0 < c.len → n + c.len ≤ vbufsize

/-- A run of calls copies inside the buffer if and only if there is room each time. -/
theorem tried_copyInside_iff {P : PpDispatcher σ} {Q : σ → List Byte → Prop} (hQ : Leaves P s Q)
    (hv : HeldBy P Q v [] []) (cs : List WriteCall) :
    Tried (reqStep s) v cs CopyInside ↔ Roomy s v cs := by
  refine forall_congr' fun pre => forall_congr' fun c => imp_congr_right fun hpre => ?_
  rw [← runSteps_reqRun, unread]
  rcases hrun : reqRun s v pre with e | ⟨v', calls⟩
  · exact iff_of_true (fun _ h => by cases h) fun _ h => by cases h
  · have hlen := (reqRun_heldBy hQ hv hrun).len
    rw [List.nil_append, List.nil_append] at hlen
    constructor
    · rintro h n hn hpos
      cases hn
      rw [← hlen]
      exact h v' rfl hpos
    · rintro h v₁ hv₁ hpos
      cases hv₁
      rw [hlen]
      exact h _ rfl hpos

/-! ## What the processors leave -/

/-- A processor that runs a parser leaves what the parser wants more of. -/
theorem Parses.leaves {τ : Type} {P : PpDispatcher σ} {get : σ → τ} {step : Step τ Byte ℤ}
    {mk : ℤ → LogCall} (hs : Lawful step) (hP : Parses (fun d => P.ppWrite d s) get step mk) :
    Leaves P s fun d w => step (get d) w = none := by
  intro d m n a d' l hn hm hfit hcall ha
  obtain ⟨a', d'', l', hcall', hcase⟩ := hP d m n hn hm hfit
  cases hcall.symm.trans hcall'
  have hne : m.take n ≠ [] := by
    apply List.ne_nil_of_length_pos
    rw [List.length_take]
    omega
  rcases hcase with ⟨-, hnone, hget, -⟩ | ⟨k, ids, rfl, hsome, -⟩
  · rw [hget]
    exact hnone
  · have hk := hs.bounds hne hsome
    omega

/-- The processor consumes everything. -/
def TakesAll (P : PpDispatcher σ) (s : ℤ) : Prop :=
  ∀ (d : σ) (m : List Byte) (n : ℕ), ∃ d' l, P.ppWrite d s m n = .ok (n, d', l)

theorem takesAll_perlps (s : ℤ) : TakesAll ppPerlps s := fun _ _ _ => ⟨_, _, rfl⟩

theorem takesAll_httpc (s : ℤ) : TakesAll ppHttpc s := fun _ _ _ => ⟨_, _, rfl⟩

theorem takesAll_xc (s : ℤ) : TakesAll ppXc s := fun _ _ _ => ⟨_, _, rfl⟩

/-- Such a processor leaves nothing. -/
theorem TakesAll.leaves {P : PpDispatcher σ} (hP : TakesAll P s) (Q : σ → List Byte → Prop) :
    Leaves P s Q := by
  intro d m n a d' l hn _ _ hcall ha
  obtain ⟨d'', l', hall⟩ := hP d m n
  cases hall.symm.trans hcall
  omega

/-- The processor awaits a status. -/
def PpHttpStateWrite.AwaitsStatus (state : PpHttpStateWrite) : Prop :=
  state.done = 0 ∧ state.toread = 0 ∧ state.awaitStatus ≠ 0

/-- `pp_https_write` leaves bytes while it awaits a status. A body of negative length, of which it
takes nothing either, is at its end at once. -/
theorem ppHttps_leaves (heap : ℤ → List Byte) :
    Leaves (ppHttps heap ppHttpsWrite) s fun d _ => d.write.AwaitsStatus := by
  intro d m n a d' l hn _ _ hcall ha
  change ppHttpsWrite d s m n = _ at hcall
  by_cases hd : d.write.done = 0
  swap
  · rw [ppHttpsWrite_done hd] at hcall
    cases hcall
    omega
  by_cases ht : d.write.toread = 0
  swap
  · rw [ppHttpsWrite_body hd ht] at hcall
    cases hcall
    have hmin : min d.write.toread n = d.write.toread := by omega
    have hzero : toInt (d.write.toread - d.write.toread) = 0 := by
      rw [Int.sub_self]
      rfl
    rw [hmin]
    refine ⟨hd, hzero, ?_⟩
    simp only [PpHttpState.countDown, if_pos hzero]
    exact one_ne_zero
  by_cases hst : d.write.awaitStatus = 0
  · rw [ppHttpsWrite_silent hd ht hst] at hcall
    cases hcall
    omega
  rcases hstr : strstr headerEnd m with _ | stop
  · rw [ppHttpsWrite_none hd ht hst hstr] at hcall
    cases hcall
    exact ⟨hd, ht, hst⟩
  · rw [ppHttpsWrite_some hd ht hst hstr] at hcall
    obtain ⟨q, -, hret⟩ := bind_eq_ok hcall
    cases hret
    omega

/-! ## What depends on the bytes only -/

/-- At each call of `vwrite_req`, what is left of the bytes passed in before, and the new ones, are
`VBUFSIZE` at most. -/
def RestFits (rest : List Byte → List Byte) (cs : List WriteCall) : Prop :=
  ∀ pre c, pre ++ [c] <+: cs → 0 < c.len →
    ((rest (pre.flatMap WriteCall.bytes)).length : ℤ) + c.len ≤ vbufsize

/-- When calls for which there is room go through, and leave `rest` of the bytes passed in, a run
copies inside the buffer if and only if this fits each time. -/
theorem tried_copyInside_iff_of_rest {R : List Byte → Vfd σ → Prop} {rest : List Byte → List Byte}
    (h₀ : R [] v) (hlen : ∀ b v, R b v → v.wbuflen = (rest b).length)
    (hfits : ∀ b v, R b v → v.wbuflen ≤ vbufsize)
    (hreq : ∀ b v (c : List Byte), R b v → v.wbuflen + c.length ≤ vbufsize →
      ∃ v' tr, vwriteReq v s c c.length = .ok (v', tr) ∧ R (b ++ c) v') (cs : List WriteCall) :
    Tried (reqStep s) v cs CopyInside ↔ RestFits rest cs := by
  refine tried_iff_of_tracked (T := fun pre v => R (pre.flatMap WriteCall.bytes) v) h₀ ?_ ?_
  · intro pre v c hR
    rw [CopyInside, hlen _ v hR]
  · intro pre v c hR hcopy
    have hbytes := c.length_bytes
    have hle := hfits _ v hR
    rw [CopyInside] at hcopy
    obtain ⟨v', tr, hreq', hR'⟩ := hreq _ v c.bytes hR (by omega)
    refine ⟨v', by rw [reqStep, vwriteReq_bytes, hreq', ok_bind], ?_⟩
    rw [List.flatMap_append, List.flatMap_singleton]
    exact hR'

/-- A processor that runs a parser leaves the rest of the parser. -/
theorem Parses.copyInside_iff {τ : Type} {P : PpDispatcher σ} {get : σ → τ} {step : Step τ Byte ℤ}
    {mk : ℤ → LogCall} (hs : Lawful step) (hP : Parses (fun d => P.ppWrite d s) get step mk)
    (u : Vfd σ) (d : σ) (cs : List WriteCall) :
    Tried (reqStep s) (u.opened P d) cs CopyInside ↔
      RestFits (fun b => (drain step (get d) b).rest) cs := by
  refine tried_copyInside_iff_of_rest (R := fun b v => Unwritten P v (drain step (get d) b).rest ∧
    get v.ppData = (drain step (get d) b).state) ⟨unwritten_opened u P d, rfl⟩ ?_ ?_ ?_ cs
  · exact fun b v hR => hR.1.len
  · intro b v hR
    have hlen := hR.1.len
    have hfits := hR.1.fits
    omega
  · rintro b v c ⟨hheld, hstate⟩ hfit
    have hstop := drain_drain hs (get d) b
    rw [← hstate] at hstop
    obtain ⟨v', tr, hreq, hheld', hstate', -⟩ := vwriteReq_spec hs hP hheld hstop hfit
    refine ⟨v', tr, hreq, ?_⟩
    rw [drain_append hs (get d) b c, ← hstate]
    exact ⟨hheld', hstate'⟩

theorem TakesAll.writes {P : PpDispatcher σ} (hP : TakesAll P s) (b : List Byte) :
    Writes P s b (fun _ _ _ _ => True) (fun seen taken _ _ => taken = seen.length) (fun _ => True)
      fun _ => False where
  arrive := fun _ _ _ => trivial
  rest := fun _ => rfl
  call := by
    intro seen taken d h m n _ hn _ _ _
    obtain ⟨d', l, hcall⟩ := hP d m n
    rw [hcall]
    exact Or.inr (Or.inl ⟨by simp only; omega, Int.le_refl _, trivial⟩)

/-- A processor that consumes everything has all of the buffer for each call. -/
theorem TakesAll.copyInside_iff {P : PpDispatcher σ} (hP : TakesAll P s) (u : Vfd σ) (d : σ)
    (cs : List WriteCall) :
    Tried (reqStep s) (u.opened P d) cs CopyInside ↔ RestFits (fun _ => []) cs := by
  refine tried_copyInside_iff_of_rest (R := fun b v => Held P v b b.length ∧ v.wbufofs = 0)
    ⟨held_opened u P d, rfl⟩ ?_ ?_ ?_ cs
  · rintro b v ⟨hheld, hofs⟩
    have hlen := hheld.len
    rw [List.length_nil]
    omega
  · exact fun b v hR => hR.1.fits
  · rintro b v c ⟨hheld, hofs⟩ hfit
    have hpost := vwriteReq_rule (h := []) (hP.writes (b ++ c)) hheld hofs rfl List.prefix_rfl hfit
      fun _ _ => trivial
    rcases hreq : vwriteReq v s c c.length with e | ⟨v', tr⟩
    · rw [hreq] at hpost
      exact hpost.elim
    · rw [hreq] at hpost
      obtain ⟨taken, hheld', hofs', rfl, -⟩ := hpost
      exact ⟨v', tr, rfl, hheld', hofs'⟩

namespace Installed

/-- What is left of the bytes passed in after a processor was installed with the data `d`, where
this depends on nothing else: the rest of its parser, or nothing. For `fcgi` it depends on how the
bytes are cut into calls, and for `https` on what is in the buffer behind them. -/
def rest : (i : Installed) → i.Data → Option (List Byte → List Byte)
  | psqls, d => some fun b =>
    (drain (psqlUnits (psqlType .psqls .write)) (PpPsqlState.write d) b).rest
  | psqlc, d => some fun b =>
    (drain (psqlUnits (psqlType .psqlc .write)) (PpPsqlState.write d) b).rest
  | mysqls, d => some fun b => (drain mysqlUnits (PpMysqlState.write d) b).rest
  | mysqlc, d => some fun b => (drain mysqlUnits (PpMysqlState.write d) b).rest
  | perlps, _ | httpc, _ | xc, _ => some fun _ => []
  | https .., _ | fcgis _, _ | fcgic _, _ => none

theorem copyInside_iff (i : Installed) {s : ℤ} {u : Vfd i.Data} {d : i.Data}
    {f : List Byte → List Byte} (hf : i.rest d = some f) (cs : List WriteCall) :
    Tried (reqStep s) (u.opened i.pp d) cs CopyInside ↔ RestFits f cs := by
  cases i with
  | psqls =>
    cases hf
    exact Parses.copyInside_iff (psqlUnits_lawful _) (psqlWrite_parses (Or.inr rfl) s) u d cs
  | psqlc =>
    cases hf
    exact Parses.copyInside_iff (psqlUnits_lawful _) (psqlWrite_parses (Or.inl rfl) s) u d cs
  | mysqls =>
    cases hf
    exact Parses.copyInside_iff mysqlUnits_lawful (mysqlWrite_parses (Or.inr rfl) s) u d cs
  | mysqlc =>
    cases hf
    exact Parses.copyInside_iff mysqlUnits_lawful (mysqlWrite_parses (Or.inl rfl) s) u d cs
  | perlps =>
    cases hf
    exact (takesAll_perlps s).copyInside_iff u d cs
  | httpc =>
    cases hf
    exact (takesAll_httpc s).copyInside_iff u d cs
  | xc =>
    cases hf
    exact (takesAll_xc s).copyInside_iff u d cs
  | https heap write => cases hf
  | fcgis junk => cases hf
  | fcgic junk => cases hf

/-- What the processor leaves: it wants more of it, or all of it is in front of the next head. -/
def Waits : (i : Installed) → i.Data → List Byte → Prop
  | psqls, d, w => psqlUnits (psqlType .psqls .write) (PpPsqlState.write d) w = none
  | psqlc, d, w => psqlUnits (psqlType .psqlc .write) (PpPsqlState.write d) w = none
  | mysqls, d, w => mysqlUnits (PpMysqlState.write d) w = none
  | mysqlc, d, w => mysqlUnits (PpMysqlState.write d) w = none
  | fcgis _, _, w => w.length < fcgiHeaderLen
  | fcgic _, _, w => w.length < fcgiHeaderLen
  | https _ write, d, _ => write = ppHttpsWrite → (PpHttpState.write d).AwaitsStatus
  | perlps, _, _ => False
  | httpc, _, _ => False
  | xc, _, _ => False

theorem leaves (i : Installed) (s : ℤ) : Leaves i.pp s i.Waits := by
  have hfcgi : ∀ {junk : PpFcgiState → List Byte} {role : PpId} (d : PpFcgiStateWrap)
      (m : List Byte) (n : ℕ) a d' l, 0 < n → n ≤ m.length →
      fcgiWrite junk role d s m n = .ok (a, d', l) → a ≤ 0 → (m.take n).length < fcgiHeaderLen := by
    intro junk role d m n a d' l hn _ hcall ha
    obtain ⟨⟨a', state, l'⟩, hspeak, hret⟩ := bind_eq_ok hcall
    cases hret
    have htakes := ((speakFcgi_takes hn).of_eq_ok hspeak).2
    rw [List.length_take, fcgiHeaderLen]
    simp only at htakes
    omega
  cases i with
  | https heap write =>
    intro d m n a d' l hn hm hfit hcall ha hwrite
    subst hwrite
    exact ppHttps_leaves heap d m n a d' l hn hm hfit hcall ha
  | psqls => exact Parses.leaves (psqlUnits_lawful _) (psqlWrite_parses (Or.inr rfl) s)
  | psqlc => exact Parses.leaves (psqlUnits_lawful _) (psqlWrite_parses (Or.inl rfl) s)
  | mysqls => exact Parses.leaves mysqlUnits_lawful (mysqlWrite_parses (Or.inr rfl) s)
  | mysqlc => exact Parses.leaves mysqlUnits_lawful (mysqlWrite_parses (Or.inl rfl) s)
  | fcgis junk => exact fun d m n a d' l hn hm _ => hfcgi d m n a d' l hn hm
  | fcgic junk => exact fun d m n a d' l hn hm _ => hfcgi d m n a d' l hn hm
  | perlps => exact (takesAll_perlps s).leaves _
  | httpc => exact (takesAll_httpc s).leaves _
  | xc => exact (takesAll_xc s).leaves _

end Installed

theorem heldBy_opened (u : Vfd σ) (P : PpDispatcher σ) (Q : σ → List Byte → Prop) (d : σ) :
    HeldBy P Q (u.opened P d) [] [] where
  held := held_opened u P d
  start := rfl
  left := Or.inl rfl

/-- **The write buffer** of a descriptor with any processor. In a run of calls that send, with
whatever the kernel returns, every call of `vwrite_req` copies inside the buffer if and only if
there is room each time for what is passed in and what is not consumed; and what is not consumed is
what the processor leaves. Where this is a function of the bytes passed in, the condition is one on
these bytes. -/
theorem copies_inside_iff (i : Installed) {s : ℤ} (hs : 0 ≤ s ∧ s < maxFds) (p : Process i.Data)
    (u : Vfd i.Data) (x : i.Data) (hp : p.vfdTab s = u.accepted i.pp s x) (cs : List SendCall) :
    (Tried (sendStep s) p cs (CopiesInside s) ↔
      Roomy s (u.accepted i.pp s x) (cs.flatMap SendCall.reqs)) ∧
    (∀ pre, pre <+: cs.flatMap SendCall.reqs → ∀ v calls,
      reqRun s (u.accepted i.pp s x) pre = .ok (v, calls) →
        (pre.flatMap WriteCall.bytes).drop (consumed calls) = [] ∨
          i.Waits v.ppData ((pre.flatMap WriteCall.bytes).drop (consumed calls))) ∧
    ∀ rest, i.rest (i.pp.ppInit s x).1 = some rest →
      (Tried (sendStep s) p cs (CopiesInside s) ↔ RestFits rest (cs.flatMap SendCall.reqs)) := by
  have hheld : HeldBy i.pp i.Waits (u.accepted i.pp s x) [] [] := heldBy_opened ..
  have hreqs : Tried (sendStep s) p cs (CopiesInside s) ↔
      Tried (reqStep s) (u.accepted i.pp s x) (cs.flatMap SendCall.reqs) CopyInside := by
    rw [← hp]
    exact tried_flatMap (P := CopyInside) (sendStep_reqs (by omega)) p cs
  refine ⟨?_, ?_, ?_⟩
  · rw [hreqs, tried_copyInside_iff (i.leaves s) hheld]
  · intro pre _ v calls hrun
    exact (reqRun_heldBy (i.leaves s) hheld hrun).left
  · intro rest hrest
    rw [hreqs]
    exact i.copyInside_iff hrest _

/-- A process whose descriptor 5 is traced as `perlps`. -/
def traced : Process PpPerlpState :=
  (⟨fun _ => Vfd.zero ⟨0, 0⟩, FdSets.zero⟩ : Process PpPerlpState).setVfd 5
    ((Vfd.zero ⟨0, 0⟩).accepted ppPerlps 5 ⟨0, 0⟩)

theorem hello_sent : (-1 : ℤ) ≤ 5 ∧ (5 : ℤ) ≤ (ascii "hello").length := by decide

theorem lines_sent : (-1 : ℤ) ≤ 3 ∧ (3 : ℤ) ≤ [ascii "he", ascii "llo"].flatten.length := by decide

/-- It writes a line, and of another, in two parts, the kernel takes three bytes. -/
def lineWrites : List SendCall :=
  [.write (ascii "hello") 5 hello_sent, .writev [ascii "he", ascii "llo"] 3 lines_sent]

theorem copies_inside_iff_lineWrites :
    (Tried (sendStep 5) traced lineWrites (CopiesInside 5) ↔
      Roomy 5 ((Vfd.zero ⟨0, 0⟩).accepted ppPerlps 5 ⟨0, 0⟩) (lineWrites.flatMap SendCall.reqs)) ∧
    (∀ pre, pre <+: lineWrites.flatMap SendCall.reqs → ∀ v calls,
      reqRun 5 ((Vfd.zero ⟨0, 0⟩).accepted ppPerlps 5 ⟨0, 0⟩) pre = .ok (v, calls) →
        (pre.flatMap WriteCall.bytes).drop (consumed calls) = [] ∨
          Installed.Waits .perlps v.ppData
            ((pre.flatMap WriteCall.bytes).drop (consumed calls))) ∧
    ∀ rest, Installed.rest .perlps (ppPerlps.ppInit 5 ⟨0, 0⟩).1 = some rest →
      (Tried (sendStep 5) traced lineWrites (CopiesInside 5) ↔
        RestFits rest (lineWrites.flatMap SendCall.reqs)) :=
  copies_inside_iff .perlps (by decide) traced (Vfd.zero (⟨0, 0⟩ : PpPerlpState)) ⟨0, 0⟩
    (Function.update_self ..) lineWrites

theorem long_sent : (-1 : ℤ) ≤ 65537 ∧ (65537 : ℤ) ≤ (List.replicate 65537 (97 : Byte)).length := by
  rw [List.length_replicate]
  decide

/-- **A write of one byte more than the buffer has** overruns it. -/
theorem long_write_overruns :
    ¬ Tried (sendStep 5) traced [.write (List.replicate 65537 97) 65537 long_sent]
      (CopiesInside 5) := by
  intro h
  have hcopies := h [] _ List.prefix_rfl _ rfl
  have hfits := hcopies [] _ List.prefix_rfl _ rfl (show (0 : ℤ) < toInt 65537 by decide)
  have hlen : (traced.vfdTab 5).wbuflen = 0 := by
    rw [traced, Process.setVfd_vfdTab, if_pos rfl]
    rfl
  have hint : toInt 65537 = 65537 := by decide
  have hsize : vbufsize = 65536 := rfl
  rw [hlen] at hfits
  simp only [SendCall.req, hint, hsize] at hfits
  omega

end BorderPatrol.Trace
