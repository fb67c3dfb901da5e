import BorderPatrol.Foundations.Runs
import BorderPatrol.Trace.Protocol.Psql
import BorderPatrol.Trace.Select

/-!
# What select tells

Two properties of `speak_select` over the runs of a process.

*Wake-ups.* A descriptor whose buffer holds bytes for the application must be in `vsel_data.read`,
or the application waits in the kernel for bytes the kernel has already given. The bit is set when
a receive leaves bytes behind, and `speak_select` clears it when it tells the application, which may
select again before it reads. A run keeps the property exactly when no such answer is given
(`cached_iff`).

*Answers.* The answer from the cache is one that was asked for. The answer after a real select is
the first descriptor in the cache, asked for or not (`answers_iff`).
-/

namespace BorderPatrol.Trace

open Foundations

variable {σ : Type} {p p' : Process σ}

/-! ## The calls of a process -/

/-- A call an application makes, with what it meets in the kernel. -/
inductive SysCall (σ : Type)
  | read (s : ℤ) (len : ℕ) (k : Kernel)
  | recv (s : ℤ) (len : ℕ) (flags : ℤ) (k : Kernel)
  | recvfrom (s : ℤ) (len : ℕ) (flags : ℤ) (k : Kernel)
  | select (n : ℤ) (args : FdArgs) (timeout : Option Timeval) (env : SelectEnv σ)
  | poll (ufds : List Pollfd) (timeout : ℤ) (env : SelectEnv σ)
  | close (s ret : ℤ)

/-- The process after a call. -/
def Process.step (p : Process σ) : SysCall σ → Except Fault (Process σ)
  | .read s len k => Trace.read p s len k >>= fun r => .ok r.proc
  | .recv s len flags k => Trace.recv p s len flags k >>= fun r => .ok r.proc
  | .recvfrom s len flags k => Trace.recvfrom p s len flags k >>= fun r => .ok r.proc
  | .select n args timeout env => Trace.select p n args timeout env >>= fun q => .ok q.proc
  | .poll ufds timeout env => Trace.poll p ufds timeout env >>= fun q => .ok q.sel.proc
  | .close s ret => .ok (Trace.close p s ret).1

/-- What `real_select` answered in a call, if the call went as far as to ask it. -/
def Process.asked (p : Process σ) : SysCall σ → Option (ℤ × FdSets)
  | .select n args timeout env => (speakSelect p n args timeout env).toOption.bind (·.asked)
  | .poll ufds timeout env => (pollSelect p ufds timeout env).toOption.bind (·.asked)
  | _ => none

/-- The descriptors a call asks about, for each kind. -/
def SysCall.Asks : SysCall σ → VfdRwe → ℤ → Prop
  | .select n args _ _, k, s => 0 ≤ s ∧ s < n ∧ args.sets.get k s = true
  | .poll ufds _ _, .read, s => ∃ u ∈ ufds, u.fd = s ∧ u.events &&& pollin ≠ 0
  | .poll ufds _ _, .write, s => ∃ u ∈ ufds, u.fd = s ∧ u.events &&& pollout ≠ 0
  | _, _, _ => False

/-- The peers a call meets. -/
def SysCall.peer? : SysCall σ → ℤ → Option (PpDispatcher σ)
  | .select _ _ _ env, s => (env.peer s).id
  | .poll _ _ env, s => (env.peer s).id
  | _, _ => none

/-! ## Select -/

/-- `speak_select` leaves the descriptors alone, except that the one found may be connected. -/
structure Connects (p : Process σ) (peer : ℤ → Option (PpDispatcher σ)) (rfd : ℤ)
    (p' : Process σ) : Prop where
  rlastlen : ∀ s, (p'.vfdTab s).rlastlen = (p.vfdTab s).rlastlen
  rbuflen : ∀ s, (p'.vfdTab s).rbuflen = (p.vfdTab s).rbuflen
  other : ∀ s, s ≠ rfd ∨ (p.vfdTab s).inProg = 0 ∨ rfd < 0 → p'.vfdTab s = p.vfdTab s
  found : (p.vfdTab rfd).inProg ≠ 0 → 0 ≤ rfd →
    (p'.vfdTab rfd).inProg = 0 ∧ (p'.vfdTab rfd).ppDispatcher = peer rfd

theorem selDone_spec (q : Selected σ) (env : SelectEnv σ) :
    Connects q.proc (fun s => (env.peer s).id) q.rfd (selDone q env).proc ∧
      (selDone q env).proc.vselData = q.proc.vselData ∧ (selDone q env).ret = q.ret ∧
      (selDone q env).rfd = q.rfd ∧ (selDone q env).sets = q.sets ∧
      (selDone q env).asked = q.asked := by
  unfold selDone
  split
  · next h =>
    refine ⟨⟨fun s => ?_, fun s => ?_, fun s hs => ?_, fun _ _ => ?_⟩, rfl, rfl, rfl, rfl, rfl⟩
    · simp only [Process.setVfd_vfdTab]
      split
      · next hs => rw [hs]; rfl
      · rfl
    · simp only [Process.setVfd_vfdTab]
      split
      · next hs => rw [hs]; rfl
      · rfl
    · simp only [Process.setVfd_vfdTab]
      rw [if_neg]
      rintro rfl
      rcases hs with hne | hz | hneg
      · exact hne rfl
      · exact h.2 hz
      · omega
    · simp only [Process.setVfd_vfdTab, if_true]
      exact ⟨rfl, rfl⟩
  · next h =>
    refine ⟨⟨fun _ => rfl, fun _ => rfl, fun _ _ => rfl, fun hi hr => ?_⟩, rfl, rfl, rfl, rfl, rfl⟩
    exact absurd ⟨by omega, hi⟩ h

/-- The hits of the first loop: what is asked for and in the cache. -/
def Process.cachedHit (p : Process σ) (args : FdArgs) (k : VfdRwe) (i : ℤ) : Bool :=
  args.sets.get k i && p.vselData.get k i

/-- **`speak_select`** answers from the cache, telling the first descriptor asked for and forgetting
its bit, when there is one; otherwise it asks the kernel and adds to the cache. -/
theorem speakSelect_cases {n : ℤ} {args : FdArgs} {timeout : Option Timeval} {env : SelectEnv σ}
    {q : Selected σ} (h : speakSelect p n args timeout env = .ok q) :
    (∃ fd k, FirstHit (p.cachedHit args) 0 fd k ∧ fd < n ∧
      q.sets = args.give (FdSets.only k fd) ∧ q.ret = 1 ∧ q.rfd = fd ∧ q.asked = none ∧
      q.proc.vselData = p.vselData.put k fd false ∧
      Connects p (fun s => (env.peer s).id) fd q.proc) ∨
    (∀ i, 0 ≤ i → i < n → ∀ k, p.cachedHit args k i = false) ∧
      q.asked = some (env.realSelect n args.sets timeout) ∧
      ((env.realSelect n args.sets timeout).1 ≤ 0 ∧ q.ret = (env.realSelect n args.sets timeout).1 ∧
          q.proc = p ∨
        0 < (env.realSelect n args.sets timeout).1 ∧ q.ret = 1 ∧
          q.proc.vselData = p.vselData.absorb n (env.realSelect n args.sets timeout).2 ∧
          Connects p (fun s => (env.peer s).id) q.rfd q.proc ∧
          ((∃ k, FirstHit q.proc.vselData.get 0 q.rfd k ∧ q.rfd < n ∧
              q.sets = args.give (FdSets.only k q.rfd)) ∨
            (∀ i, 0 ≤ i → i < n → ∀ k, q.proc.vselData.get k i = false) ∧ q.rfd = -1 ∧
              q.sets = args.give FdSets.zero)) := by
  unfold speakSelect at h
  simp only at h
  rcases hc : firstHit (fun k i => args.sets.get k i && p.vselData.get k i) n.toNat 0 with e | o
  · rw [hc] at h
    cases h
  rw [hc, ok_bind] at h
  rcases o with _ | ⟨fd, k⟩
  · -- nothing asked for is in the cache
    right
    have hnone := firstHit_none hc
    refine ⟨fun i h₀ hi k => hnone i h₀ (by omega) k, ?_⟩
    rcases hres : env.realSelect n args.sets timeout with ⟨r, res⟩
    simp only [hres] at h ⊢
    split at h
    · next hr =>
      cases h
      obtain ⟨-, -, h₃, -, -, h₆⟩ := selDone_spec ⟨p, r, -1, args.give res, some (r, res), []⟩ env
      exact ⟨h₆, Or.inl ⟨hr, h₃, by simp [selDone]⟩⟩
    · next hr =>
      have hpos : 0 < r := by omega
      rcases hl : firstHit (p.vselData.absorb n res).get n.toNat 0 with e | o
      · rw [hl] at h
        cases h
      rw [hl, ok_bind] at h
      rcases o with _ | ⟨fd, k⟩
      · cases h
        obtain ⟨h₁, h₂, h₃, h₄, h₅, h₆⟩ := selDone_spec
          ⟨{ p with vselData := p.vselData.absorb n res }, 1, -1, args.give FdSets.zero,
            some (r, res), if 1 < r then [logbin0 .ppIsoPoll r] else []⟩ env
        have hnl := firstHit_none hl
        refine ⟨h₆, Or.inr ⟨hpos, h₃, h₂, ?_, Or.inr ⟨fun i h₀ hi k => ?_, h₄, h₅⟩⟩⟩
        · rw [h₄]
          exact ⟨h₁.rlastlen, h₁.rbuflen, h₁.other, h₁.found⟩
        · rw [h₂]
          exact hnl i h₀ (by omega) k
      · cases h
        obtain ⟨h₁, h₂, h₃, h₄, h₅, h₆⟩ := selDone_spec
          ⟨{ p with vselData := p.vselData.absorb n res }, 1, fd, args.give (FdSets.only k fd),
            some (r, res), if 1 < r then [logbin0 .ppIsoPoll r] else []⟩ env
        obtain ⟨hf, hlt, -⟩ := firstHit_some hl
        have h₀ : 0 ≤ fd := hf.1
        have hn : fd < n := by omega
        refine ⟨h₆, Or.inr ⟨hpos, h₃, h₂, ?_, Or.inl ⟨k, ?_, ?_, ?_⟩⟩⟩
        · rw [h₄]
          exact ⟨h₁.rlastlen, h₁.rbuflen, h₁.other, h₁.found⟩
        · rw [h₂, h₄]
          exact hf
        · rw [h₄]
          exact hn
        · rw [h₄]
          exact h₅
  · left
    cases h
    obtain ⟨h₁, h₂, h₃, h₄, h₅, h₆⟩ := selDone_spec
      (⟨p.putVsel k fd false, 1, fd, args.give (FdSets.only k fd), none, []⟩ : Selected σ) env
    obtain ⟨hf, hlt, -⟩ := firstHit_some hc
    have h₀ := hf.1
    exact ⟨fd, k, hf, by omega, h₅, h₃, h₄, h₆, h₂,
      ⟨h₁.rlastlen, h₁.rbuflen, h₁.other, h₁.found⟩⟩

/-! ## Receiving -/

/-- What a receive does to a descriptor and its bit: the processor stays, and the bit, where it is
touched, says whether bytes are left; where it is not, as many are left as before. -/
structure Marks (v : Vfd σ) (g : Got σ) : Prop where
  disp : g.vfd.ppDispatcher = v.ppDispatcher
  inProg : g.vfd.inProg = v.inProg
  left : ∀ b, g.readable = some b → b = false → g.vfd.rlastlen = g.vfd.rbuflen
  kept : g.readable = none → g.vfd.rbuflen - g.vfd.rlastlen = v.rbuflen - v.rlastlen

/-- The descriptor has the same processor, connection state and number of bytes left. -/
def SameLeft (v v' : Vfd σ) : Prop :=
  v'.ppDispatcher = v.ppDispatcher ∧ v'.inProg = v.inProg ∧
    v'.rbuflen - v'.rlastlen = v.rbuflen - v.rlastlen

theorem SameLeft.refl (v : Vfd σ) : SameLeft v v := ⟨rfl, rfl, rfl⟩

theorem bufRet_marks (v : Vfd σ) (len : ℕ) :
    Post (bufRet v len) (fun g => ∃ b, g.readable = some b ∧ Marks v g) AnyFault := by
  unfold bufRet
  refine (cAssert_post fun _ => trivial).bind fun _ _ => ?_
  refine (cAssert_post fun _ => trivial).bind fun _ _ => ?_
  refine (inBounds_post fun _ => trivial).bind fun _ _ => ?_
  refine (cAssert_post fun _ => trivial).bind fun _ _ => ?_
  refine ⟨_, rfl, rfl, rfl, fun b hb hf => ?_, fun h => by cases h⟩
  simp only [Option.some.injEq] at hb
  rw [hf] at hb
  simpa using hb

theorem bufShift_sameLeft (v : Vfd σ) : Post (bufShift v) (SameLeft v) AnyFault := by
  unfold bufShift
  simp only
  split
  · exact SameLeft.refl v
  · refine (inBounds_post fun _ => trivial).bind fun _ _ => ⟨rfl, rfl, ?_⟩
    simp only
    omega

theorem fetch_marks (v : Vfd σ) (flags : ℤ) (k : Kernel) :
    Post (fetch v flags k) (fun r => r.1.ppDispatcher = v.ppDispatcher ∧ r.1.inProg = v.inProg ∧
      (r.2.1 ≤ 0 → SameLeft v r.1)) AnyFault := by
  unfold fetch
  refine (bufShift_sameLeft v).bind fun v₁ h₁ => ?_
  refine (inBounds_post fun _ => trivial).bind fun _ _ => ?_
  simp only
  split
  · exact ⟨h₁.1, h₁.2.1, fun _ => h₁⟩
  · next hr => exact ⟨h₁.1, h₁.2.1, fun h => absurd h hr⟩

theorem presentPp_sameLeft (v : Vfd σ) (s : ℤ) :
    Post (presentPp v s) (fun r => SameLeft v r.1) AnyFault := by
  unfold presentPp
  simp only
  split
  · exact SameLeft.refl v
  · split
    · trivial
    · next pp hpp =>
      refine (anyFault_post _).bind ?_
      rintro ⟨a, d, l⟩ -
      simp only [ppAnswered]
      split <;> exact ⟨rfl, rfl, rfl⟩

theorem refill_marks (checked : Bool) (v : Vfd σ) (s : ℤ) (len : ℕ) (flags : ℤ) (k : Kernel) :
    Post (refill checked v s len flags k) (Marks v) AnyFault := by
  unfold refill
  refine (cAssert_post fun _ => trivial).bind fun _ _ => ?_
  refine (fetch_marks v flags k).bind ?_
  rintro ⟨v₁, r, ev⟩ ⟨hd, hi, hsame⟩
  simp only at hd hi hsame ⊢
  split
  · next hr => exact ⟨hd, hi, (fun b h => by cases h), fun _ => (hsame hr).2.2⟩
  · refine (presentPp_sameLeft v₁ s).bind ?_
    rintro ⟨v₂, tr⟩ ⟨hd₂, hi₂, -⟩
    refine (cAssert_post fun _ => trivial).bind fun _ _ => ?_
    refine (bufRet_marks v₂ len).bind ?_
    rintro g ⟨b, hb, hg⟩
    exact ⟨hg.disp.trans (hd₂.trans hd), hg.inProg.trans (hi₂.trans hi), hg.left,
      fun h => by rw [hb] at h; cases h⟩

/-- **A receive** leaves the bit of its descriptor set, or no bytes behind, or both as they were. -/
theorem virtualGet_marks (checked : Bool) (v : Vfd σ) (s : ℤ) (len : ℕ) (flags : ℤ) (k : Kernel) :
    Post (virtualGet checked v s len flags k) (Marks v) AnyFault := by
  unfold virtualGet
  split
  · exact (bufRet_marks v len).mono fun g ⟨_, _, hg⟩ => hg
  · split
    · refine (presentPp_sameLeft v s).bind ?_
      rintro ⟨v₁, tr⟩ ⟨hd, hi, hl⟩
      simp only at hd hi hl ⊢
      split
      · refine (bufRet_marks v₁ len).bind ?_
        rintro g ⟨b, hb, hg⟩
        exact ⟨hg.disp.trans hd, hg.inProg.trans hi, hg.left, fun h => by rw [hb] at h; cases h⟩
      · refine (refill_marks checked v₁ s len flags k).bind ?_
        intro g hg
        exact ⟨hg.disp.trans hd, hg.inProg.trans hi, hg.left, fun h => (hg.kept h).trans hl⟩
    · exact refill_marks checked v s len flags k

/-! ## Wake-ups -/

/-- Bytes obtained from the kernel and not yet handed to the application. -/
def Vfd.Holds (v : Vfd σ) : Prop := v.rlastlen < v.rbuflen

instance (v : Vfd σ) : Decidable v.Holds := inferInstanceAs (Decidable (_ < _))

/-- A descriptor with a processor that holds bytes is in `vsel_data.read`. -/
def Cached (p : Process σ) : Prop :=
  ∀ s, (p.vfdTab s).ppDispatcher.isSome = true → (p.vfdTab s).Holds → p.vselData.read s = true

/-- A `select` or `poll` that asks for a descriptor with a processor that holds bytes does not get
to `real_select`. -/
def Answered (p : Process σ) : Prop :=
  ∀ (a : SysCall σ) s, a.Asks .read s → (p.vfdTab s).ppDispatcher.isSome = true →
    (p.vfdTab s).Holds → p.asked a = none

/-- A descriptor about to be connected holds nothing when it has no processor. -/
def Unfilled (p : Process σ) : Prop :=
  ∀ s, (p.vfdTab s).ppDispatcher = none → (p.vfdTab s).inProg ≠ 0 → ¬ (p.vfdTab s).Holds

/-- The descriptors as they are when they are opened: nothing was received yet. -/
def Vfd.Fresh (v : Vfd σ) : Prop :=
  v.rbuflen = 0 ∧ v.rbufofs = 0 ∧ v.rlastlen = 0 ∧ v.tosend = 0 ∧ v.ppwantmore = 0

/-- The call will be told that a descriptor is readable that holds bytes: it asks for the
descriptor, the descriptor is in the cache, and nothing below it that the call asks for is. (A
descriptor whose connection is in progress gets the processor of its peer in this call.) -/
def Forgets (p : Process σ) (a : SysCall σ) : Prop :=
  ∃ s, a.Asks .read s ∧ p.vselData.read s = true ∧ (p.vfdTab s).Holds ∧
    (if (p.vfdTab s).inProg = 0 then (p.vfdTab s).ppDispatcher.isSome
      else (a.peer? s).isSome) = true ∧
    ∀ i, i < s → ∀ k, a.Asks k i → p.vselData.get k i = false

theorem Marks.holds {v : Vfd σ} {g : Got σ} (h : Marks v g) (hr : g.readable = some false) :
    ¬ g.vfd.Holds := by
  have := h.left false hr rfl
  unfold Vfd.Holds
  omega

theorem Marks.holds_iff {v : Vfd σ} {g : Got σ} (h : Marks v g) (hr : g.readable = none) :
    g.vfd.Holds ↔ v.Holds := by
  have := h.kept hr
  unfold Vfd.Holds
  omega

/-- A wrapped receive keeps the cache. -/
theorem wrapReceive_keeps {virtualFn : Vfd σ → Except Fault (Got σ)} {begin' : LogCall}
    {end' : ℤ → LogCall} {s : ℤ} {len : ℕ} {flags : ℤ} {k : Kernel}
    (hfn : ∀ v, Post (virtualFn v) (Marks v) AnyFault) (hu : Unfilled p) (hc : Cached p) :
    Post (wrapReceive virtualFn begin' end' p s len flags k)
      (fun r => Unfilled r.proc ∧ Cached r.proc) AnyFault := by
  unfold wrapReceive
  split
  · exact ⟨hu, hc⟩
  · split
    · next hsome =>
      refine (hfn (p.vfdTab s)).bind fun g hg => ?_
      refine (cAssert_post fun _ => trivial).bind fun _ _ => ?_
      rw [Post.pure_iff]
      have hun : Unfilled (p.setVfd s g.vfd) := by
        intro i
        rw [Process.setVfd_vfdTab]
        split
        · intro hd
          rw [hg.disp] at hd
          rw [hd] at hsome
          cases hsome
        · exact hu i
      rcases hr : g.readable with _ | b
      · refine ⟨hun, fun i => ?_⟩
        simp only [Process.setVfd_vfdTab, Process.setVfd_vselData]
        split
        · next hi =>
          rw [hg.disp, hg.holds_iff hr, hi]
          exact hc s
        · exact hc i
      · have hput : ∀ b' : Bool, (b' = false → ¬ g.vfd.Holds) →
            Unfilled ((p.setVfd s g.vfd).putVsel .read s b') ∧
              Cached ((p.setVfd s g.vfd).putVsel .read s b') := by
          refine fun b' hb => ⟨hun, fun i hd hh => ?_⟩
          have hget := Process.putVsel_get (p.setVfd s g.vfd) .read .read s i b'
          simp only [Process.putVsel_vfdTab, Process.setVfd_vfdTab] at hd hh
          refine hget.trans ?_
          by_cases hi : i = s
          · rw [if_pos hi] at hh
            rw [if_pos ⟨rfl, hi⟩]
            cases b'
            · exact absurd hh (hb rfl)
            · rfl
          · rw [if_neg hi] at hd hh
            rw [if_neg fun h => hi h.2]
            exact hc i hd hh
        cases b
        · exact hput false fun _ => hg.holds hr
        · exact hput true fun h => by cases h
    · next hnone =>
      refine ⟨hu, fun i hd hh => ?_⟩
      have hget := Process.putVsel_get p .read .read s i false
      refine hget.trans ?_
      rw [if_neg]
      · exact hc i hd hh
      · rintro ⟨-, rfl⟩
        exact hnone hd

theorem closeVfd_disp (v : Vfd σ) :
    (closeVfd v).1.ppDispatcher = none ∧ (closeVfd v).1.inProg = 0 := by
  unfold closeVfd
  simp only
  split
  · next h => exact ⟨h, rfl⟩
  · exact ⟨rfl, rfl⟩

/-- `close` keeps the cache. -/
theorem close_keeps {s ret : ℤ} (hu : Unfilled p) (hc : Cached p) :
    Unfilled (close p s ret).1 ∧ Cached (close p s ret).1 := by
  unfold close
  split
  · exact ⟨hu, hc⟩
  · split
    · exact ⟨hu, hc⟩
    · obtain ⟨hd, hi⟩ := closeVfd_disp (p.vfdTab s)
      simp only
      refine ⟨fun i => ?_, fun i => ?_⟩
      · simp only [Process.putVsel_vfdTab, Process.setVfd_vfdTab]
        split
        · exact fun _ h => absurd hi h
        · exact hu i
      · simp only [Process.putVsel_vfdTab, Process.setVfd_vfdTab]
        split
        · rw [hd]
          exact fun h => by cases h
        · next hne =>
          intro hd' hh
          have hget : ∀ p' : Process σ, p'.vselData.read i = p'.vselData.get .read i :=
            fun _ => rfl
          rw [hget]
          simp only [Process.putVsel_get, hne, and_false, if_false]
          exact hc i hd' hh

/-! ## Selecting -/

theorem Connects.refl (p : Process σ) (peer : ℤ → Option (PpDispatcher σ)) :
    Connects p peer (-1) p :=
  ⟨fun _ => rfl, fun _ => rfl, fun _ _ => rfl, fun _ h => absurd h (by decide)⟩

theorem Connects.holds {peer : ℤ → Option (PpDispatcher σ)} {rfd : ℤ} (h : Connects p peer rfd p')
    (s : ℤ) : (p'.vfdTab s).Holds ↔ (p.vfdTab s).Holds := by
  rw [Vfd.Holds, Vfd.Holds, h.rlastlen, h.rbuflen]

/-- A descriptor is as it was, or it was found and has got the processor of its peer. -/
theorem Connects.cases {peer : ℤ → Option (PpDispatcher σ)} {rfd : ℤ} (h : Connects p peer rfd p')
    (s : ℤ) : p'.vfdTab s = p.vfdTab s ∨ s = rfd ∧ (p.vfdTab s).inProg ≠ 0 ∧
      (p'.vfdTab s).inProg = 0 ∧ (p'.vfdTab s).ppDispatcher = peer s := by
  by_cases hs : s ≠ rfd ∨ (p.vfdTab s).inProg = 0 ∨ rfd < 0
  · exact Or.inl (h.other s hs)
  · simp only [not_or, not_not, not_lt] at hs
    obtain ⟨rfl, hi, hr⟩ := hs
    exact Or.inr ⟨rfl, hi, h.found hi hr⟩

theorem Connects.unfilled {peer : ℤ → Option (PpDispatcher σ)} {rfd : ℤ}
    (h : Connects p peer rfd p') (hu : Unfilled p) : Unfilled p' := by
  intro s hd hi
  rcases h.cases s with heq | ⟨-, -, h₀, -⟩
  · rw [heq] at hd hi ⊢
    exact hu s hd hi
  · exact absurd h₀ hi

/-- A descriptor with a processor that holds bytes was in the cache before the call. -/
theorem Connects.cached {peer : ℤ → Option (PpDispatcher σ)} {rfd : ℤ} (h : Connects p peer rfd p')
    (hu : Unfilled p) (hc : Cached p) {s : ℤ} (hd : (p'.vfdTab s).ppDispatcher.isSome = true)
    (hh : (p'.vfdTab s).Holds) : p.vselData.read s = true := by
  rw [h.holds] at hh
  by_cases hp : (p.vfdTab s).ppDispatcher.isSome = true
  · exact hc s hp hh
  · rcases h.cases s with heq | ⟨-, hi, -⟩
    · rw [heq] at hd
      exact absurd hd hp
    · exact absurd hh (hu s (by simpa using hp) hi)

/-- A call of `speak_select` that keeps the cache, and what it asks. -/
structure SelectOf (p : Process σ) (a : SysCall σ) (n : ℤ) (args : FdArgs)
    (timeout : Option Timeval) (env : SelectEnv σ) : Prop where
  asks : ∀ k s, a.Asks k s ↔ 0 ≤ s ∧ s < n ∧ args.sets.get k s = true
  peer : ∀ s, a.peer? s = (env.peer s).id
  asked : p.asked a = (speakSelect p n args timeout env).toOption.bind (·.asked)
  step : ∀ p', p.step a = .ok p' → ∃ q, speakSelect p n args timeout env = .ok q ∧ q.proc = p'

theorem fdSetWhen_ok {c : Bool} {s s' : FdSets} {k : VfdRwe} {fd : ℤ}
    (h : fdSetWhen c s k fd = .ok s') : (c = true → 0 ≤ fd) ∧
      ∀ k' i, s'.get k' i = true ↔ s.get k' i = true ∨ c = true ∧ k' = k ∧ i = fd := by
  unfold fdSetWhen at h
  by_cases hc : c = true
  · rw [if_pos hc] at h
    obtain ⟨u, hin, h⟩ := bind_eq_ok h
    cases h
    refine ⟨fun _ => (of_inBounds hin).1, fun k' i => ?_⟩
    rw [FdSets.get_put]
    by_cases hk : k' = k ∧ i = fd <;> simp [hk, hc]
  · rw [if_neg hc] at h
    cases h
    simp [hc]

/-- The sets of `poll`: what its entries ask for, below the bound. -/
theorem pollSets_ok {ufds : List Pollfd} {sets sets' : FdSets} {m m' : ℤ}
    (h : pollSets ufds sets m = .ok (sets', m')) : m ≤ m' ∧
      (∀ k s, sets'.get k s = true ↔ sets.get k s = true ∨
        ∃ u ∈ ufds, u.fd = s ∧ (k = .read ∧ u.events &&& pollin ≠ 0 ∨
          k = .write ∧ u.events &&& pollout ≠ 0)) ∧
      ∀ u ∈ ufds, u.fd ≤ m' ∧
        (u.events &&& pollin ≠ 0 ∨ u.events &&& pollout ≠ 0 → 0 ≤ u.fd) := by
  induction ufds generalizing sets m with
  | nil =>
    cases h
    simp
  | cons u ufds ih =>
    unfold pollSets at h
    rcases h₁ : fdSetWhen (u.events &&& pollin ≠ 0) sets .read u.fd with e | s₁
    · rw [h₁] at h
      cases h
    rw [h₁, ok_bind] at h
    rcases h₂ : fdSetWhen (u.events &&& pollout ≠ 0) s₁ .write u.fd with e | s₂
    · rw [h₂] at h
      cases h
    rw [h₂, ok_bind] at h
    obtain ⟨hm, hsets, hu⟩ := ih h
    obtain ⟨hp₁, hg₁⟩ := fdSetWhen_ok h₁
    obtain ⟨hp₂, hg₂⟩ := fdSetWhen_ok h₂
    simp only [decide_eq_true_eq] at hp₁ hp₂ hg₁ hg₂
    have hmax : m ≤ (if m < u.fd then u.fd else m) ∧ u.fd ≤ (if m < u.fd then u.fd else m) := by
      split <;> omega
    refine ⟨by omega, fun k s => ?_, ?_⟩
    · rw [hsets, hg₂, hg₁]
      simp only [List.mem_cons, exists_eq_or_imp]
      constructor
      · rintro (((h | ⟨hc, hk, rfl⟩) | ⟨hc, hk, rfl⟩) | h)
        · exact Or.inl h
        · exact Or.inr (Or.inl ⟨rfl, Or.inl ⟨hk, hc⟩⟩)
        · exact Or.inr (Or.inl ⟨rfl, Or.inr ⟨hk, hc⟩⟩)
        · exact Or.inr (Or.inr h)
      · rintro (h | ⟨rfl, ⟨hk, hc⟩ | ⟨hk, hc⟩⟩ | h)
        · exact Or.inl (Or.inl (Or.inl h))
        · exact Or.inl (Or.inl (Or.inr ⟨hc, hk, rfl⟩))
        · exact Or.inl (Or.inr ⟨hc, hk, rfl⟩)
        · exact Or.inr h
    · intro w hw
      rcases List.mem_cons.1 hw with rfl | hw
      · exact ⟨by omega, fun h => h.elim hp₁ hp₂⟩
      · exact hu w hw

theorem selectOf_select (p : Process σ) (n : ℤ) (args : FdArgs) (timeout : Option Timeval)
    (env : SelectEnv σ) : SelectOf p (.select n args timeout env) n args timeout env where
  asks := fun _ _ => Iff.rfl
  peer := fun _ => rfl
  asked := rfl
  step := by
    intro p' h
    simp only [Process.step, select] at h
    rcases hq : speakSelect p n args timeout env with e | q
    · rw [hq] at h
      cases h
    · rw [hq] at h
      cases h
      exact ⟨q, rfl, rfl⟩

/-- `revents` does not matter for the sets. -/
theorem pollSets_map (ufds : List Pollfd) (sets : FdSets) (m : ℤ) :
    pollSets (ufds.map fun u => { u with revents := 0 }) sets m = pollSets ufds sets m := by
  induction ufds generalizing sets m with
  | nil => rfl
  | cons u ufds ih => simp only [List.map_cons, pollSets, ih]

/-- A `poll` that goes through has called `speak_select`. -/
theorem poll_ok {ufds : List Pollfd} {timeout : ℤ} {env : SelectEnv σ} {r : Polled σ}
    (h : poll p ufds timeout env = .ok r) :
    ∃ q, pollSelect p ufds timeout env = .ok q ∧ q.proc = r.sel.proc := by
  simp only [poll] at h
  have hmap : pollSelect p (ufds.map fun u => { u with revents := 0 }) timeout env =
      pollSelect p ufds timeout env := by
    simp only [pollSelect, pollSets_map]
  rw [hmap] at h
  rcases hq : pollSelect p ufds timeout env with e | q
  · rw [hq] at h
    cases h
  · rw [hq, ok_bind] at h
    refine ⟨q, rfl, ?_⟩
    rcases hr : pollRevents q.sets.sets q.rfd (ufds.map fun u => { u with revents := 0 })
      with e | us
    · rw [hr] at h
      cases h
    · rw [hr, ok_bind] at h
      cases h
      rfl

/-- The call of `speak_select` in `poll`. -/
theorem selectOf_poll {ufds : List Pollfd} {sets : FdSets} {m : ℤ} (timeout : ℤ)
    (env : SelectEnv σ) (p : Process σ) (h : pollSets ufds FdSets.zero 0 = .ok (sets, m)) :
    SelectOf p (.poll ufds timeout env) (m + 1)
      ⟨some sets.read, some sets.write, some sets.except⟩ (pollTimeout timeout) env := by
  have hof : ∀ k, (FdArgs.mk (some sets.read) (some sets.write) (some sets.except)).sets.get k =
      sets.get k := fun k => by cases k <;> rfl
  obtain ⟨hm, hsets, hu⟩ := pollSets_ok h
  refine ⟨fun k s => ?_, fun _ => rfl, ?_, fun p' hp => ?_⟩
  · rw [hof, hsets]
    have hzero : FdSets.zero.get k s = false := by cases k <;> rfl
    simp only [hzero, Bool.false_eq_true, false_or]
    cases k
    · simp only [SysCall.Asks, true_and, reduceCtorEq, false_and, or_false]
      constructor
      · rintro ⟨u, hmem, rfl, he⟩
        have := hu u hmem
        exact ⟨this.2 (Or.inl he), by omega, u, hmem, rfl, he⟩
      · exact fun h => h.2.2
    · simp only [SysCall.Asks, true_and, reduceCtorEq, false_and, false_or]
      constructor
      · rintro ⟨u, hmem, rfl, he⟩
        have := hu u hmem
        exact ⟨this.2 (Or.inr he), by omega, u, hmem, rfl, he⟩
      · exact fun h => h.2.2
    · simp [SysCall.Asks]
  · simp only [Process.asked, pollSelect, h, ok_bind]
  · rcases hr : poll p ufds timeout env with e | r
    · simp only [Process.step, hr, error_bind, reduceCtorEq] at hp
    · simp only [Process.step, hr, ok_bind, Except.ok.injEq] at hp
      obtain ⟨q, hq, hproc⟩ := poll_ok hr
      simp only [pollSelect, h, ok_bind] at hq
      exact ⟨q, hq, hproc.trans hp⟩

variable {a : SysCall σ} {n : ℤ} {args : FdArgs} {timeout : Option Timeval} {env : SelectEnv σ}

theorem SelectOf.hit_iff (h : SelectOf p a n args timeout env) {k : VfdRwe} {s : ℤ} (h₀ : 0 ≤ s)
    (hn : s < n) : p.cachedHit args k s = true ↔ a.Asks k s ∧ p.vselData.get k s = true := by
  rw [Process.cachedHit, Bool.and_eq_true, h.asks]
  constructor
  · rintro ⟨h₁, h₂⟩
    exact ⟨⟨h₀, hn, h₁⟩, h₂⟩
  · rintro ⟨⟨-, -, h₁⟩, h₂⟩
    exact ⟨h₁, h₂⟩

/-- The call is told that `s` is readable exactly when `s` is the first it asks for in the cache. -/
theorem SelectOf.firstHit_iff (h : SelectOf p a n args timeout env) {s : ℤ} (hs : a.Asks .read s) :
    FirstHit (p.cachedHit args) 0 s .read ↔ p.vselData.read s = true ∧
      ∀ i, i < s → ∀ k, a.Asks k i → p.vselData.get k i = false := by
  obtain ⟨h₀, hn, hget⟩ := (h.asks .read s).1 hs
  constructor
  · rintro ⟨-, hhit, hbefore, -⟩
    refine ⟨((h.hit_iff h₀ hn).1 hhit).2, fun i hi k ha => ?_⟩
    obtain ⟨hi₀, hin, -⟩ := (h.asks k i).1 ha
    have hfalse := hbefore i hi₀ hi k
    by_contra hne
    rw [(h.hit_iff hi₀ hin).2 ⟨ha, by simpa using hne⟩] at hfalse
    cases hfalse
  · rintro ⟨hread, hbefore⟩
    refine ⟨h₀, (h.hit_iff h₀ hn).2 ⟨hs, hread⟩, fun i hi₀ hi k => ?_, fun h => absurd rfl h,
      fun h => by cases h⟩
    by_contra hne
    obtain ⟨ha, hget'⟩ := (h.hit_iff hi₀ (by omega)).1 (by simpa using hne)
    rw [hbefore i hi k ha] at hget'
    cases hget'

/-- A call of `speak_select` from a state where the cache holds what it must ends in one if and only
if it does not tell of a descriptor that holds bytes. -/
theorem SelectOf.keeps_iff (h : SelectOf p a n args timeout env) (hu : Unfilled p) (hc : Cached p)
    (hstep : p.step a = .ok p') : Unfilled p' ∧ (Cached p' ↔ ¬ Forgets p a) := by
  obtain ⟨q, hq, rfl⟩ := h.step p' hstep
  rcases speakSelect_cases hq
    with ⟨fd, k, hfirst, hfn, -, -, -, -, hvsel, hconn⟩ | ⟨hnone, -, hrest⟩
  · refine ⟨hconn.unfilled hu, fun hc' => ?_, fun hf s hd hh => ?_⟩
    · rintro ⟨s, hs, hread, hh, hpp, hbefore⟩
      obtain ⟨rfl, rfl⟩ := hfirst.unique ((h.firstHit_iff hs).2 ⟨hread, hbefore⟩)
      have hd : (q.proc.vfdTab fd).ppDispatcher.isSome = true := by
        rcases hconn.cases fd with heq | ⟨-, hi, -, hpeer⟩
        · by_cases hi : (p.vfdTab fd).inProg = 0
          · rw [if_pos hi] at hpp
            rwa [heq]
          · obtain ⟨h₀, -⟩ := hconn.found hi hfirst.1
            rw [heq] at h₀
            exact absurd h₀ hi
        · rw [if_neg hi, h.peer] at hpp
          rwa [hpeer]
      have hread' := hc' fd hd ((hconn.holds fd).2 hh)
      rw [hvsel] at hread'
      simp [FdSets.put] at hread'
    · have hread := hconn.cached hu hc hd hh
      by_cases hfd : k = .read ∧ s = fd
      · obtain ⟨rfl, rfl⟩ := hfd
        refine absurd ?_ hf
        have hs : a.Asks .read s := ((h.hit_iff hfirst.1 hfn).1 hfirst.2.1).1
        obtain ⟨-, hbefore⟩ := (h.firstHit_iff hs).1 hfirst
        refine ⟨s, hs, hread, (hconn.holds s).1 hh, ?_, hbefore⟩
        rcases hconn.cases s with heq | ⟨-, hi, -, hpeer⟩
        · rw [heq] at hd
          split
          · exact hd
          · next hi =>
            obtain ⟨h₀, -⟩ := hconn.found hi hfirst.1
            rw [heq] at h₀
            exact absurd h₀ hi
        · rw [if_neg hi, h.peer, ← hpeer]
          exact hd
      · have hget := FdSets.get_put p.vselData k .read fd s false
        rw [if_neg fun h => hfd ⟨h.1.symm, h.2⟩] at hget
        rw [hvsel]
        exact hget.trans hread
  · have hmono : ∃ rfd, Connects p (fun s => (env.peer s).id) rfd q.proc ∧
        ∀ s, p.vselData.read s = true → q.proc.vselData.read s = true := by
      rcases hrest with ⟨-, -, hproc⟩ | ⟨-, -, hvsel, hconn, -⟩
      · rw [hproc]
        exact ⟨-1, Connects.refl p _, fun _ h => h⟩
      · refine ⟨q.rfd, hconn, fun s hs => ?_⟩
        rw [hvsel]
        simp [FdSets.absorb, hs]
    obtain ⟨rfd, hconn, hmono⟩ := hmono
    refine ⟨hconn.unfilled hu, fun _ => ?_, fun _ s hd hh => hmono s (hconn.cached hu hc hd hh)⟩
    rintro ⟨s, hs, hread, -⟩
    obtain ⟨h₀, hn, -⟩ := (h.asks .read s).1 hs
    have hhit := (h.hit_iff h₀ hn).2 ⟨hs, hread⟩
    rw [hnone s h₀ hn .read] at hhit
    cases hhit

/-- A call that asks for a descriptor in the cache does not get to `real_select`. -/
theorem SelectOf.asked_eq_none (h : SelectOf p a n args timeout env) {s : ℤ} (hs : a.Asks .read s)
    (hread : p.vselData.read s = true) : p.asked a = none := by
  rw [h.asked]
  rcases hq : speakSelect p n args timeout env with e | q
  · rfl
  · rcases speakSelect_cases hq with ⟨_, _, -, -, -, -, -, hasked, -⟩ | ⟨hnone, -⟩
    · exact hasked
    · obtain ⟨h₀, hn, -⟩ := (h.asks .read s).1 hs
      have hhit := (h.hit_iff h₀ hn).2 ⟨hs, hread⟩
      rw [hnone s h₀ hn .read] at hhit
      cases hhit

theorem Cached.answered (hc : Cached p) : Answered p := by
  intro a s hs hd hh
  have hread := hc s hd hh
  cases a with
  | select n args timeout env =>
    exact (selectOf_select p n args timeout env).asked_eq_none hs hread
  | poll ufds timeout env =>
    rcases hsets : pollSets ufds FdSets.zero 0 with e | ⟨sets, m⟩
    · simp only [Process.asked, pollSelect, hsets, error_bind]
      rfl
    · exact (selectOf_poll timeout env p hsets).asked_eq_none hs hread
  | _ => rfl

/-- **One call** from a state where the cache holds what it must ends in one if and only if it does
not tell of a descriptor that holds bytes. -/
theorem step_cached_iff (hu : Unfilled p) (hc : Cached p) {a : SysCall σ}
    (hstep : p.step a = .ok p') : Unfilled p' ∧ (Cached p' ↔ ¬ Forgets p a) := by
  have hkeep : Unfilled p' ∧ Cached p' → (∀ s, ¬ a.Asks .read s) →
      Unfilled p' ∧ (Cached p' ↔ ¬ Forgets p a) :=
    fun h hs => ⟨h.1, fun _ ⟨s, h', _⟩ => hs s h', fun _ => h.2⟩
  have hreceive : ∀ x : Except Fault (Reply σ),
      Post x (fun r => Unfilled r.proc ∧ Cached r.proc) AnyFault →
      (x >>= fun r => .ok r.proc) = .ok p' → Unfilled p' ∧ Cached p' := by
    intro x hx hok
    rcases x with e | r
    · cases hok
    · cases hok
      exact hx
  cases a with
  | read s len k =>
    exact hkeep (hreceive _ (wrapReceive_keeps (fun v => virtualGet_marks true v s len 0 k) hu hc)
      hstep) fun _ h => h
  | recv s len flags k =>
    exact hkeep (hreceive _ (wrapReceive_keeps
      (fun v => virtualGet_marks false v s len flags k) hu hc) hstep) fun _ h => h
  | recvfrom s len flags k =>
    exact hkeep (hreceive _ (wrapReceive_keeps
      (fun v => virtualGet_marks false v s len flags k) hu hc) hstep) fun _ h => h
  | select n args timeout env =>
    exact (selectOf_select p n args timeout env).keeps_iff hu hc hstep
  | poll ufds timeout env =>
    rcases hsets : pollSets ufds FdSets.zero 0 with e | ⟨sets, m⟩
    · simp only [Process.step] at hstep
      rcases hr : poll p ufds timeout env with e | r
      · rw [hr] at hstep
        cases hstep
      · obtain ⟨q, hq, -⟩ := poll_ok hr
        simp only [pollSelect, hsets, error_bind, reduceCtorEq] at hq
    · exact (selectOf_poll timeout env p hsets).keeps_iff hu hc hstep
  | close s ret =>
    cases hstep
    exact hkeep (close_keeps hu hc) fun _ h => h

/-- **No lost wake-up.** In a run of calls on newly opened descriptors, every descriptor with a
processor that holds bytes is in the cache and every `select` or `poll` that asks for it is answered
from there, in every state reached, if and only if no call of the run tells of a descriptor that
holds bytes. -/
theorem cached_iff (p₀ : Process σ) (h₀ : ∀ s, (p₀.vfdTab s).Fresh) (as : List (SysCall σ)) :
    Always Process.step p₀ as (fun p => Cached p ∧ Answered p) ↔
      Along Process.step p₀ as fun p a => ¬ Forgets p a := by
  have hempty : ∀ s, ¬ (p₀.vfdTab s).Holds := by
    intro s
    obtain ⟨h₁, -, h₂, -⟩ := h₀ s
    unfold Vfd.Holds
    omega
  have hc₀ : Cached p₀ := fun s _ hh => absurd hh (hempty s)
  refine always_iff_along (I := Unfilled) (fun s _ _ => hempty s) ⟨hc₀, hc₀.answered⟩ ?_
  rintro p a p' hu ⟨hc, -⟩ hstep
  obtain ⟨hu', hiff⟩ := step_cached_iff hu hc hstep
  exact ⟨hu', fun h => hiff.1 h.1, fun h => ⟨hiff.2 h, (hiff.2 h).answered⟩⟩

/-! ### A wake-up that is lost -/

/-- The start-up message of a client: its length, 8, and the version. -/
def startup : List Byte := [0, 0, 0, 8, 0, 3, 0, 0]

/-- A server with a connection of a client on descriptor 5. -/
def psqlServer : Process PpPsqlState where
  vfdTab := fun s =>
    if s = 5 then (Vfd.zero ppPsqlCommonInit).accepted ppPsqls 5 ppPsqlCommonInit
    else Vfd.zero ppPsqlCommonInit
  vselData := FdSets.zero

theorem psqlServer_fresh (s : ℤ) : (psqlServer.vfdTab s).Fresh := by
  unfold psqlServer
  simp only
  split <;> exact ⟨rfl, rfl, rfl, rfl, rfl⟩

/-- A kernel with nothing ready. -/
def idleEnv : SelectEnv σ := ⟨fun _ _ _ => (0, FdSets.zero), fun _ => ⟨[], none, []⟩⟩

/-- It reads one byte of eight, and asks whether there is more. -/
def readThenSelect : List (SysCall PpPsqlState) :=
  [.read 5 1 (Kernel.give startup),
    .select 6 ⟨some (fun i => decide (i = 5)), none, none⟩ none idleEnv]

/-- The descriptors that hold bytes after a run though they are not in the cache, below a bound. -/
def lost (p₀ : Process σ) (as : List (SysCall σ)) (n : ℕ) : Option (List ℕ) :=
  match runSteps Process.step p₀ as with
  | .error _ => none
  | .ok p => some ((List.range n).filter fun s => (p.vfdTab s).ppDispatcher.isSome &&
      (decide (p.vfdTab s).Holds && !p.vselData.read s))

theorem cached_iff_readThenSelect :
    Always Process.step psqlServer readThenSelect (fun p => Cached p ∧ Answered p) ↔
      Along Process.step psqlServer readThenSelect fun p a => ¬ Forgets p a :=
  cached_iff psqlServer psqlServer_fresh readThenSelect

/-- The select is told that 5 is readable, and forgets it with seven bytes in the buffer. -/
theorem select_forgets_held_bytes :
    ¬ Always Process.step psqlServer readThenSelect fun p => Cached p ∧ Answered p := by
  intro h
  have hlost : lost psqlServer readThenSelect 8 = some [5] := by decide +kernel
  rcases hrun : runSteps Process.step psqlServer readThenSelect with e | p
  · simp [lost, hrun] at hlost
  · obtain ⟨hc, -⟩ := h readThenSelect (List.prefix_refl _) p hrun
    simp only [lost, hrun, Option.some.injEq] at hlost
    have hmem : 5 ∈ ([5] : List ℕ) := by simp
    rw [← hlost, List.mem_filter] at hmem
    simp only [Nat.cast_ofNat, Bool.and_eq_true, decide_eq_true_eq, Bool.not_eq_true'] at hmem
    obtain ⟨-, hd, hh, hread⟩ := hmem
    rw [hc 5 hd hh] at hread
    cases hread

/-! ## Answers -/

/-- A single bit is set over the sets of the reply, and the sets of the call have it. -/
def AnswersOne (args reply : FdArgs) : Prop :=
  ∃ k fd, (∀ k' i, reply.sets.get k' i = true ↔ k' = k ∧ i = fd) ∧ args.sets.get k fd = true

/-- Something asked for is in the cache; or `real_select` reports nothing; or the first that it
reports was asked for, and nothing in the cache comes before it. -/
def Tells (p : Process σ) (n : ℤ) (args : FdArgs) (timeout : Option Timeval)
    (env : SelectEnv σ) : Prop :=
  (∃ k i, 0 ≤ i ∧ i < n ∧ args.sets.get k i = true ∧ p.vselData.get k i = true) ∨
    (env.realSelect n args.sets timeout).1 ≤ 0 ∨
    ∃ k fd, FirstHit (env.realSelect n args.sets timeout).2.get 0 fd k ∧ fd < n ∧
      args.sets.get k fd = true ∧ NoneBefore p.vselData.get 0 fd k

theorem give_only_get (args : FdArgs) (k k' : VfdRwe) (fd i : ℤ) :
    (args.give (FdSets.only k fd)).sets.get k' i = true ↔
      (args.get k').isSome = true ∧ k' = k ∧ i = fd := by
  rw [FdArgs.sets_get, FdArgs.give_get]
  cases args.get k' <;> simp [FdSets.get_only]

theorem isSome_of_sets_get {args : FdArgs} {k : VfdRwe} {i : ℤ} (h : args.sets.get k i = true) :
    (args.get k).isSome = true := by
  rw [FdArgs.sets_get] at h
  cases hk : args.get k
  · rw [hk] at h
    cases h
  · rfl

/-- A reply of one bit answers the call when the bit was asked for. -/
theorem answersOne_only_iff (args : FdArgs) (k : VfdRwe) (fd : ℤ) :
    AnswersOne args (args.give (FdSets.only k fd)) ↔ args.sets.get k fd = true := by
  constructor
  · rintro ⟨k', fd', hbits, hask⟩
    have hbit := (hbits k' fd').2 ⟨rfl, rfl⟩
    rw [give_only_get] at hbit
    obtain ⟨-, rfl, rfl⟩ := hbit
    exact hask
  · intro h
    refine ⟨k, fd, fun k' i => ?_, h⟩
    rw [give_only_get]
    constructor
    · exact fun h => h.2
    · rintro ⟨rfl, rfl⟩
      exact ⟨isSome_of_sets_get h, rfl, rfl⟩

/-- The first bit of the merged cache is the first that was reported, when it was not cached and
nothing cached comes before it. -/
theorem firstHit_absorb {s res : FdSets} {n fd : ℤ} {k : VfdRwe} (hn : fd < n) :
    FirstHit (s.absorb n res).get 0 fd k ∧ s.get k fd = false ↔
      FirstHit res.get 0 fd k ∧ NoneBefore s.get 0 fd k ∧ s.get k fd = false := by
  have hget : ∀ k' j, 0 ≤ j → j ≤ fd → ((s.absorb n res).get k' j = false ↔
      s.get k' j = false ∧ res.get k' j = false) := by
    intro k' j h₀ hj
    have hin : 0 ≤ j ∧ j < n := ⟨h₀, by omega⟩
    rw [FdSets.get_absorb, Bool.or_eq_false_iff, decide_eq_true hin, Bool.true_and]
  constructor
  · rintro ⟨⟨h₀, hhit, hb, hr, hw⟩, hs⟩
    refine ⟨⟨h₀, ?_, fun j hj hlt k' => ((hget k' j hj hlt.le).1 (hb j hj hlt k')).2,
      fun hk => ((hget _ _ h₀ le_rfl).1 (hr hk)).2, fun hk => ((hget _ _ h₀ le_rfl).1 (hw hk)).2⟩,
      ⟨fun j hj hlt k' => ((hget k' j hj hlt.le).1 (hb j hj hlt k')).1,
        fun hk => ((hget _ _ h₀ le_rfl).1 (hr hk)).1,
        fun hk => ((hget _ _ h₀ le_rfl).1 (hw hk)).1⟩, hs⟩
    by_contra hres
    rw [(hget k fd h₀ le_rfl).2 ⟨hs, by simpa using hres⟩] at hhit
    cases hhit
  · rintro ⟨⟨h₀, hhit, hb, hr, hw⟩, ⟨hb', hr', hw'⟩, hs⟩
    refine ⟨⟨h₀, ?_, fun j hj hlt k' => (hget k' j hj hlt.le).2 ⟨hb' j hj hlt k', hb j hj hlt k'⟩,
      fun hk => (hget _ _ h₀ le_rfl).2 ⟨hr' hk, hr hk⟩,
      fun hk => (hget _ _ h₀ le_rfl).2 ⟨hw' hk, hw hk⟩⟩, hs⟩
    by_contra hne
    have hres := ((hget k fd h₀ le_rfl).1 (by simpa using hne)).2
    rw [hhit] at hres
    cases hres

/-- **Answers of select.** `speak_select` stays inside the sets when `n` is at most `FD_SETSIZE`. A
reply of 1 carries a single bit that was asked for if and only if the answer comes from the cache,
or nothing in the cache comes before what `real_select` reports. -/
theorem answers_iff (p : Process σ) (n : ℤ) (args : FdArgs) (timeout : Option Timeval)
    (env : SelectEnv σ) :
    (n ≤ maxFds → ∃ q, speakSelect p n args timeout env = .ok q) ∧
      ∀ q, speakSelect p n args timeout env = .ok q →
        ((q.ret = 1 → AnswersOne args q.sets) ↔ Tells p n args timeout env) := by
  refine ⟨fun hn => ?_, fun q hq => ?_⟩
  · have hm : (0 : ℤ) + n.toNat ≤ maxFds := by
      have : (0 : ℤ) ≤ maxFds := by decide
      omega
    obtain ⟨o, ho⟩ := firstHit_ok (fun k i => args.sets.get k i && p.vselData.get k i) hm
    unfold speakSelect
    simp only
    rw [ho, ok_bind]
    rcases o with _ | ⟨fd, k⟩
    · simp only
      split
      · exact ⟨_, rfl⟩
      · obtain ⟨o, ho⟩ := firstHit_ok
          (p.vselData.absorb n (env.realSelect n args.sets timeout).2).get hm
        rw [ho, ok_bind]
        rcases o with _ | ⟨fd, k⟩
        · exact ⟨_, rfl⟩
        · exact ⟨_, rfl⟩
    · exact ⟨_, rfl⟩
  rcases speakSelect_cases hq with ⟨fd, k, hfirst, hfn, hsets, -⟩ | ⟨hnone, -, hrest⟩
  · -- the answer comes from the cache
    have hhit := hfirst.2.1
    rw [Process.cachedHit, Bool.and_eq_true] at hhit
    refine ⟨fun _ => Or.inl ⟨k, fd, hfirst.1, hfn, hhit⟩, fun _ _ => ?_⟩
    rw [hsets]
    exact (answersOne_only_iff args k fd).2 hhit.1
  have hnot : ∀ k i, 0 ≤ i → i < n → args.sets.get k i = true → p.vselData.get k i = false := by
    intro k i h₀ hi ha
    have := hnone i h₀ hi k
    rwa [Process.cachedHit, ha, Bool.true_and] at this
  rcases hrest with ⟨hr, hret, -⟩ | ⟨hr, hret, hvsel, -, hfound⟩
  · exact ⟨fun _ => Or.inr (Or.inl hr), fun _ h => by omega⟩
  have htells : Tells p n args timeout env ↔ ∃ k fd,
      FirstHit (env.realSelect n args.sets timeout).2.get 0 fd k ∧ fd < n ∧
        args.sets.get k fd = true ∧ NoneBefore p.vselData.get 0 fd k := by
    refine ⟨fun h => ?_, fun h => Or.inr (Or.inr h)⟩
    rcases h with ⟨k, i, h₀, hi, ha, hc⟩ | h | h
    · rw [hnot k i h₀ hi ha] at hc
      cases hc
    · omega
    · exact h
  rw [htells]
  rcases hfound with ⟨k, hfirst, hlt, hsets⟩ | ⟨hempty, -, hsets⟩
  · rw [hvsel] at hfirst
    rw [hsets, answersOne_only_iff]
    refine ⟨fun h => ?_, fun ⟨k', fd, hres, hfn, ha, hb⟩ _ => ?_⟩
    · have hask := h hret
      have hc := hnot k q.rfd hfirst.1 hlt hask
      obtain ⟨hres, hb, -⟩ := (firstHit_absorb hlt).1 ⟨hfirst, hc⟩
      exact ⟨k, q.rfd, hres, hlt, hask, hb⟩
    · have hc := hnot k' fd hres.1 hfn ha
      obtain ⟨hfirst', -⟩ := (firstHit_absorb hfn).2 ⟨hres, hb, hc⟩
      obtain ⟨rfl, rfl⟩ := hfirst.unique hfirst'
      exact ha
  · refine ⟨fun h => ?_, fun ⟨k, fd, hres, hfn, _, _⟩ => ?_⟩
    · obtain ⟨k, fd, hbits, -⟩ := h hret
      have hbit := (hbits k fd).2 ⟨rfl, rfl⟩
      rw [hsets, FdArgs.sets_get, FdArgs.give_get] at hbit
      cases hk : args.get k <;> rw [hk] at hbit <;> cases k <;> cases hbit
    · have hz := hempty fd hres.1 hfn k
      have hin : 0 ≤ fd ∧ fd < n := ⟨hres.1, hfn⟩
      rw [hvsel, FdSets.get_absorb, decide_eq_true hin, hres.2.1] at hz
      simp at hz

/-- A kernel where the descriptor `i` is readable. -/
def readyEnv (i : ℤ) : SelectEnv σ :=
  ⟨fun _ _ _ => (1, FdSets.only .read i), fun _ => ⟨[], none, []⟩⟩

/-- A call that asks whether the descriptor `i` is readable. -/
def askRead (i : ℤ) : FdArgs := ⟨some fun j => decide (j = i), none, none⟩

/-- What a `speak_select` tells: its return value and the bits below a bound of the read set. -/
def told (x : Except Fault (Selected σ)) (n : ℕ) : Option (ℤ × List ℕ) :=
  match x with
  | .error _ => none
  | .ok q => some (q.ret, (List.range n).filter fun i => q.sets.sets.read i)

/-- A call that asks for 3 and finds it readable. -/
def threeReady : List (SysCall PpPsqlState) := [.select 9 (askRead 3) none (readyEnv 3)]

/-- After 3 was found readable, a call that asks for 8 is told 3. -/
theorem select_tells_another :
    ¬ ∀ p, runSteps Process.step psqlServer threeReady = .ok p →
      ∀ q, speakSelect p 9 (askRead 8) none (readyEnv 8) = .ok q → q.ret = 1 →
        AnswersOne (askRead 8) q.sets := by
  intro h
  have htold : (runSteps Process.step psqlServer threeReady).toOption.bind
      (fun p => told (speakSelect p 9 (askRead 8) none (readyEnv 8)) 9) = some (1, [3]) := by
    decide +kernel
  rcases hrun : runSteps Process.step psqlServer threeReady with e | p
  · rw [hrun] at htold
    cases htold
  rw [hrun] at htold
  rcases hq : speakSelect p 9 (askRead 8) none (readyEnv 8) with e | q
  · simp [Except.toOption, told, hq] at htold
  simp only [Except.toOption, Option.bind_some, told, hq, Option.some.injEq, Prod.mk.injEq] at htold
  obtain ⟨hret, hbits⟩ := htold
  obtain ⟨k, fd, hone, hask⟩ := h p hrun q hq hret
  have h₃ : (3 : ℕ) ∈ ([3] : List ℕ) := by simp
  rw [← hbits, List.mem_filter] at h₃
  obtain ⟨rfl, rfl⟩ := (hone .read 3).1 h₃.2
  exact absurd hask (by decide)

end BorderPatrol.Trace
