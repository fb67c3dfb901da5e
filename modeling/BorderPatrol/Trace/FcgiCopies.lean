import BorderPatrol.Foundations.Runs
import BorderPatrol.Trace.FcgiFraming

/-!
# What `speak_fcgi` copies

At the end of a body that is logged `speak_fcgi` copies `min(conlen - 2, len)` bytes of what it is
called on into a buffer of 1024 bytes. The whole body lies in these bytes then, so that the number
is always `conlen - 2`, and `conlen` is what the header of the body said. A body is logged when a
`PARAMS` header was read since the last body ended: its own, or an earlier one that announced
nothing. So the copies have a terminator and room for it exactly when the bodies behind `PARAMS`
headers have 2 to 1025 bytes of content (`copies_bounded_iff`).
-/

namespace BorderPatrol.Trace

open Foundations

/-! ## A stream and its fragments -/

/-- One direction of a connection: the state, the bytes that came and were not taken yet, and the
headers that were read since a body last ended. -/
structure FcgiSide where
  state : PpFcgiState
  left : List Byte
  heads : List (List Byte)

/-- More of the stream arrives; or what came and was not taken is presented, with other bytes behind
it in the buffer. -/
inductive FcgiStep
  | arrive (bytes : List Byte)
  | present (behind : List Byte)

namespace FcgiSide

/-- Before the stream. -/
def start : FcgiSide := ⟨fcgiInit, [], []⟩

/-- What is presented has the rest of a body. -/
def Ends (f : FcgiSide) : Prop :=
  f.state.done = 0 ∧ f.state.success ≠ 0 ∧ f.state.body ≤ f.left.length

/-- The headers after what is left was presented. -/
def headsAfter (f : FcgiSide) : List (List Byte) :=
  if f.state.done ≠ 0 then f.heads
  else if f.state.success = 0 then
    if f.left.length < fcgiHeaderLen then f.heads else f.heads ++ [f.left.take fcgiHeaderLen]
  else if f.state.body ≤ f.left.length then []
  else f.heads

/-- A step. The buffers do not call a processor on nothing, and keep what it does not take. -/
def step (junk : PpFcgiState → List Byte) (s : ℤ) (role : PpId) (d : PpDirection) (f : FcgiSide) :
    FcgiStep → Except Fault FcgiSide
  | .arrive bytes => .ok { f with left := f.left ++ bytes }
  | .present behind =>
    if f.left = [] then .ok f
    else do
      let (req, state, _) ←
        speakFcgi junk f.state s (f.left ++ behind) f.left.length role d
      return ⟨state, f.left.drop req.toNat, f.headsAfter⟩

/-- The number of bytes that are copied at the end of a body, `min(conlen - 2, len)`. -/
def copied (f : FcgiSide) : ℤ := min (f.state.conlen - 2) f.left.length

/-- When the step ends a body that is logged, the bytes copied leave room for a terminator. -/
def CopyBounded (f : FcgiSide) : FcgiStep → Prop
  | .arrive _ => True
  | .present _ => f.Ends → f.state.streamType.isSome = true → 0 ≤ f.copied ∧ f.copied ≤ 1023

/-- When the step ends a body, and a `PARAMS` header was read since the last one ended, the header
of the body announced 2 to 1025 bytes of content. -/
def ParamsFit (f : FcgiSide) : FcgiStep → Prop
  | .arrive _ => True
  | .present _ => f.Ends → (∃ m ∈ f.heads, fcgiType m = 4) →
    ∃ m ∈ f.heads.getLast?, 2 ≤ fcgiConlen m ∧ fcgiConlen m ≤ 1025

/-- The state is that of the headers: a body is that of the last one, and is logged if one of them
is of type `PARAMS`. -/
structure Tracked (f : FcgiSide) : Prop where
  body : f.state.success ≠ 0 → ∃ m ∈ f.heads.getLast?,
    f.state.conlen = fcgiConlen m ∧ f.state.padlen = fcgiPadlen m
  params : f.state.streamType.isSome = true ↔ ∃ m ∈ f.heads, fcgiType m = 4

end FcgiSide

variable {junk : PpFcgiState → List Byte} {s : ℤ} {role : PpId} {d : PpDirection}
  {f f' : FcgiSide} {a : FcgiStep}

/-! ## One step -/

/-- The bytes of a header that is presented are those that were left. -/
theorem header_append {left behind : List Byte} (state : PpFcgiState) (h : 8 ≤ left.length) :
    state.header (left ++ behind) = state.header (left.take 8) := by
  rw [← header_take_eight state (left ++ behind) le_rfl, List.take_append_of_le_length h]

/-- **What a step does.** It leaves the state and the headers; or it reads a header; or it ends a
body. -/
theorem FcgiSide.step_cases (h : f.step junk s role d a = .ok f') :
    f'.state = f.state ∧ f'.heads = f.heads ∨
    (∃ m, f'.state = f.state.header m ∧ f'.heads = f.heads ++ [m]) ∨
    f'.state = f.state.finish ∧ f'.heads = [] := by
  cases a with
  | arrive bytes =>
    cases h
    exact .inl ⟨rfl, rfl⟩
  | present behind =>
    rw [FcgiSide.step] at h
    split at h
    · cases h
      exact .inl ⟨rfl, rfl⟩
    obtain ⟨⟨req, state, l⟩, hspeak, h⟩ := bind_eq_ok h
    cases h
    unfold speakFcgi at hspeak
    unfold FcgiSide.headsAfter
    split at hspeak
    · next hd =>
      cases hspeak
      exact .inl ⟨rfl, if_pos hd⟩
    · next hd =>
      simp only [if_neg hd]
      split at hspeak
      · next hs =>
        simp only [if_pos hs]
        split at hspeak
        · next hlt =>
          cases hspeak
          exact .inl ⟨rfl, if_pos (by exact_mod_cast hlt)⟩
        · next hlt =>
          cases hspeak
          have hle : 8 ≤ f.left.length := by
            rw [fcgiHeaderLen] at hlt
            omega
          refine .inr (.inl ⟨f.left.take 8, header_append f.state hle, if_neg ?_⟩)
          exact not_lt.2 hle
      · next hs =>
        simp only [if_neg hs]
        obtain ⟨u, -, hspeak⟩ := bind_eq_ok hspeak
        split at hspeak
        · next hle =>
          rcases hst : f.state.streamType with _ | t
          · simp only [hst] at hspeak
            cases hspeak
            exact .inr (.inr ⟨rfl, if_pos hle⟩)
          · simp only [hst] at hspeak
            obtain ⟨u, -, hspeak⟩ := bind_eq_ok hspeak
            cases hspeak
            exact .inr (.inr ⟨rfl, if_pos hle⟩)
        · next hle =>
          cases hspeak
          exact .inl ⟨rfl, if_neg hle⟩

/-- Where `speak_fcgi` runs over `tmp`. -/
theorem speakFcgi_overrun {state : PpFcgiState} {m : List Byte} {len : ℤ}
    (h : speakFcgi junk state s m len role d = .error .overrun) :
    state.done = 0 ∧ state.success ≠ 0 ∧ state.body ≤ len ∧ state.streamType.isSome = true ∧
      ¬ (0 ≤ state.conlen - 2 ∧ state.conlen - 2 ≤ 1024) := by
  unfold speakFcgi at h
  split at h
  · cases h
  next hd =>
  split at h
  · split at h <;> cases h
  next hs =>
  by_cases hb : 0 < state.body
  · dsimp only at h
    rw [cAssert_of hb, ok_bind] at h
    split at h
    · next hle =>
      rcases hst : state.streamType with _ | t
      · simp only [hst] at h
        cases h
      · simp only [hst] at h
        refine ⟨not_not.1 hd, hs, hle, rfl, fun hl => ?_⟩
        rw [inBounds_of hl] at h
        cases h
    · cases h
  · simp only [cAssert, if_neg hb, error_bind] at h
    cases h

namespace FcgiSide

theorem tracked_start : start.Tracked where
  body h := absurd rfl h
  params := by simp [start, fcgiInit]

theorem Tracked.step (h : f.Tracked) (hstep : f.step junk s role d a = .ok f') : f'.Tracked := by
  rcases step_cases hstep with ⟨hstate, hheads⟩ | ⟨m, hstate, hheads⟩ | ⟨hstate, hheads⟩
  · constructor
    · rw [hstate, hheads]
      exact h.body
    · rw [hstate, hheads]
      exact h.params
  · constructor
    · intro _
      rw [hstate, hheads, List.getLast?_concat]
      exact ⟨m, rfl, rfl, rfl⟩
    · rw [hstate, hheads, PpFcgiState.header]
      simp only [List.mem_append, List.mem_singleton, or_and_right, exists_or, exists_eq_left,
        ← h.params]
      by_cases hm : fcgiType m = 4
      · simp [hm]
      · simp [hm]
  · constructor
    · intro hs
      rw [hstate] at hs
      exact absurd rfl hs
    · rw [hstate, hheads]
      simp [PpFcgiState.finish]

/-- All of the content lies in what is presented, so that its length decides. -/
theorem Tracked.copied_eq (h : f.Tracked) (hends : f.Ends) :
    ∃ m ∈ f.heads.getLast?, f.state.conlen = fcgiConlen m ∧ f.copied = fcgiConlen m - 2 := by
  obtain ⟨-, hs, hle⟩ := hends
  obtain ⟨m, hm, hconlen, hpadlen⟩ := h.body hs
  have hpad : 0 ≤ fcgiPadlen m := Int.natCast_nonneg _
  refine ⟨m, hm, hconlen, ?_⟩
  rw [PpFcgiState.body, hconlen, hpadlen] at hle
  rw [copied, hconlen]
  omega

/-- **One step** copies within the bounds if and only if the header of the body says so. -/
theorem Tracked.copyBounded_iff (h : f.Tracked) (a : FcgiStep) :
    f.CopyBounded a ↔ f.ParamsFit a := by
  cases a with
  | arrive bytes => exact Iff.rfl
  | present behind =>
    refine forall_congr' fun hends => ?_
    obtain ⟨m, hm, -, hcopied⟩ := h.copied_eq hends
    rw [h.params, hcopied]
    refine forall_congr' fun _ => ?_
    constructor
    · rintro ⟨h₀, hle⟩
      exact ⟨m, hm, by omega, by omega⟩
    · rintro ⟨m', hm', h₂, hle⟩
      obtain rfl : m = m' := Option.mem_unique hm hm'
      exact ⟨by omega, by omega⟩

/-- What is logged at the end of a body: as many bytes as that, and the rest of the stack. -/
theorem speakFcgi_copies (behind : List Byte) {t : List Byte} (hends : f.Ends)
    (hbody : 0 < f.state.body) (ht : f.state.streamType = some t)
    (hl : 0 ≤ f.state.conlen - 2 ∧ f.state.conlen - 2 ≤ 1024) :
    speakFcgi junk f.state s (f.left ++ behind) f.left.length role d =
      .ok (f.state.body, f.state.finish, [logbinSs .ppProp 0 t
        (cstr (((f.left ++ behind).drop 2).take f.copied.toNat ++ junk f.state))]) := by
  obtain ⟨hd, hs, hle⟩ := hends
  rw [speakFcgi, if_neg (not_not.2 hd), if_neg hs]
  simp only [cAssert_of hbody, ok_bind, if_pos hle, ht, inBounds_of hl]
  rfl

/-- A step that copies within the bounds does not run over the buffer. -/
theorem Tracked.step_post (h : f.Tracked) (hfit : f.ParamsFit a) :
    Post (f.step junk s role d a) Tracked (· ≠ .overrun) := by
  rcases hstep : f.step junk s role d a with e | f'
  · rintro rfl
    cases a with
    | arrive bytes => cases hstep
    | present behind =>
      rw [FcgiSide.step] at hstep
      split at hstep
      · cases hstep
      rcases hspeak : speakFcgi junk f.state s (f.left ++ behind) f.left.length role d with e | r
      · rw [hspeak] at hstep
        cases hstep
        obtain ⟨hd, hs, hle, hsome, hnot⟩ := speakFcgi_overrun hspeak
        obtain ⟨m, -, hconlen, hcopied⟩ := h.copied_eq ⟨hd, hs, hle⟩
        have hbound := (h.copyBounded_iff (.present behind)).2 hfit ⟨hd, hs, hle⟩ hsome
        omega
      · rw [hspeak] at hstep
        cases hstep
  · exact h.step hstep

end FcgiSide

/-! ## Streams -/

/-- **The copies.** For every stream, however it arrives and is presented: each copy at the end of a
body is of 0 to 1023 bytes, if and only if every body that ends behind a `PARAMS` header has 2 to
1025 bytes of content. -/
theorem copies_bounded_iff (junk : PpFcgiState → List Byte) (s : ℤ) (role : PpId)
    (d : PpDirection) (as : List FcgiStep) :
    Tried (FcgiSide.step junk s role d) .start as FcgiSide.CopyBounded ↔
      Tried (FcgiSide.step junk s role d) .start as FcgiSide.ParamsFit :=
  tried_iff (I := FcgiSide.Tracked) FcgiSide.tracked_start (fun _ a h => h.copyBounded_iff a)
    fun _ _ _ h _ hstep => h.step hstep

/-- A stream whose `PARAMS` records have these sizes does not run over the buffer. -/
theorem copies_in_bounds {as : List FcgiStep}
    (h : Tried (FcgiSide.step junk s role d) .start as FcgiSide.ParamsFit) :
    runSteps (FcgiSide.step junk s role d) .start as ≠ .error .overrun := by
  intro hrun
  have hpost : Post (runSteps (FcgiSide.step junk s role d) .start as) FcgiSide.Tracked
      (· ≠ .overrun) := h.post FcgiSide.tracked_start fun f a hf hfit => hf.step_post hfit
  rw [hrun] at hpost
  exact hpost rfl

/-- A `PARAMS` record with `n` bytes of content, below 65536, which comes in one piece. -/
def paramsRecord (n : ℕ) : List FcgiStep :=
  [.arrive ([1, 4, 0, 1, UInt8.ofNat (n / 256), UInt8.ofNat n, 0, 0] ++ List.replicate n 97),
    .present [], .present []]

/-- With one byte of content the number is negative. -/
theorem short_params_negative : ¬ Tried (FcgiSide.step (fun _ => []) 5 .fcgis .read) .start
    (paramsRecord 1) FcgiSide.CopyBounded := by
  intro h
  have hhead : runSteps (FcgiSide.step (fun _ => []) 5 .fcgis .read) .start
      ((paramsRecord 1).take 2) = .ok ⟨fcgiInit.header [1, 4, 0, 1, 0, 1, 0, 0], [97],
        [[1, 4, 0, 1, 0, 1, 0, 0]]⟩ := rfl
  have hcopy := h ((paramsRecord 1).take 2) (.present []) (List.prefix_refl _) _ hhead
  exact absurd (hcopy ⟨rfl, by decide, by decide⟩ rfl).1 (by decide)

end BorderPatrol.Trace
