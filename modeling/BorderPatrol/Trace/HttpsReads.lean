import BorderPatrol.Trace.Protocol.Https
import BorderPatrol.Trace.Receive

/-!
# HTTP requests read past `pp_https`

What an application reads on a descriptor with the processor `https` is a prefix of what the kernel
returned, in every run that no assertion ends (`https_handed_prefix`). But `pp_https_read` searches
beyond the bytes it is given: where bytes of an earlier request, left in the buffer, complete the
end of a header, it claims them too, and the assertion of `read` fails. It answers for its own
bytes, in a whole run, exactly when the end of a header found at a presentation always lies within
the bytes presented (`https_reads_iff`).
-/

namespace BorderPatrol.Trace

open Foundations

variable {σ : Type}

/-! ## What `pp_https_read` returns -/

variable {heap : ℤ → List Byte} {s : ℤ}

/-- The processor answers for the bytes it is given: it returns no more than their number, and what
it does is what it does on these bytes alone. -/
def OwnBytes (P : PpDispatcher σ) (s : ℤ) (p : Presentation σ) : Prop :=
  (∀ a d l, P.ppRead p.data s p.mem p.len = .ok (a, d, l) → a ≤ p.len) ∧
    P.ppRead p.data s p.mem p.len = P.ppRead p.data s (p.mem.take p.len.toNat ++ [0]) p.len

/-- When a header is awaited, the end of a header that `strstr` finds lies within the bytes given.
-/
def HeaderWithin (p : Presentation PpHttpState) : Prop :=
  p.data.read.done ≠ 0 ∨ p.data.read.awaitHeader = 0 ∨
    ∀ i, strstr headerEnd p.mem = some i → i + 4 ≤ p.len

/-- After a header the processor returns its length, and is done or awaits another. -/
theorem httpsHeader_spec {state : PpHttpStateRead} {m : List Byte} {len : ℤ} {i : ℕ} :
    Post (httpsHeader heap state s m len i)
      (fun r => r.1 = i + 4 ∧ (r.2.1.done = 0 → r.2.1.awaitHeader ≠ 0))
      (fun e => e = .nullPointer ∨ e = .assertion) := by
  unfold httpsHeader
  dsimp only
  split
  · exact Or.inl rfl
  · split
    · exact ⟨rfl, fun h => absurd h (by simp)⟩
    · split
      · exact ⟨rfl, fun _ => by simp⟩
      · exact Or.inr rfl

section Cases

variable {d : PpHttpState} {m : List Byte} {len : ℤ}

theorem ppHttpsRead_done (hd : d.read.done ≠ 0) :
    ppHttpsRead heap d s m len = .ok (len, d, []) := by
  rw [ppHttpsRead]
  dsimp only
  rw [if_pos hd]
  rfl

theorem ppHttpsRead_none (hd : d.read.done = 0) (ha : d.read.awaitHeader ≠ 0)
    (hm : strstr headerEnd m = none) : ppHttpsRead heap d s m len = .ok (-1, d, []) := by
  rw [ppHttpsRead]
  dsimp only
  rw [if_neg (not_not.2 hd), if_pos ha, hm]
  rfl

theorem ppHttpsRead_some (hd : d.read.done = 0) (ha : d.read.awaitHeader ≠ 0) {i : ℕ}
    (hm : strstr headerEnd m = some i) : ppHttpsRead heap d s m len =
      httpsHeader heap d.read s m len i >>=
        fun r => .ok (r.1, { d with read := r.2.1 }, r.2.2) := by
  rw [ppHttpsRead]
  dsimp only
  rw [if_neg (not_not.2 hd), if_pos ha, hm]
  rfl

theorem ppHttpsRead_idle (hd : d.read.done = 0) (ha : d.read.awaitHeader = 0) :
    ppHttpsRead heap d s m len = cAssert (0 < d.read.toread) >>= fun _ => .ok (-1, d, []) := by
  rw [ppHttpsRead]
  dsimp only
  rw [if_neg (not_not.2 hd), if_neg (not_not.2 ha)]
  rfl

end Cases

/-- No memory that begins with `b` has the end of a header inside `b`. -/
def Headless (b : List Byte) : Prop := ∀ c i, strstr headerEnd (b ++ c) = some i → b.length < i + 4

theorem headless_of_none {m : List Byte} {n : ℕ} (hn : n ≤ m.length)
    (hm : strstr headerEnd m = none) : Headless (m.take n) := by
  intro c i hi
  by_contra hle
  have hlen : (m.take n).length = n := by rw [List.length_take]; omega
  have h : strstr headerEnd m = some i := by
    refine strstr_congr (by decide) hi ?_
    have hend : headerEnd.length = 4 := rfl
    rw [List.take_append_of_le_length (by omega), List.take_take, Nat.min_eq_left (by omega)]
  rw [hm] at h
  cases h

/-- What holds between calls: a header is awaited unless the processor is done, and when it wants
more, what it has asked on holds no header. -/
def Awaiting : Observer PpHttpState := fun f w d _ =>
  (d.read.done = 0 → d.read.awaitHeader ≠ 0) ∧
    (w ≠ 0 → d.read.done = 0 ∧ ∃ b, b <+: f.pending ∧ f.goal = f.taken + b.length ∧ Headless b)

/-- The faults a run of receive calls on `https` can end with. -/
def HttpsFault (e : Fault) : Prop := e = .nullPointer ∨ e = .assertion ∨ e = .overrun

variable {write : PpHttpState → ℤ → List Byte → ℤ → Except Fault (ℤ × PpHttpState × List LogCall)}

theorem https_serves : Serves (ppHttps heap write) s Awaiting HttpsFault where
  arrive := by
    rintro f w d l c ht ⟨ha, hw⟩
    refine ⟨ha, fun hw' => ?_⟩
    obtain ⟨hd, b, hb, hg, hh⟩ := hw hw'
    refine ⟨hd, b, hb.trans ?_, hg, hh⟩
    rw [Flow.pending, Flow.pending, Flow.arrive, List.drop_append_of_le_length ht]
    exact List.prefix_append ..
  deliver := fun _ h => h
  iso := fun _ _ h => h
  read := by
    rintro f w d l m ⟨ha, hw⟩ - hg hw₀ hp - hm
    have hpos : 0 < f.pending.length := List.length_pos_of_ne_nil hp
    have hlen : f.pending.length ≤ m.length := by
      rw [← hm, List.length_take]
      omega
    change Post (ppHttpsRead heap d s m f.pending.length) _ _
    by_cases hd : d.read.done = 0
    · have hah := ha hd
      rcases hstr : strstr headerEnd m with _ | i
      · -- no header yet
        rw [ppHttpsRead_none hd hah hstr]
        refine Or.inl ⟨by simp only; omega, ha,
          fun _ => ⟨hd, f.pending, List.prefix_refl _, ?_, ?_⟩⟩
        · simp only [Flow.starve, Flow.pending, List.length_drop] at hpos ⊢
          omega
        · have := headless_of_none hlen hstr
          rwa [hm] at this
      · rw [ppHttpsRead_some hd hah hstr]
        refine (httpsHeader_spec.mono_error fun e he => ?_).bind ?_
        · rcases he with rfl | rfl
          · exact Or.inl rfl
          · exact Or.inr (Or.inl rfl)
        rintro ⟨a, state, l'⟩ ⟨rfl, hst⟩
        by_cases hwithin : i + 4 ≤ f.pending.length
        · refine Or.inr (Or.inl ⟨?_, by simp only; omega, by simp only; omega, hst,
            fun h => absurd rfl h⟩)
          simp only
          by_cases hw' : w = 0
          · have := hw₀ hw'
            omega
          · -- what it had asked on holds no header
            obtain ⟨-, b, ⟨c, hbc⟩, hgoal, hh⟩ := hw hw'
            have hm' : m = b ++ (c ++ m.drop f.pending.length) := by
              rw [← List.append_assoc, hbc, ← hm, List.length_take, Nat.min_eq_left hlen,
                List.take_append_drop]
            have := hh _ i (hm' ▸ hstr)
            omega
        · refine Or.inr (Or.inr ⟨by simp only; omega, Or.inr (Or.inl rfl), Or.inr (Or.inr rfl)⟩)
    · rw [ppHttpsRead_done hd]
      refine Or.inr (Or.inl ⟨?_, by simp only; omega, by simp only; omega, fun h => absurd h hd,
        fun h => absurd rfl h⟩)
      simp only
      by_cases hw' : w = 0
      · have := hw₀ hw'
        omega
      · exact absurd (hw hw').1 hd

/-- **What the application is handed** on a descriptor with the processor `https` is a prefix of
what the kernel returned, in every run that goes through. -/
theorem https_handed_prefix {u v : Vfd PpHttpState} {x : PpHttpState} {cs : List RecvCall}
    {gs : List (Got PpHttpState)} (hl : ∀ c ∈ cs, c.len < 2 ^ 31)
    (hrun : recvRun s (u.accepted (ppHttps heap write) s x) cs = .ok (v, gs)) :
    handed gs <+: kernelBytes (traces gs) := by
  have hT := tracks_opened (J := Awaiting) u (ppHttps heap write)
    (d := ((ppHttps heap write).ppInit s x).1)
    ⟨fun _ => by simp [ppHttps, ppHttpsInit], fun h => absurd rfl h⟩
  obtain ⟨f, -, hm⟩ := (recvRun_spec https_serves hl hT).of_eq_ok hrun
  have hout : f.seen.take f.given = handed gs := by simpa [Flow.start] using hm.out
  have hseen : f.seen = kernelBytes (traces gs) := by simpa [Flow.start] using hm.seen
  rw [← hout, ← hseen]
  exact List.take_prefix ..

/-! ## The exact condition -/

theorem httpsHeader_take (state : PpHttpStateRead) (m : List Byte) (len : ℤ) (i : ℕ)
    (hm : len ≤ m.length) :
    httpsHeader heap state s (m.take len.toNat ++ [0]) len i =
      httpsHeader heap state s m len i := by
  have htake : (m.take len.toNat ++ [0]).take len.toNat = m.take len.toNat := by
    rw [List.take_append_of_le_length (by rw [List.length_take]; omega), List.take_take,
      Nat.min_self]
  rw [httpsHeader, httpsHeader, htake]

/-- On the bytes alone `strstr` finds what it finds in the memory, if that is within them. -/
theorem strstr_take {m : List Byte} {n i : ℕ} (hm : n ≤ m.length) :
    strstr headerEnd (m.take n ++ [0]) = some i ↔ strstr headerEnd m = some i ∧ i + 4 ≤ n := by
  have hlen : (m.take n).length = n := by rw [List.length_take]; omega
  have h4 : headerEnd.length = 4 := rfl
  have htake : i + 4 ≤ n → (m.take n ++ [0]).take (i + headerEnd.length) =
      m.take (i + headerEnd.length) := by
    intro hle
    rw [List.take_append_of_le_length (by omega), List.take_take, Nat.min_eq_left (by omega)]
  constructor
  · intro h
    have hle := strstr_terminated (by decide) (by decide) h
    rw [hlen, h4] at hle
    exact ⟨strstr_congr (by decide) h (htake hle).symm, hle⟩
  · rintro ⟨h, hle⟩
    exact strstr_congr (by decide) h (htake hle)

/-- **One presentation.** The processor answers for the bytes it is given if and only if the end of
a header it finds, when it awaits one, lies within them. -/
theorem ownBytes_iff {p : Presentation PpHttpState} (hlen : 0 ≤ p.len)
    (hm : p.len ≤ p.mem.length) : OwnBytes (ppHttps heap write) s p ↔ HeaderWithin p := by
  have hm' : p.len.toNat ≤ p.mem.length := by omega
  simp only [OwnBytes, HeaderWithin, ppHttps]
  by_cases hd : p.data.read.done = 0
  · by_cases ha : p.data.read.awaitHeader = 0
    · simp only [ppHttpsRead_idle hd ha, ha, true_or, or_true, and_true, iff_true]
      intro a d l h
      simp only [cAssert, Bind.bind, Except.bind] at h
      split at h
      · cases h
      · cases h
        omega
    · simp only [hd, ha, ne_eq, not_true_eq_false, false_or]
      rcases hstr : strstr headerEnd p.mem with _ | i
      · -- nothing is found, in the memory or in the bytes alone
        have hnone : strstr headerEnd (p.mem.take p.len.toNat ++ [0]) = none := by
          rw [Option.eq_none_iff_forall_not_mem]
          intro i hi
          rw [Option.mem_def, strstr_take hm', hstr] at hi
          cases hi.1
        rw [ppHttpsRead_none hd ha hstr, ppHttpsRead_none hd ha hnone]
        simp only [reduceCtorEq, false_implies, implies_true, and_true, iff_true]
        intro a d l h
        cases h
        omega
      · have hret : ∀ a d l, ppHttpsRead heap p.data s p.mem p.len = .ok (a, d, l) → a = i + 4 := by
          intro a d l h
          have hpost : Post (ppHttpsRead heap p.data s p.mem p.len) (fun r => r.1 = i + 4)
              fun _ => True := by
            rw [ppHttpsRead_some hd ha hstr]
            exact (httpsHeader_spec.mono_error fun _ _ => trivial).bind fun r hr => hr.1
          exact hpost.of_eq_ok h
        by_cases hle : i + 4 ≤ p.len
        · have hsome := (strstr_take hm').2 ⟨hstr, show i + 4 ≤ p.len.toNat by omega⟩
          have hwithin : ∀ j, some i = some j → (j : ℤ) + 4 ≤ p.len := by
            rintro j ⟨⟩
            exact hle
          refine iff_of_true ⟨fun a d l h => ?_, ?_⟩ hwithin
          · rw [hret a d l h]
            exact hle
          · rw [ppHttpsRead_some hd ha hstr, ppHttpsRead_some hd ha hsome,
              httpsHeader_take _ _ _ _ hm]
        · -- on the bytes alone more would be asked for
          have hnone : strstr headerEnd (p.mem.take p.len.toNat ++ [0]) = none := by
            rw [Option.eq_none_iff_forall_not_mem]
            intro j hj
            rw [Option.mem_def, strstr_take hm', hstr] at hj
            obtain ⟨⟨⟩, hj⟩ := hj
            omega
          refine iff_of_false ?_ fun h => hle (h i rfl)
          rintro ⟨-, h⟩
          rw [ppHttpsRead_none hd ha hnone] at h
          have := hret _ _ _ h
          omega
  · simp only [ppHttpsRead_done hd, hd, ne_eq, not_false_eq_true, true_or, and_true, iff_true]
    intro a d l h
    cases h
    exact Int.le_refl _

/-- A presentation comes with its valid bytes. -/
def Presentation.Sound (p : Presentation σ) : Prop := 0 ≤ p.len ∧ p.len ≤ p.mem.length

theorem Rep.presentation_sound {v : Vfd σ} {f : Flow Byte} {base : ℕ} (h : Rep v f base)
    (hf : f.Wf) : v.presentation.Sound := by
  have h₁ := h.len
  have h₂ := h.ofs
  have h₃ := h.ofs_nonneg
  have h₄ := h.fits
  have h₅ := hf.taken_le
  have h₆ := hf.goal_le
  simp only [Presentation.Sound, Vfd.presentation, Vfd.rwindow, List.length_append,
    Mem.length_slice, length_intBytes]
  omega

variable {P : PpDispatcher σ} {J : Observer σ} {E : Fault → Prop}

theorem fetchPresents_sound {v : Vfd σ} {f : Flow Byte} {base : ℕ} (h : Rep v f base) (hf : f.Wf)
    (k : Kernel) : ∀ p ∈ fetchPresents v k, p.Sound := by
  obtain ⟨v', b, r, ev, base', hfetch, -, -, hrep, -⟩ := fetch_spec h hf 0 k
  intro p hp
  simp only [fetchPresents, hfetch] at hp
  split at hp
  · cases hp
  · obtain rfl := List.mem_singleton.1 hp
    exact hrep.presentation_sound (hf.arrive b)

theorem callPresents_sound (hP : Serves P s J E) {v : Vfd σ} {f : Flow Byte} {l : List LogCall}
    (hT : Tracks P J v f l) (c : RecvCall) : ∀ p ∈ callPresents v s c, p.Sound := by
  obtain ⟨base, hrep⟩ := hT.rep
  have hsend := hrep.send
  have hlen := hrep.len
  have hofs := hrep.ofs
  intro p hp
  unfold callPresents at hp
  split at hp
  · cases hp
  · next hts =>
    split at hp
    · next hpres =>
      have hunit := hT.unit hpres.2
      have hpp := presentPp_spec hP hT.disp hrep hT.wf hT.obs (by omega) hT.unit (by omega)
      rcases List.mem_cons.1 hp with rfl | hp
      · exact hrep.presentation_sound hT.wf
      · -- after a presentation there is something for the application
        rcases hpr : presentPp v s with e | ⟨v₁, tr⟩
        · rw [hpr] at hp
          cases hp
        · rw [hpr] at hp hpp
          have hne : v₁.tosend ≠ 0 := by
            rcases hpp with ⟨f', hT', -, hlt⟩ | hov
            · obtain ⟨base', hrep'⟩ := hT'.rep
              have := hrep'.send
              simp only at this
              omega
            · exact hov.2.1
          simp only [hne, ne_eq, not_false_eq_true, if_true] at hp
          cases hp
    · exact fetchPresents_sound hrep hT.wf c.kernel p hp

theorem runPresents_sound (hP : Serves P s J E) {cs : List RecvCall}
    (hl : ∀ c ∈ cs, c.len < 2 ^ 31) {v : Vfd σ} {f : Flow Byte} {l : List LogCall}
    (hT : Tracks P J v f l) : ∀ p ∈ runPresents s v cs, p.Sound := by
  induction cs generalizing v f l with
  | nil => exact fun p hp => absurd hp (by simp [runPresents])
  | cons c cs ih =>
    intro p hp
    rcases List.mem_append.1 hp with hp | hp
    · exact callPresents_sound hP hT c p hp
    · rcases hone : recvOne v s c with e | g
      · rw [hone] at hp
        cases hp
      · rw [hone] at hp
        obtain ⟨f₁, hT₁, -⟩ := (recvOne_spec hP hT (hl c (by simp))).of_eq_ok hone
        exact ih (fun c hc => hl c (by simp [hc])) hT₁ p hp

/-- **HTTP server transparency over whole runs.** On a descriptor just accepted with the processor
`https`, what the application is handed is a prefix of what the kernel returned and the processor
answers for its own bytes at every presentation, if and only if at every presentation the end of a
header it finds, when it awaits one, lies within the bytes presented. -/
theorem https_reads_iff (u : Vfd PpHttpState) (x : PpHttpState) (cs : List RecvCall)
    (hl : ∀ c ∈ cs, c.len < 2 ^ 31) :
    ((∀ v gs, recvRun s (u.accepted (ppHttps heap write) s x) cs = .ok (v, gs) →
        handed gs <+: kernelBytes (traces gs)) ∧
      ∀ p ∈ runPresents s (u.accepted (ppHttps heap write) s x) cs,
        OwnBytes (ppHttps heap write) s p) ↔
    ∀ p ∈ runPresents s (u.accepted (ppHttps heap write) s x) cs, HeaderWithin p := by
  have hT := tracks_opened (J := Awaiting) u (ppHttps heap write)
    (d := ((ppHttps heap write).ppInit s x).1)
    ⟨fun _ => by simp [ppHttps, ppHttpsInit], fun h => absurd rfl h⟩
  have hsound := runPresents_sound (s := s) https_serves hl hT
  constructor
  · rintro ⟨-, h⟩ p hp
    exact (ownBytes_iff (hsound p hp).1 (hsound p hp).2).1 (h p hp)
  · intro h
    refine ⟨fun v gs => https_handed_prefix hl, fun p hp => ?_⟩
    exact (ownBytes_iff (hsound p hp).1 (hsound p hp).2).2 (h p hp)

/-- A processor `https` that takes whatever is written. -/
def httpsTaking : PpDispatcher PpHttpState := ppHttps (fun _ => [0]) fun d _ _ n => .ok (n, d, [])

/-- Two requests, the second in two pieces of which only the first has come. -/
def twoRequests : List RecvCall :=
  [⟨.read, 100, .give (ascii "GET / HTTP/1.1\r\n\r\n")⟩,
    ⟨.read, 100, .give (ascii "GET / HTTP/1.1\r")⟩]

theorem https_reads_iff_twoRequests :
    ((∀ v gs, recvRun 3 ((Vfd.zero default).accepted httpsTaking 3 default) twoRequests =
        .ok (v, gs) → handed gs <+: kernelBytes (traces gs)) ∧
      ∀ p ∈ runPresents 3 ((Vfd.zero default).accepted httpsTaking 3 default) twoRequests,
        OwnBytes httpsTaking 3 p) ↔
    ∀ p ∈ runPresents 3 ((Vfd.zero default).accepted httpsTaking 3 default) twoRequests,
      HeaderWithin p :=
  https_reads_iff _ _ twoRequests (by decide)

/-- The processor claims more bytes than it was given. -/
def overclaims (p : Presentation PpHttpState) : Bool :=
  match httpsTaking.ppRead p.data 3 p.mem p.len with
  | .ok r => p.len < r.1
  | .error _ => false

/-- The last three bytes of the first request complete the second: of its 15 bytes `pp_https_read`
claims 18. -/
theorem first_request_completes_second :
    ¬ ((∀ v gs, recvRun 3 ((Vfd.zero default).accepted httpsTaking 3 default) twoRequests =
          .ok (v, gs) → handed gs <+: kernelBytes (traces gs)) ∧
        ∀ p ∈ runPresents 3 ((Vfd.zero default).accepted httpsTaking 3 default) twoRequests,
          OwnBytes httpsTaking 3 p) := by
  rintro ⟨-, h⟩
  have hany : (runPresents 3 ((Vfd.zero default).accepted httpsTaking 3 default) twoRequests).any
      overclaims = true := by
    decide +kernel
  obtain ⟨p, hp, hover⟩ := List.any_eq_true.1 hany
  rcases hread : httpsTaking.ppRead p.data 3 p.mem p.len with e | ⟨a, d, l⟩
  · simp [overclaims, hread] at hover
  · have hle := (h p hp).1 a d l hread
    simp only [overclaims, hread, decide_eq_true_eq] at hover
    omega

end BorderPatrol.Trace
