import BorderPatrol.Trace.Receive

/-!
# Reading past a well-behaved processor

A processor is well behaved when it consumes at least one byte and no more than it was shown, and
when, having asked for more, it next consumes bytes beyond those it had asked on. Past such a
processor no call fails, the application gets the bytes of the kernel in order
(`read_transparent`), and no call mixes bytes of two of the processor's units
(`read_isolates_units`).
-/

namespace BorderPatrol.Trace

open Foundations

variable {σ : Type}

/-- The contract of `pp_read` on descriptor `s`, for a processor whose data stays in `I`. -/
structure WellBehaved (P : PpDispatcher σ) (s : ℤ) (I : σ → Prop) : Prop where
  answers : ∀ {d} {n : ℕ} (m : List Byte), I d → 0 < n → n ≤ m.length →
    ∃ a d' l, P.ppRead d s m n = .ok (a, d', l) ∧ I d' ∧ (a < 0 ∨ 1 ≤ a ∧ a ≤ n)
  exceeds : ∀ {d d' d'' a a' l l'} {n n' : ℕ} {m m' : List Byte}, I d →
    P.ppRead d s m n = .ok (a, d', l) → a < 0 → m.take n <+: m'.take n' →
    P.ppRead d' s m' n' = .ok (a', d'', l') → 0 ≤ a' → n < a'

/-- The processor is in a state where it has asked for more than the bytes `b`. -/
def Hungry (P : PpDispatcher σ) (s : ℤ) (I : σ → Prop) (d : σ) (b : List Byte) : Prop :=
  ∃ d₀ m a l, I d₀ ∧ P.ppRead d₀ s m b.length = .ok (a, d, l) ∧ a < 0 ∧ m.take b.length = b

/-- What is known between calls of a well-behaved processor. -/
def Waiting (P : PpDispatcher σ) (s : ℤ) (I : σ → Prop) : Observer σ := fun f w d _ =>
  I d ∧ (w ≠ 0 → ∃ b, b <+: f.pending ∧ f.goal = f.taken + b.length ∧ Hungry P s I d b)

variable {P : PpDispatcher σ} {s : ℤ} {I : σ → Prop}

theorem WellBehaved.serves (hP : WellBehaved P s I) :
    Serves P s (Waiting P s I) fun _ => False where
  arrive := by
    rintro f w d l c ht ⟨hd, hw⟩
    refine ⟨hd, fun hw' => ?_⟩
    obtain ⟨b, hb, hg, hh⟩ := hw hw'
    refine ⟨b, hb.trans ?_, hg, hh⟩
    rw [Flow.pending, Flow.pending, Flow.arrive, List.drop_append_of_le_length ht]
    exact List.prefix_append ..
  deliver := fun _ h => h
  iso := fun _ _ h => h
  read := by
    rintro f w d l m ⟨hd, hw⟩ - hg hw₀ hp - hm
    have hlen : f.pending.length ≤ m.length := by
      rw [← hm, List.length_take]
      omega
    obtain ⟨a, d', l', hr, hd', ha⟩ :=
      hP.answers m hd (List.length_pos_of_ne_nil hp) hlen
    refine Post.of_ok hr ?_
    rcases ha with ha | ⟨ha, ha'⟩
    · refine Or.inl ⟨ha, hd', fun _ => ⟨f.pending, List.prefix_refl _, ?_, d, m, a, l', hd, hr, ha,
        hm⟩⟩
      have hlen : 0 < f.pending.length := List.length_pos_of_ne_nil hp
      simp only [Flow.starve, Flow.pending, List.length_drop] at hlen ⊢
      omega
    · refine Or.inr (Or.inl ⟨?_, by simp only; omega, ha', hd', fun h => absurd rfl h⟩)
      simp only
      by_cases hw' : w = 0
      · have := hw₀ hw'
        omega
      · -- it had asked for more than `b`, all of which has been given
        obtain ⟨b, hb, hgoal, d₀, m₀, a₀, l₀, hd₀, hr₀, ha₀, hm₀⟩ := hw hw'
        have := hP.exceeds hd₀ hr₀ ha₀ (by rw [hm₀, hm]; exact hb) hr (by omega)
        omega

/-- **Read transparency.** Past a well-behaved processor, on a descriptor just opened, every
sequence of receive calls against every sequence of kernel answers goes through without a failed
assertion; what the application has been handed, followed by what the buffer holds for it, is what
the kernel returned; and the cursors keep their order. -/
theorem read_transparent (hP : WellBehaved P s I) (v₀ : Vfd σ) {d : σ} (hd : I d)
    (cs : List RecvCall) (hl : ∀ c ∈ cs, c.len < 2 ^ 31) :
    ∃ v gs, recvRun s (v₀.opened P d) cs = .ok (v, gs) ∧
      handed gs ++ v.rbuf.slice v.rlastlen.toNat (v.rbuflen - v.rlastlen).toNat =
        kernelBytes (traces gs) ∧
      0 ≤ v.rlastlen ∧ v.rbufofs ≤ v.rbuflen ∧ v.rbuflen ≤ vbufsize ∧ 0 ≤ v.tosend ∧
      v.rlastlen + v.tosend ≤ v.rbuflen := by
  have hT := tracks_opened (J := Waiting P s I) v₀ P (d := d) ⟨hd, fun h => absurd rfl h⟩
  obtain ⟨⟨v, gs⟩, hrun, f, hT, hm⟩ := (recvRun_spec hP.serves hl hT).total
  obtain ⟨base, hrep⟩ := hT.rep
  have hlen := hrep.len
  have hofs := hrep.ofs
  have hlast := hrep.last
  have hsend := hrep.send
  have hfits := hrep.fits
  have h₁ := hrep.last_nonneg
  have h₂ := hT.wf.given_le
  have h₃ := hT.wf.goal_le
  have h₄ := hT.wf.taken_le
  simp only at hlen hofs hlast hsend hfits
  refine ⟨v, gs, hrun, ?_, by omega, by omega, hfits, by omega, by omega⟩
  have hout : f.seen.take f.given = handed gs := by simpa [Flow.start] using hm.out
  have hseen : f.seen = kernelBytes (traces gs) := by simpa [Flow.start] using hm.seen
  rw [hrep.slice (by simp only; omega), List.take_of_length_le (by rw [List.length_drop]; omega),
    show base + v.rlastlen.toNat = f.given by omega, ← hout, ← hseen, f.given_append]

/-- A processor of two-byte units. -/
def pairsPp : PpDispatcher Unit where
  name := "pairs"
  ppInit := fun _ d => (d, [])
  ppShutdown := fun d => (d, [])
  ppRead := fun d _ _ n => .ok (if n < 2 then -1 else 2, d, [])
  ppWrite := fun d _ _ n => .ok (if n < 2 then -1 else 2, d, [])

theorem pairsPp_wellBehaved : WellBehaved pairsPp s fun _ => True where
  answers := by
    intro d n m _ hn _
    refine ⟨_, d, [], rfl, trivial, ?_⟩
    split <;> omega
  exceeds := by
    intro d d' d'' a a' l l' n n' m m' _ h ha _ h' ha'
    simp only [pairsPp, Except.ok.injEq, Prod.mk.injEq] at h h'
    split at h <;> split at h' <;> omega

theorem read_transparent_pairs :
    ∃ v gs, recvRun 3 ((Vfd.zero ()).opened pairsPp ()) [⟨.read, 1, .give [1, 2, 3]⟩,
        ⟨.recv, 5, .give [4]⟩, ⟨.recvfrom, 0, .give []⟩, ⟨.read, 9, .give [5]⟩] = .ok (v, gs) ∧
      handed gs ++ v.rbuf.slice v.rlastlen.toNat (v.rbuflen - v.rlastlen).toNat =
        kernelBytes (traces gs) ∧
      0 ≤ v.rlastlen ∧ v.rbufofs ≤ v.rbuflen ∧ v.rbuflen ≤ vbufsize ∧ 0 ≤ v.tosend ∧
      v.rlastlen + v.tosend ≤ v.rbuflen :=
  read_transparent pairsPp_wellBehaved _ trivial _ (by decide)

/-- **Message isolation.** Past a well-behaved processor, in every run of receive calls on a
descriptor just opened, no offset the processor consumes up to at any time of the run lies strictly
inside what one call gave the application. -/
theorem read_isolates_units (hP : WellBehaved P s I) (v₀ : Vfd σ) {d : σ} (hd : I d)
    (cs : List RecvCall) (hl : ∀ c ∈ cs, c.len < 2 ^ 31) :
    ∃ v gs, recvRun s (v₀.opened P d) cs = .ok (v, gs) ∧
      ∀ c ∈ cutsFrom 0 (traces gs), ∀ p ∈ spansFrom 0 gs, ¬ (p.1 < c ∧ c < p.2) := by
  have hT := tracks_opened (J := Waiting P s I) v₀ P (d := d) ⟨hd, fun h => absurd rfl h⟩
  obtain ⟨⟨v, gs⟩, hrun, f, hT, hm⟩ := (recvRun_spec hP.serves hl hT).total
  have hcuts : f.cuts = cutsFrom 0 (traces gs) := by simpa [Flow.start] using hm.cuts
  have hspans : f.spans = spansFrom 0 gs := by simpa [Flow.start] using hm.spans
  exact ⟨v, gs, hrun, hcuts ▸ hspans ▸ hT.wf.apart⟩

theorem read_isolates_units_pairs :
    ∃ v gs, recvRun 3 ((Vfd.zero ()).opened pairsPp ()) [⟨.read, 9, .give [1, 2, 3]⟩,
        ⟨.recv, 5, .give [4]⟩, ⟨.recvfrom, 5, .give [4]⟩] = .ok (v, gs) ∧
      ∀ c ∈ cutsFrom 0 (traces gs), ∀ p ∈ spansFrom 0 gs, ¬ (p.1 < c ∧ c < p.2) :=
  read_isolates_units pairsPp_wellBehaved _ trivial _ (by decide)

end BorderPatrol.Trace
