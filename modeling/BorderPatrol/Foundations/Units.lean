import BorderPatrol.Foundations.Resumable

/-!
# Parsers of whole units and skipped bodies

The usual resumable parser is given by what it wants in each state: a unit of a fixed number of
items, which it waits for and reads at once; or a number of items to be skipped, which it takes as
they come; or everything; or nothing, when it is stuck. Such a parser is lawful (`unitStep_lawful`)
when its units are not empty and when skipping in pieces leads where skipping at once does.
-/

namespace Foundations.Resumable

variable {σ α ε : Type*}

/-- What a parser wants next. -/
inductive Want (σ α ε : Type*)
  /-- `k` items at once, and what it makes of them -/
  | whole (k : ℕ) (f : List α → σ × List ε)
  /-- up to `k` items, and where it is after `n` of them -/
  | skip (k : ℕ) (f : ℕ → σ)
  /-- everything, staying where it is -/
  | sink
  /-- nothing it could be given -/
  | stuck

/-- The step of a parser that wants `want s` in state `s`. -/
def unitStep (want : σ → Want σ α ε) : Step σ α ε := fun s b =>
  match want s with
  | .whole k f => if b.length < k then none else some (k, f (b.take k))
  | .skip k f => some (min b.length k, f (min b.length k), [])
  | .sink => some (b.length, s, [])
  | .stuck => none

/-- Units are not empty, and skipping may be interrupted. -/
structure Coherent (want : σ → Want σ α ε) : Prop where
  whole : ∀ {s k f}, want s = .whole k f → 1 ≤ k
  skip : ∀ {s k f}, want s = .skip k f → 1 ≤ k
  resume : ∀ {s k f j}, want s = .skip k f → 1 ≤ j → j < k →
    want (f j) = .skip (k - j) fun i => f (j + i)

variable {want : σ → Want σ α ε} {s : σ} {k : ℕ} {b c : List α}

theorem unitStep_whole {f : List α → σ × List ε} (h : want s = .whole k f) (hb : k ≤ b.length) :
    unitStep want s b = some (k, f (b.take k)) := by
  simp only [unitStep, h, Nat.not_lt.2 hb, if_false]

theorem unitStep_wait {f : List α → σ × List ε} (h : want s = .whole k f) (hb : b.length < k) :
    unitStep want s b = none := by
  simp only [unitStep, h, hb, if_true]

theorem unitStep_skip {f : ℕ → σ} (h : want s = .skip k f) (b : List α) :
    unitStep want s b = some (min b.length k, f (min b.length k), []) := by
  simp only [unitStep, h]

theorem unitStep_sink (h : want s = .sink) (b : List α) :
    unitStep want s b = some (b.length, s, []) := by
  simp only [unitStep, h]

theorem unitStep_stuck (h : want s = .stuck) (b : List α) : unitStep want s b = none := by
  simp only [unitStep, h]

/-- **A coherent parser of units is lawful.** -/
theorem unitStep_lawful (hw : Coherent want) : Lawful (unitStep want) where
  bounds := by
    intro s b k s' e hb h
    have hpos : 0 < b.length := List.length_pos_of_ne_nil hb
    rcases hx : want s with ⟨n, f⟩ | ⟨n, f⟩ | _ | _
    · have hn := hw.whole hx
      simp only [unitStep, hx] at h
      split at h
      · cases h
      · simp only [Option.some.injEq, Prod.mk.injEq] at h
        omega
    · have hn := hw.skip hx
      simp only [unitStep, hx, Option.some.injEq, Prod.mk.injEq] at h
      omega
    · simp only [unitStep, hx, Option.some.injEq, Prod.mk.injEq] at h
      omega
    · simp [unitStep, hx] at h
  exceeds := by
    intro s b c k s' e hb hnone hsome
    rcases hx : want s with ⟨n, f⟩ | ⟨n, f⟩ | _ | _
    · simp only [unitStep, hx] at hnone hsome
      split at hnone
      · split at hsome
        · cases hsome
        · simp only [Option.some.injEq, Prod.mk.injEq] at hsome
          omega
      · cases hnone
    · simp [unitStep, hx] at hnone
    · simp [unitStep, hx] at hnone
    · simp [unitStep, hx] at hsome
  extend := by
    intro s b k s' e c hb hc h
    have hpos : 0 < b.length := List.length_pos_of_ne_nil hb
    rcases hx : want s with ⟨n, f⟩ | ⟨n, f⟩ | _ | _
    · -- a unit that is there stays there
      left
      simp only [unitStep, hx] at h ⊢
      split at h
      · cases h
      · rw [if_neg (by rw [List.length_append]; omega), List.take_append_of_le_length (by omega)]
        exact h
    · rw [unitStep_skip hx] at h
      simp only [Option.some.injEq, Prod.mk.injEq] at h
      obtain ⟨rfl, rfl, rfl⟩ := h
      rw [unitStep_skip hx, List.length_append]
      by_cases hn : n ≤ b.length
      · -- all that is to be skipped was there
        left
        rw [Nat.min_eq_right hn, Nat.min_eq_right (by omega)]
      · right
        have hmin : min b.length n = b.length := by omega
        have hr := hw.resume hx (j := b.length) hpos (by omega)
        refine ⟨hmin, min c.length (n - b.length), f (b.length + min c.length (n - b.length)), [],
          ?_, ?_⟩
        · rw [hmin, unitStep_skip hr]
        · rw [show min (b.length + c.length) n = b.length + min c.length (n - b.length) by omega,
            List.append_nil]
    · right
      rw [unitStep_sink hx] at h
      simp only [Option.some.injEq, Prod.mk.injEq] at h
      obtain ⟨rfl, rfl, rfl⟩ := h
      exact ⟨rfl, c.length, s, [], unitStep_sink hx c, by
        rw [unitStep_sink hx, List.length_append, List.append_nil]⟩
    · simp [unitStep, hx] at h

/-- A parser of units counts when its units do and what it skips is not counted. -/
theorem unitStep_counts {number : σ → ε} {next : ε → ε}
    (hwhole : ∀ s k f b, want s = .whole k f →
      (f b).2 = [] ∧ number (f b).1 = number s ∨
        (f b).2 = [number s] ∧ number (f b).1 = next (number s))
    (hskip : ∀ s k f n, want s = .skip k f → number (f n) = number s) :
    Counts (unitStep want) number next := by
  intro s b k s' e h
  rcases hx : want s with ⟨n, f⟩ | ⟨n, f⟩ | _ | _
  · simp only [unitStep, hx] at h
    split at h
    · cases h
    · simp only [Option.some.injEq, Prod.mk.injEq] at h
      obtain ⟨rfl, hf⟩ := h
      have hcounts := hwhole s n f (b.take n) hx
      rwa [hf] at hcounts
  · rw [unitStep_skip hx] at h
    cases h
    exact .inl ⟨rfl, hskip s n f _ hx⟩
  · rw [unitStep_sink hx] at h
    cases h
    exact .inl ⟨rfl, rfl⟩
  · rw [unitStep_stuck hx] at h
    cases h

/-! ## Draining -/

/-- A unit that is there is read, then the rest is drained. -/
theorem drain_whole (hw : Coherent want) {f : List α → σ × List ε} (h : want s = .whole k f)
    (hb : b.length = k) :
    drain (unitStep want) s (b ++ c) = (drain (unitStep want) (f b).1 c).after (f b).2 := by
  have hk := hw.whole h
  have hstep := unitStep_whole (b := b ++ c) h (by rw [List.length_append]; omega)
  rw [List.take_left' hb] at hstep
  rw [drain_of_some (unitStep_lawful hw) (List.ne_nil_of_length_pos
    (by rw [List.length_append]; omega)) hstep, List.drop_left' hb]

/-- Items to be skipped that are there are skipped, then the rest is drained. -/
theorem drain_skip (hw : Coherent want) {f : ℕ → σ} (h : want s = .skip k f)
    (hb : b.length = k) :
    drain (unitStep want) s (b ++ c) = drain (unitStep want) (f k) c := by
  have hk := hw.skip h
  have hstep := unitStep_skip h (b ++ c)
  rw [List.length_append, Nat.min_eq_right (by omega)] at hstep
  rw [drain_of_some (unitStep_lawful hw) (List.ne_nil_of_length_pos
    (by rw [List.length_append]; omega)) hstep, List.drop_left' hb, Result.after_nil]

/-- A parser that takes everything leaves nothing. -/
theorem drain_sink (hw : Coherent want) (h : want s = .sink) (b : List α) :
    drain (unitStep want) s b = ⟨s, [], []⟩ := by
  by_cases hb : b = []
  · subst hb
    rfl
  · rw [drain_of_some (unitStep_lawful hw) hb (unitStep_sink h b), List.drop_length, drain_nil,
      Result.after_nil]

theorem drain_stuck (h : want s = .stuck) (b : List α) :
    drain (unitStep want) s b = ⟨s, b, []⟩ := drain_of_none (unitStep_stuck h b)

theorem drain_wait {f : List α → σ × List ε} (h : want s = .whole k f) (hb : b.length < k) :
    drain (unitStep want) s b = ⟨s, b, []⟩ := drain_of_none (unitStep_wait h hb)

/-! ## Where the units begin -/

/-- What the parser wants, keeping the offset in the stream beside its state: each event comes with
the offset where its unit begins. When everything is taken no unit begins any more. -/
def Want.located (want : σ → Want σ α ε) (s : σ × ℕ) : Want (σ × ℕ) α (ℕ × ε) :=
  match want s.1 with
  | .whole k f => .whole k fun b => (((f b).1, s.2 + k), (f b).2.map fun e => (s.2, e))
  | .skip k f => .skip k fun n => (f n, s.2 + n)
  | .sink => .sink
  | .stuck => .stuck

theorem Want.located_coherent (hw : Coherent want) : Coherent (Want.located want) where
  whole := by
    intro s k f h
    rcases hx : want s.1 with ⟨n, g⟩ | ⟨n, g⟩ | _ | _ <;> simp only [Want.located, hx] at h <;>
      cases h
    exact hw.whole hx
  skip := by
    intro s k f h
    rcases hx : want s.1 with ⟨n, g⟩ | ⟨n, g⟩ | _ | _ <;> simp only [Want.located, hx] at h <;>
      cases h
    exact hw.skip hx
  resume := by
    intro s k f j h hj hjk
    rcases hx : want s.1 with ⟨n, g⟩ | ⟨n, g⟩ | _ | _ <;> simp only [Want.located, hx] at h <;>
      cases h
    simp only [Want.located, hw.resume hx hj hjk, Nat.add_assoc]

/-- What the parser does, the parser that keeps the offset does. -/
theorem unitStep_located {o : ℕ} (b : List α) (hsink : want s ≠ .sink) :
    unitStep (Want.located want) (s, o) b = (unitStep want s b).map fun r =>
      (r.1, (r.2.1, o + r.1), r.2.2.map fun e => (o, e)) := by
  rcases hx : want s with ⟨k, f⟩ | ⟨k, f⟩ | _ | _
  · simp only [unitStep, Want.located, hx]
    split <;> rfl
  · simp only [unitStep, Want.located, hx]
    rfl
  · exact absurd hx hsink
  · simp only [unitStep, Want.located, hx]
    rfl

/-- No unit read later begins before the offset. -/
theorem drain_located_ge (hw : Coherent want) (s : σ) (o : ℕ) (b : List α) :
    ∀ e ∈ (drain (unitStep (Want.located want)) (s, o) b).out, o ≤ e.1 := by
  have hl := unitStep_lawful (Want.located_coherent hw)
  induction hn : b.length using Nat.strongRecOn generalizing s o b with
  | ind n ih =>
    by_cases hb : b = []
    · subst hb
      exact fun e he => absurd he List.not_mem_nil
    rcases hx : unitStep (Want.located want) (s, o) b with _ | ⟨k, ⟨s', o'⟩, out⟩
    · rw [drain_of_none hx]
      exact fun e he => absurd he List.not_mem_nil
    have hk := hl.bounds hb hx
    rw [drain_of_some hl hb hx, Result.after_out]
    have hout : o ≤ o' ∧ ∀ e ∈ out, o ≤ e.1 := by
      rcases hs : want s with ⟨m, f⟩ | ⟨m, f⟩ | _ | _
      · rw [unitStep_located b (by simp [hs]), unitStep, hs] at hx
        dsimp only at hx
        split at hx
        · cases hx
        · cases hx
          refine ⟨Nat.le_add_right .., fun e he => ?_⟩
          obtain ⟨-, -, rfl⟩ := List.mem_map.1 he
          exact Nat.le_refl _
      · rw [unitStep_located b (by simp [hs]), unitStep, hs] at hx
        cases hx
        exact ⟨Nat.le_add_right .., fun e he => absurd he List.not_mem_nil⟩
      · rw [unitStep_sink (by simp only [Want.located, hs])] at hx
        cases hx
        exact ⟨Nat.le_refl _, fun e he => absurd he List.not_mem_nil⟩
      · rw [unitStep_stuck (by simp only [Want.located, hs])] at hx
        cases hx
    intro e he
    rcases List.mem_append.1 he with he | he
    · exact hout.2 e he
    · exact Nat.le_trans hout.1 (ih _ (by rw [List.length_drop]; omega) s' o' _ rfl e he)

/-- The offset counts the items taken. -/
theorem drain_located_off (hw : Coherent want) (hsink : ∀ s, want s ≠ .sink) (s : σ) (o : ℕ)
    (b : List α) : (drain (unitStep (Want.located want)) (s, o) b).state.2 +
      (drain (unitStep (Want.located want)) (s, o) b).rest.length = o + b.length := by
  have hl := unitStep_lawful (Want.located_coherent hw)
  induction hn : b.length using Nat.strongRecOn generalizing s o b with
  | ind n ih =>
    by_cases hb : b = []
    · subst hb
      rw [drain_nil, hn]
    rcases hx : unitStep want s b with _ | ⟨k, s', out⟩
    · have hat := unitStep_located (o := o) b (hsink s)
      rw [hx] at hat
      rw [drain_of_none hat, hn]
    · have hk := (unitStep_lawful hw).bounds hb hx
      have hat := unitStep_located (o := o) b (hsink s)
      rw [hx] at hat
      have hlen : (b.drop k).length = n - k := by rw [List.length_drop, hn]
      rw [drain_of_some hl hb hat, Result.after_state, Result.after_rest,
        ih (n - k) (by omega) s' (o + k) _ hlen]
      omega

end Foundations.Resumable
