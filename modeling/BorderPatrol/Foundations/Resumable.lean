import Mathlib.Data.List.Basic
import Mathlib.Data.List.Iterate
import Mathlib.Data.Nat.Notation
import Mathlib.Tactic.Common

/-!
# Resumable parsers

A resumable parser is called on a state and the items at hand. It either asks for more (`none`)
or takes a number of items off the front, moves to another state and emits events. Calling it
until it asks for more or nothing is left is `drain`.

The parser is `Lawful` when it takes at least one item and no more than it was given, when a
parser that asked for more next takes more than it had, and when more items at hand change a step
in one way only: a step that took everything may take the further items as the next step would
have. This is the property of a parser that recognises
headers whole and skips bodies piece by piece. For a lawful parser the outcome is a function of
the concatenation of the chunks (`drain_append`), and so is the outcome of calling it lazily, at any
points of time between arrivals (`Agrees`).
-/

namespace Foundations.Resumable

variable {σ α ε : Type*}

/-- One call of the parser: `none` asks for more; `some (k, s, e)` takes `k` items, moves to `s`
and emits `e`. -/
abbrev Step (σ α ε : Type*) := σ → List α → Option (ℕ × σ × List ε)

/-- Where a sequence of calls stops: the state, the items not taken and the events emitted. -/
@[ext] structure Result (σ α ε : Type*) where
  state : σ
  rest : List α
  out : List ε

/-- The events `e` were emitted before. -/
def Result.after (e : List ε) (r : Result σ α ε) : Result σ α ε := { r with out := e ++ r.out }

@[simp] theorem Result.after_nil (r : Result σ α ε) : r.after [] = r := rfl

@[simp] theorem Result.after_after (e f : List ε) (r : Result σ α ε) :
    (r.after f).after e = r.after (e ++ f) := by
  simp [Result.after]

@[simp] theorem Result.after_state (e : List ε) (r : Result σ α ε) :
    (r.after e).state = r.state := rfl

@[simp] theorem Result.after_rest (e : List ε) (r : Result σ α ε) :
    (r.after e).rest = r.rest := rfl

@[simp] theorem Result.after_out (e : List ε) (r : Result σ α ε) :
    (r.after e).out = e ++ r.out := rfl

/-- The laws of a resumable parser. -/
structure Lawful (step : Step σ α ε) : Prop where
  bounds : ∀ {s b k s' e}, b ≠ [] → step s b = some (k, s', e) → 1 ≤ k ∧ k ≤ b.length
  exceeds : ∀ {s b c k s' e}, b ≠ [] → step s b = none → step s (b ++ c) = some (k, s', e) →
    b.length < k
  extend : ∀ {s b k s' e} (c : List α), b ≠ [] → c ≠ [] → step s b = some (k, s', e) →
    step s (b ++ c) = some (k, s', e) ∨
      k = b.length ∧ ∃ k' s'' e', step s' c = some (k', s'', e') ∧
        step s (b ++ c) = some (b.length + k', s'', e ++ e')

/-- At most `n` calls on the items `b`, stopping when nothing is left or more is asked for. -/
def drainN (step : Step σ α ε) : ℕ → σ → List α → Result σ α ε
  | 0, s, b => ⟨s, b, []⟩
  | n + 1, s, b =>
    if b.isEmpty then ⟨s, b, []⟩
    else
      match step s b with
      | none => ⟨s, b, []⟩
      | some (k, s', e) => (drainN step n s' (b.drop k)).after e

/-- Call the parser until nothing is left or it asks for more: one call an item is enough. -/
def drain (step : Step σ α ε) (s : σ) (b : List α) : Result σ α ε := drainN step b.length s b

variable {step : Step σ α ε}

@[simp] theorem drain_nil (s : σ) : drain step s [] = ⟨s, [], []⟩ := rfl

theorem drain_of_none {s : σ} {b : List α} (h : step s b = none) : drain step s b = ⟨s, b, []⟩ := by
  cases b with
  | nil => rfl
  | cons x b => simp [drain, drainN, h]

/-- Once there is a call for each item, the number of calls allowed does not matter. -/
theorem drainN_congr (hs : Lawful step) {n m : ℕ} {s : σ} {b : List α} (hn : b.length ≤ n)
    (hm : b.length ≤ m) : drainN step n s b = drainN step m s b := by
  induction n generalizing m s b with
  | zero =>
    obtain rfl : b = [] := List.eq_nil_of_length_eq_zero (by omega)
    cases m <;> rfl
  | succ n ih =>
    rcases b with _ | ⟨x, b⟩
    · cases m <;> rfl
    · obtain ⟨m, rfl⟩ : ∃ m', m = m' + 1 := ⟨m - 1, by simp only [List.length_cons] at hm; omega⟩
      simp only [drainN, List.isEmpty_cons, Bool.false_eq_true, if_false]
      rcases hx : step s (x :: b) with _ | ⟨k, s', e⟩
      · rfl
      · have hk := hs.bounds (by simp) hx
        simp only [List.length_cons] at hk hn hm
        have hlen : ((x :: b).drop k).length ≤ b.length := by
          simp only [List.length_drop, List.length_cons]
          omega
        simp only [ih (m := m) (Nat.le_trans hlen (by omega)) (Nat.le_trans hlen (by omega))]

/-- A call that takes items, then the rest of the drain. -/
theorem drain_of_some (hs : Lawful step) {s s' : σ} {b : List α} {k : ℕ} {e : List ε}
    (hb : b ≠ []) (h : step s b = some (k, s', e)) :
    drain step s b = (drain step s' (b.drop k)).after e := by
  obtain ⟨x, b, rfl⟩ := List.exists_cons_of_ne_nil hb
  have hk := hs.bounds hb h
  simp only [List.length_cons] at hk
  simp only [drain, List.length_cons, drainN, List.isEmpty_cons, Bool.false_eq_true, if_false, h]
  rw [drainN_congr hs (m := ((x :: b).drop k).length) _ (Nat.le_refl _)]
  simp only [List.length_drop, List.length_cons]
  omega

/-- Where a drain stops there is nothing more to take. -/
theorem drain_stops (hs : Lawful step) (s : σ) (b : List α) :
    (drain step s b).rest = [] ∨ step (drain step s b).state (drain step s b).rest = none := by
  induction hn : b.length using Nat.strongRecOn generalizing s b with
  | ind n ih =>
    by_cases hb : b = []
    · subst hb
      exact Or.inl rfl
    · rcases hx : step s b with _ | ⟨k, s', e⟩
      · rw [drain_of_none hx]
        exact Or.inr hx
      · have hk := hs.bounds hb hx
        rw [drain_of_some hs hb hx]
        exact ih _ (by rw [List.length_drop]; omega) s' _ rfl

/-- What a drain leaves is at the end of what it was given. -/
theorem drain_suffix (hs : Lawful step) (s : σ) (b : List α) : (drain step s b).rest <:+ b := by
  induction hn : b.length using Nat.strongRecOn generalizing s b with
  | ind n ih =>
    by_cases hb : b = []
    · subst hb
      exact List.suffix_refl _
    · rcases hx : step s b with _ | ⟨k, s', e⟩
      · simp only [drain_of_none hx, List.suffix_refl]
      · have hk := hs.bounds hb hx
        rw [drain_of_some hs hb hx]
        exact (ih _ (by rw [List.length_drop]; omega) s' _ rfl).trans (List.drop_suffix ..)

/-- Draining what a drain left changes nothing. -/
theorem drain_drain (hs : Lawful step) (s : σ) (b : List α) :
    drain step (drain step s b).state (drain step s b).rest =
      ⟨(drain step s b).state, (drain step s b).rest, []⟩ := by
  rcases drain_stops hs s b with h | h
  · rw [h, drain_nil]
  · exact drain_of_none h

/-- **Draining a concatenation** is draining its first part and then what that left with the
second part after it. -/
theorem drain_append (hs : Lawful step) (s : σ) (b c : List α) :
    drain step s (b ++ c) = (drain step (drain step s b).state
      ((drain step s b).rest ++ c)).after (drain step s b).out := by
  induction hn : b.length using Nat.strongRecOn generalizing s b with
  | ind n ih =>
    by_cases hc : c = []
    · subst hc
      rw [List.append_nil, List.append_nil, drain_drain hs]
      simp [Result.after]
    by_cases hb : b = []
    · subst hb
      rfl
    rcases hx : step s b with _ | ⟨k, s', e⟩
    · rw [drain_of_none hx]
      rfl
    · have hk := hs.bounds hb hx
      rw [drain_of_some hs hb hx]
      rcases hs.extend c hb hc hx with hy | ⟨rfl, k', s'', e', hz, hy⟩
      · -- the step does not see the further items
        rw [drain_of_some hs (by simp [hb]) hy, List.drop_append_of_le_length hk.2,
          ih _ (by rw [List.length_drop]; omega) s' _ rfl]
        simp
      · -- the step took all of `b` and goes on into `c`
        rw [drain_of_some hs (by simp [hb]) hy, List.drop_length_add_append, List.drop_length,
          drain_nil]
        simp only [Result.after_state, Result.after_rest, Result.after_out, List.nil_append,
          List.append_nil]
        rw [drain_of_some hs hc hz]
        simp

/-! ## Calls at any points of time -/

/-- After the items `seen` have arrived and the parser, begun at `s₀`, has been called some
number of times: it is at `s`, has emitted `out` and has not taken `rest`. -/
def Agrees (step : Step σ α ε) (s₀ : σ) (seen : List α) (s : σ) (rest : List α)
    (out : List ε) : Prop :=
  drain step s₀ seen = (drain step s rest).after out

theorem Agrees.init (s₀ : σ) : Agrees step s₀ [] s₀ [] [] := rfl

/-- Items arrive. -/
theorem Agrees.arrive (hs : Lawful step) {s₀ s : σ} {seen rest : List α} {out : List ε}
    (h : Agrees step s₀ seen s rest out) (c : List α) :
    Agrees step s₀ (seen ++ c) s (rest ++ c) out := by
  unfold Agrees at h ⊢
  rw [drain_append hs, h, drain_append hs s rest c]
  simp

/-- The parser is called and takes items. -/
theorem Agrees.take (hs : Lawful step) {s₀ s s' : σ} {seen rest : List α} {out e : List ε} {k : ℕ}
    (h : Agrees step s₀ seen s rest out) (hr : rest ≠ []) (hx : step s rest = some (k, s', e)) :
    Agrees step s₀ seen s' (rest.drop k) (out ++ e) := by
  unfold Agrees at h ⊢
  rw [h, drain_of_some hs hr hx, Result.after_after]

/-- When nothing is left or the parser asks for more, the lazy calls have come to where a single
drain of everything seen stops. -/
theorem Agrees.drained {s₀ s : σ} {seen rest : List α} {out : List ε}
    (h : Agrees step s₀ seen s rest out) (hr : rest = [] ∨ step s rest = none) :
    drain step s₀ seen = ⟨s, rest, out⟩ := by
  unfold Agrees at h
  rw [h]
  rcases hr with rfl | hr
  · simp [Result.after]
  · simp [drain_of_none hr, Result.after]

/-! ## Parsers that count -/

/-- The parser emits nothing and keeps its number, or emits its number and goes on to the next. -/
def Counts (step : Step σ α ε) (number : σ → ε) (next : ε → ε) : Prop :=
  ∀ s b k s' e, step s b = some (k, s', e) →
    e = [] ∧ number s' = number s ∨ e = [number s] ∧ number s' = next (number s)

/-- What such a parser emits are the numbers from its first one on. -/
theorem Counts.drain_out {number : σ → ε} {next : ε → ε} (hs : Lawful step)
    (hc : Counts step number next) (s : σ) (b : List α) :
    ∃ n, (drain step s b).out = List.iterate next (number s) n := by
  induction hn : b.length using Nat.strongRecOn generalizing s b with
  | ind n ih =>
    by_cases hb : b = []
    · subst hb
      exact ⟨0, rfl⟩
    · rcases hx : step s b with _ | ⟨k, s', e⟩
      · rw [drain_of_none hx]
        exact ⟨0, rfl⟩
      · have hk := hs.bounds hb hx
        obtain ⟨n', hout⟩ := ih _ (by rw [List.length_drop]; omega) s' (b.drop k) rfl
        rw [drain_of_some hs hb hx, Result.after_out, hout]
        rcases hc s b k s' e hx with ⟨rfl, hnum⟩ | ⟨rfl, hnum⟩
        · exact ⟨n', by rw [hnum, List.nil_append]⟩
        · exact ⟨n' + 1, by rw [hnum, List.singleton_append]; rfl⟩

/-! ## A parser on a part of a state -/

/-- The parser on the part `get` of a larger state, which `set` replaces. -/
def onPart {τ : Type*} (get : τ → σ) (set : τ → σ → τ) (step : Step σ α ε) : Step τ α ε :=
  fun t b => (step (get t) b).map fun r => (r.1, set t r.2.1, r.2.2)

section OnPart

variable {τ : Type*} {get : τ → σ} {set : τ → σ → τ} {t : τ} {b : List α}

theorem onPart_of_none (h : step (get t) b = none) : onPart get set step t b = none := by
  rw [onPart, h, Option.map_none]

theorem onPart_of_some {k : ℕ} {s' : σ} {e : List ε} (h : step (get t) b = some (k, s', e)) :
    onPart get set step t b = some (k, set t s', e) := by
  rw [onPart, h, Option.map_some]

/-- The laws hold of the larger state, since what is set is all that the next step sees. -/
theorem Lawful.onPart (hs : Lawful step) (hget : ∀ t s, get (set t s) = s)
    (hset : ∀ t s s', set (set t s) s' = set t s') : Lawful (onPart get set step) where
  bounds := by
    intro t b k t' e hb h
    obtain ⟨⟨k, s', e⟩, hx, hr⟩ := Option.map_eq_some_iff.1 h
    cases hr
    exact hs.bounds hb hx
  exceeds := by
    intro t b c k t' e hb h h'
    obtain ⟨⟨k, s', e⟩, hx, hr⟩ := Option.map_eq_some_iff.1 h'
    cases hr
    exact hs.exceeds hb (Option.map_eq_none_iff.1 h) hx
  extend := by
    intro t b k t' e c hb hc h
    obtain ⟨⟨k, s', e⟩, hx, hr⟩ := Option.map_eq_some_iff.1 h
    cases hr
    rcases hs.extend c hb hc hx with hy | ⟨rfl, k', s'', e', hz, hy⟩
    · exact .inl (onPart_of_some hy)
    · refine .inr ⟨rfl, k', set t s'', e', ?_, onPart_of_some hy⟩
      rw [← hget t s'] at hz
      rw [onPart_of_some hz, hset]

end OnPart

end Foundations.Resumable
