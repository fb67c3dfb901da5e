import Mathlib.Data.List.Basic
import Mathlib.Order.Nat
import Mathlib.Data.Nat.Notation
import Mathlib.Tactic.Common

/-!
# What a reading descriptor is for

The reading side of a virtual descriptor, without its buffer. A stream arrives, a processor
divides it into units, and an application is given its items in order, never beyond `goal`: the
end of the last unit recognised, or the end of what arrived while the processor wants more. The
positions are offsets in the stream since the descriptor was opened. A `cut` is an offset the
processor has consumed up to, a `span` the offsets given to the application by one call.

`Wf` is what every order of the four operations keeps: nothing is given that has not arrived, and
no span has a cut strictly inside it, whether the cut was made before the span was given or after.
-/

namespace BorderPatrol.Trace

/-- A stream of items on its way from a kernel to an application past a processor. -/
structure Flow (α : Type*) where
  seen : List α
  taken : ℕ
  given : ℕ
  goal : ℕ
  cuts : List ℕ
  spans : List (ℕ × ℕ)

namespace Flow

variable {α : Type*}

/-- Nothing has arrived. -/
def start : Flow α := ⟨[], 0, 0, 0, [], []⟩

/-- Items arrive. -/
def arrive (f : Flow α) (b : List α) : Flow α := { f with seen := f.seen ++ b }

/-- The processor consumes `a` items. -/
def take (f : Flow α) (a : ℕ) : Flow α :=
  { f with taken := f.taken + a, goal := f.taken + a, cuts := f.cuts ++ [f.taken + a] }

/-- The processor wants more: the application may have everything that has arrived. -/
def starve (f : Flow α) : Flow α := { f with goal := f.seen.length }

/-- The application is given `n` items. -/
def deliver (f : Flow α) (n : ℕ) : Flow α :=
  { f with given := f.given + n, spans := f.spans ++ [(f.given, f.given + n)] }

/-- The items not consumed by the processor. -/
def pending (f : Flow α) : List α := f.seen.drop f.taken

/-- A cut lies strictly inside a span. -/
def Splits (c : ℕ) (p : ℕ × ℕ) : Prop := p.1 < c ∧ c < p.2

/-- What holds at every point. -/
structure Wf (f : Flow α) : Prop where
  given_le : f.given ≤ f.goal
  goal_le : f.goal ≤ f.seen.length
  taken_le : f.taken ≤ f.goal
  cuts_le : ∀ c ∈ f.cuts, c ≤ f.taken
  cuts_free : ∀ c ∈ f.cuts, c ≤ f.given ∨ f.goal ≤ c
  spans_le : ∀ p ∈ f.spans, p.2 ≤ f.given
  apart : ∀ c ∈ f.cuts, ∀ p ∈ f.spans, ¬ Splits c p

theorem start_wf : (start : Flow α).Wf := by
  constructor <;> simp [start]

theorem Wf.arrive {f : Flow α} (h : f.Wf) (b : List α) : (f.arrive b).Wf where
  given_le := h.given_le
  goal_le := by
    have := h.goal_le
    simp only [Flow.arrive, List.length_append]
    omega
  taken_le := h.taken_le
  cuts_le := h.cuts_le
  cuts_free := h.cuts_free
  spans_le := h.spans_le
  apart := h.apart

/-- A unit may be recognised when the application has been given everything up to the goal and the
unit ends beyond that. -/
theorem Wf.take {f : Flow α} (h : f.Wf) {a : ℕ} (hg : f.given = f.goal)
    (ha : f.given < f.taken + a) (ha' : f.taken + a ≤ f.seen.length) : (f.take a).Wf where
  given_le := ha.le
  goal_le := ha'
  taken_le := Nat.le_refl _
  cuts_le := by
    intro c hc
    rcases List.mem_append.1 hc with hc | hc
    · exact (h.cuts_le c hc).trans (Nat.le_add_right _ _)
    · exact (List.mem_singleton.1 hc).le
  cuts_free := by
    intro c hc
    rcases List.mem_append.1 hc with hc | hc
    · have := h.cuts_free c hc
      have := h.cuts_le c hc
      have := h.taken_le
      exact Or.inl (by simp only [Flow.take]; omega)
    · exact Or.inr (List.mem_singleton.1 hc).ge
  spans_le := h.spans_le
  apart := by
    intro c hc p hp
    rcases List.mem_append.1 hc with hc | hc
    · exact h.apart c hc p hp
    · -- the new cut is beyond everything given so far
      have := h.spans_le p hp
      have := List.mem_singleton.1 hc
      rintro ⟨-, hlt⟩
      omega

/-- The processor may ask for more when the application has been given everything up to the
goal. -/
theorem Wf.starve {f : Flow α} (h : f.Wf) (hg : f.given = f.goal) : f.starve.Wf where
  given_le := hg ▸ h.goal_le
  goal_le := Nat.le_refl _
  taken_le := h.taken_le.trans h.goal_le
  cuts_le := h.cuts_le
  cuts_free := fun c hc => Or.inl ((h.cuts_le c hc).trans (hg ▸ h.taken_le))
  spans_le := h.spans_le
  apart := h.apart

/-- The application may be given anything up to the goal. -/
theorem Wf.deliver {f : Flow α} (h : f.Wf) {n : ℕ} (hn : f.given + n ≤ f.goal) :
    (f.deliver n).Wf where
  given_le := hn
  goal_le := h.goal_le
  taken_le := h.taken_le
  cuts_le := h.cuts_le
  cuts_free := by
    intro c hc
    rcases h.cuts_free c hc with hc' | hc'
    · exact Or.inl (hc'.trans (Nat.le_add_right _ _))
    · exact Or.inr hc'
  spans_le := by
    intro p hp
    rcases List.mem_append.1 hp with hp | hp
    · exact (h.spans_le p hp).trans (Nat.le_add_right _ _)
    · rw [List.mem_singleton.1 hp]
      exact Nat.le_refl _
  apart := by
    intro c hc p hp
    rcases List.mem_append.1 hp with hp | hp
    · exact h.apart c hc p hp
    · have := h.cuts_free c hc
      rw [List.mem_singleton.1 hp]
      rintro ⟨h₁, h₂⟩
      simp only at h₁ h₂
      omega

/-- What the application has been given, followed by what it has not, is what arrived. -/
theorem given_append (f : Flow α) : f.seen.take f.given ++ f.seen.drop f.given = f.seen :=
  List.take_append_drop ..

end Flow

end BorderPatrol.Trace
