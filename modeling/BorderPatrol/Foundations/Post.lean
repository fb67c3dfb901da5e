import Mathlib.Data.Nat.Notation
import Mathlib.Tactic.Common

/-!
# Postconditions of computations that may fail

`Post x Q E` says of a computation `x : Except φ α` that its value satisfies `Q` when it has one
and its error satisfies `E` when it has none. With `E` everywhere false it is total correctness
(`Post.total`), with `E` everywhere true partial correctness. The rule for sequencing is
`Post.bind`.
-/

namespace Foundations

universe u v

variable {φ : Type u} {α β : Type v} {E E' : φ → Prop} {Q R : α → Prop}

/-- `x` gives a value in `Q` or an error in `E`. -/
def Post (x : Except φ α) (Q : α → Prop) (E : φ → Prop) : Prop :=
  match x with
  | .ok a => Q a
  | .error e => E e

@[simp] theorem ok_bind {a : α} {f : α → Except φ β} : (Except.ok a >>= f) = f a := rfl

@[simp] theorem error_bind {e : φ} {f : α → Except φ β} :
    ((Except.error e : Except φ α) >>= f) = .error e := rfl

/-- A sequence that goes through. -/
theorem bind_eq_ok {x : Except φ α} {f : α → Except φ β} {b : β} (h : (x >>= f) = .ok b) :
    ∃ a, x = .ok a ∧ f a = .ok b := by
  cases x with
  | ok a => exact ⟨a, rfl, h⟩
  | error e => cases h

/-- What can be computed of the value of a computation that goes through. -/
theorem exists_ok_of_map {x : Except φ α} {f : α → β} {b : β} (h : x.map f = .ok b) :
    ∃ a, x = .ok a ∧ f a = b := by
  cases x with
  | ok a => exact ⟨a, rfl, Except.ok.inj h⟩
  | error e => cases h

/-- What is made of the value does not matter to whether there is one. -/
theorem exists_bind_ok_iff {x : Except φ α} {f : α → β} :
    (∃ b, (x >>= fun a => .ok (f a)) = .ok b) ↔ ∃ a, x = .ok a := by
  constructor
  · rintro ⟨b, h⟩
    obtain ⟨a, ha, -⟩ := bind_eq_ok h
    exact ⟨a, ha⟩
  · rintro ⟨a, h⟩
    exact ⟨f a, by rw [h, ok_bind]⟩

namespace Post

@[simp] theorem ok_iff {a : α} : Post (.ok a) Q E ↔ Q a := Iff.rfl

@[simp] theorem pure_iff {a : α} : Post (pure a : Except φ α) Q E ↔ Q a := Iff.rfl

/-- Sequencing: what follows may rely on what the first computation ensures. -/
theorem bind {x : Except φ α} {f : α → Except φ β} {R : β → Prop} (hx : Post x Q E)
    (hf : ∀ a, Q a → Post (f a) R E) : Post (x >>= f) R E := by
  cases x with
  | ok a => exact hf a hx
  | error e => exact hx

theorem and {x : Except φ α} (hx : Post x Q E) (hy : Post x R E') :
    Post x (fun a => Q a ∧ R a) E' := by
  cases x with
  | ok a => exact ⟨hx, hy⟩
  | error e => exact hy

theorem mono {x : Except φ α} (hx : Post x Q E) (h : ∀ a, Q a → R a) : Post x R E := by
  cases x with
  | ok a => exact h a hx
  | error e => exact hx

theorem mono_error {x : Except φ α} (hx : Post x Q E) (h : ∀ e, E e → E' e) : Post x Q E' := by
  cases x with
  | ok a => exact hx
  | error e => exact h e hx

/-- Without admitted errors there is a value. -/
theorem total {x : Except φ α} (hx : Post x Q fun _ => False) : ∃ a, x = .ok a ∧ Q a := by
  cases x with
  | ok a => exact ⟨a, rfl, hx⟩
  | error e => exact hx.elim

theorem of_eq_ok {x : Except φ α} {a : α} (hx : Post x Q E) (h : x = .ok a) : Q a := by
  subst h
  exact hx

/-- A computation that is its value followed by `f`. -/
theorem of_ok {x : Except φ α} {a : α} (h : x = .ok a) (ha : Q a) : Post x Q E := by
  subst h
  exact ha

end Post

end Foundations
