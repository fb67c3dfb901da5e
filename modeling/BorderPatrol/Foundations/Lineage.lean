import BorderPatrol.Foundations.Runs
import Mathlib.Logic.Relation

/-!
# Where labels come from

A system keeps labels in places. A step takes labels from some places and leaves labels in others,
and a label may be born at a step. A `Carriage` says which places a step takes from and leaves in,
and it is `Faithful` to a step when a label that is in a place afterwards was there before, or was
left there by the step, which took it from a place that had it or bore it. When it is faithful to
all steps of a run from a state without labels, each label found after the run has a lineage: it was
born at one step, and was passed on from step to step to one that left it where it is (`lineage`).
Each of these steps took the label itself from a place where the one before had left it, which is
more than that the two met there.
-/

namespace Foundations

variable {S A X L ε : Type*} {step : S → A → Except ε S} {s₀ s : S} {a : A} {as : List A}

/-! ## The steps of a run -/

/-- A step that was made, with the states before and after it. -/
structure Made (S A : Type*) where
  before : S
  event : A
  after : S

/-- The steps that a run makes. -/
def madeSteps (step : S → A → Except ε S) : S → List A → List (Made S A)
  | _, [] => []
  | s, a :: as =>
    match step s a with
    | .ok s' => ⟨s, a, s'⟩ :: madeSteps step s' as
    | .error _ => []

theorem madeSteps_of_ok {s s' : S} {a : A} (h : step s a = .ok s') (as : List A) :
    madeSteps step s (a :: as) = ⟨s, a, s'⟩ :: madeSteps step s' as := by
  rw [madeSteps, h]

/-- A run that goes through makes all its steps. -/
theorem madeSteps_concat {s s₁ s' : S} {as : List A} {a : A} (hrun : runSteps step s as = .ok s₁)
    (ha : step s₁ a = .ok s') :
    madeSteps step s (as ++ [a]) = madeSteps step s as ++ [⟨s₁, a, s'⟩] := by
  induction as generalizing s with
  | nil =>
    cases hrun
    exact madeSteps_of_ok ha []
  | cons b as ih =>
    obtain ⟨s₂, hb, hrun'⟩ := bind_eq_ok hrun
    rw [List.cons_append, madeSteps_of_ok hb, madeSteps_of_ok hb, ih hrun', List.cons_append]

/-- The run up to a step that was made, and the step. -/
theorem madeSteps_get {t : ℕ} {m : Made S A} (h : (madeSteps step s₀ as)[t]? = some m) :
    ∃ pre, pre ++ [m.event] <+: as ∧ runSteps step s₀ pre = .ok m.before ∧
      step m.before m.event = .ok m.after ∧
        madeSteps step s₀ pre = (madeSteps step s₀ as).take t := by
  induction as generalizing s₀ t with
  | nil => simp [madeSteps] at h
  | cons a as ih =>
    rcases ha : step s₀ a with e | s₁
    · simp [madeSteps, ha] at h
    · rw [madeSteps_of_ok ha] at h ⊢
      cases t with
      | zero =>
        cases h
        exact ⟨[], List.prefix_append [a] as, rfl, ha, rfl⟩
      | succ t =>
        obtain ⟨pre, hpre, hrun, hm, hmade⟩ := ih h
        refine ⟨a :: pre, List.cons_prefix_cons.2 ⟨rfl, hpre⟩, ?_, hm, ?_⟩
        · rw [runSteps, ha, ok_bind, hrun]
        · rw [madeSteps_of_ok ha, hmade, List.take_succ_cons]

/-- The run that ends with a step that was made, and what it made. -/
theorem madeSteps_take {t : ℕ} {m : Made S A} (h : (madeSteps step s₀ as)[t]? = some m) :
    ∃ pre, pre <+: as ∧ runSteps step s₀ pre = .ok m.after ∧
      madeSteps step s₀ pre = (madeSteps step s₀ as).take (t + 1) := by
  obtain ⟨pre, hpre, hrun, hm, hmade⟩ := madeSteps_get h
  refine ⟨pre ++ [m.event], hpre, ?_, ?_⟩
  · rw [runSteps_concat, hrun, ok_bind, hm]
  · rw [madeSteps_concat hrun hm, hmade, List.take_add_one, h, Option.toList_some]

/-! ## Lineages -/

theorem getElem?_append_of_eq_some {α : Type*} {l : List α} {i : ℕ} {x : α} (h : l[i]? = some x)
    (l' : List α) : (l ++ l')[i]? = some x := by
  rw [List.getElem?_append_left (List.getElem?_eq_some_iff.1 h).1, h]

/-- From one step of a list to a later one, or to itself, by way of steps of which each has `R` to
the next. -/
def Linked (R : Made S A → Made S A → Prop) (l : List (Made S A)) : ℕ → ℕ → Prop :=
  Relation.ReflTransGen fun i k => i < k ∧ ∃ m n, l[i]? = some m ∧ l[k]? = some n ∧ R m n

variable {R R' : Made S A → Made S A → Prop} {l l' : List (Made S A)} {i k : ℕ}

theorem Linked.append (h : Linked R l i k) (l' : List (Made S A)) : Linked R (l ++ l') i k := by
  refine Relation.ReflTransGen.mono ?_ _ _ h
  rintro i k ⟨hlt, m, n, hm, hn, hR⟩
  exact ⟨hlt, m, n, getElem?_append_of_eq_some hm _, getElem?_append_of_eq_some hn _, hR⟩

theorem Linked.mono (h : Linked R l i k) (hR : ∀ m ∈ l, ∀ n ∈ l, R m n → R' m n) :
    Linked R' l i k := by
  refine Relation.ReflTransGen.mono ?_ _ _ h
  rintro i k ⟨hlt, m, n, hm, hn, hmn⟩
  exact ⟨hlt, m, n, hm, hn, hR m (List.mem_of_getElem? hm) n (List.mem_of_getElem? hn) hmn⟩

/-- Which places a step takes labels from and which it leaves labels in, and which labels are born
at it. -/
structure Carriage (S A X L : Type*) where
  holds : S → X → L → Prop
  takes : Made S A → X → Prop
  leaves : Made S A → X → Prop
  bears : Made S A → L → Prop

namespace Carriage

variable (C : Carriage S A X L)

/-- The first step leaves the label in a place, and the second takes it from there. -/
def Passes (x : L) (m n : Made S A) : Prop :=
  ∃ p, C.leaves m p ∧ C.holds m.after p x ∧ C.takes n p ∧ C.holds n.before p x

/-- The first step leaves something where the second takes something. -/
def Meets (m n : Made S A) : Prop := ∃ p, C.leaves m p ∧ C.takes n p

/-- The labels that are somewhere after the step are accounted for. -/
def Faithful (m : Made S A) : Prop :=
  ∀ p x, C.holds m.after p x → C.holds m.before p x ∨
    C.leaves m p ∧ (C.bears m x ∨ ∃ q, C.takes m q ∧ C.holds m.before q x)

/-- The label `x` in place `p` after the steps of `l` was born at step `i`, and was passed on from
there to step `k`, which left it there. -/
structure Lineage (l : List (Made S A)) (p : X) (x : L) (i k : ℕ) : Prop where
  born : ∃ m, l[i]? = some m ∧ C.bears m x
  left : ∃ n, l[k]? = some n ∧ C.leaves n p ∧ C.holds n.after p x
  linked : Linked (C.Passes x) l i k

variable {C}

theorem Lineage.append {p : X} {x : L} (h : C.Lineage l p x i k) (l' : List (Made S A)) :
    C.Lineage (l ++ l') p x i k := by
  obtain ⟨⟨m, hm, hbears⟩, ⟨n, hn, hleaves⟩, hlinked⟩ := h
  exact ⟨⟨m, getElem?_append_of_eq_some hm _, hbears⟩,
    ⟨n, getElem?_append_of_eq_some hn _, hleaves⟩, hlinked.append l'⟩

theorem Passes.meets {x : L} {m n : Made S A} (h : C.Passes x m n) : C.Meets m n := by
  obtain ⟨p, hleaves, -, htakes, -⟩ := h
  exact ⟨p, hleaves, htakes⟩

/-- A label is passed on where steps meet, and nowhere else. -/
theorem Lineage.contacts {p : X} {x : L} (h : C.Lineage l p x i k) : Linked C.Meets l i k :=
  h.linked.mono fun _ _ _ _ => Passes.meets

/-- A step that takes a label where a lineage ends goes on with it. -/
theorem Lineage.pass {p q : X} {x : L} {n : Made S A} (h : C.Lineage l q x i k)
    (htakes : C.takes n q) (hq : C.holds n.before q x) (hleaves : C.leaves n p)
    (hp : C.holds n.after p x) : C.Lineage (l ++ [n]) p x i l.length := by
  obtain ⟨m, hm, hleft, hafter⟩ := h.left
  have hlast : (l ++ [n])[l.length]? = some n := by simp
  refine ⟨(h.append [n]).born, ⟨n, hlast, hleaves, hp⟩, (h.linked.append [n]).tail ?_⟩
  exact ⟨(List.getElem?_eq_some_iff.1 hm).1, m, n, getElem?_append_of_eq_some hm _, hlast,
    q, hleft, hafter, htakes, hq⟩

/-- **Lineage.** Each label found after a run has one. -/
theorem lineage {I : S → Prop} (hI : I s₀) (h₀ : ∀ p x, ¬ C.holds s₀ p x)
    (hstep : ∀ s a s', I s → step s a = .ok s' → I s' ∧ C.Faithful ⟨s, a, s'⟩)
    (hrun : runSteps step s₀ as = .ok s) {p : X} {x : L} (hx : C.holds s p x) :
    ∃ i k, C.Lineage (madeSteps step s₀ as) p x i k := by
  induction as using List.reverseRecOn generalizing s p with
  | nil =>
    cases hrun
    exact absurd hx (h₀ p x)
  | append_singleton as a ih =>
    obtain ⟨s₁, hrun₁, ha⟩ := runSteps_concat_eq_ok hrun
    have hI₁ : I s₁ := always_of_step hI (fun s a s' hs ha => (hstep s a s' hs ha).1) as
      (List.prefix_refl as) s₁ hrun₁
    rw [madeSteps_concat hrun₁ ha]
    set l := madeSteps step s₀ as with hl
    rcases (hstep s₁ a s hI₁ ha).2 p x hx with hkept | ⟨hleaves, hborn | ⟨q, htakes, hq⟩⟩
    · obtain ⟨i, k, h⟩ := ih hrun₁ hkept
      exact ⟨i, k, h.append _⟩
    · have hlast : (l ++ [(⟨s₁, a, s⟩ : Made S A)])[l.length]? = some ⟨s₁, a, s⟩ := by simp
      exact ⟨l.length, l.length, ⟨_, hlast, hborn⟩, ⟨_, hlast, hleaves, hx⟩, .refl⟩
    · obtain ⟨i, k, h⟩ := ih hrun₁ hq
      exact ⟨i, l.length, h.pass htakes hq hleaves hx⟩

end Carriage

end Foundations
