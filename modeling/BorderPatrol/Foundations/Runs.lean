import BorderPatrol.Foundations.Post
import Mathlib.Data.List.Induction

/-!
# Runs of a fallible step

A system whose steps may fail is a function `step : S → A → Except ε S`. This module has the states
a run reaches and what holds in them: `Always` is about every state that is reached, `Along` about
every step that is made, `Tried` also about a last step that fails. An invariant carried by each
step holds always (`Along.always`). A property that a step keeps exactly when the step meets a
condition holds always exactly when the condition holds along the run (`always_iff_along`), and two
properties of steps that are the same under an invariant are met by the same runs (`tried_iff`).
A property whose steps go through may be stated of the steps alone (`tried_iff_of_tracked`).
-/

namespace Foundations

variable {S A ε : Type*} {step : S → A → Except ε S}

/-- The state after the steps of a list. -/
def runSteps (step : S → A → Except ε S) : S → List A → Except ε S
  | s, [] => .ok s
  | s, a :: as => step s a >>= fun s => runSteps step s as

/-- `Q` holds in every state the run reaches. -/
def Always (step : S → A → Except ε S) (s₀ : S) (as : List A) (Q : S → Prop) : Prop :=
  ∀ pre, pre <+: as → ∀ s, runSteps step s₀ pre = .ok s → Q s

/-- Every step the run makes meets `P` in the state it is made in. -/
def Along (step : S → A → Except ε S) (s₀ : S) (as : List A) (P : S → A → Prop) : Prop :=
  ∀ pre a, pre ++ [a] <+: as → ∀ s s', runSteps step s₀ pre = .ok s → step s a = .ok s' → P s a

/-- Every step that is tried in the run meets `P`, whether it goes through or not. -/
def Tried (step : S → A → Except ε S) (s₀ : S) (as : List A) (P : S → A → Prop) : Prop :=
  ∀ pre a, pre ++ [a] <+: as → ∀ s, runSteps step s₀ pre = .ok s → P s a

/-- The steps that are tried, each with the state it is tried in. -/
def triedSteps (step : S → A → Except ε S) : S → List A → List (S × A)
  | _, [] => []
  | s, a :: as =>
    (s, a) :: match step s a with
      | .ok s' => triedSteps step s' as
      | .error _ => []

theorem triedSteps_of_ok {s s' : S} {a : A} (h : step s a = .ok s') (as : List A) :
    triedSteps step s (a :: as) = (s, a) :: triedSteps step s' as := by
  rw [triedSteps, h]

theorem triedSteps_of_error {s : S} {a : A} {e : ε} (h : step s a = .error e) (as : List A) :
    triedSteps step s (a :: as) = [(s, a)] := by
  rw [triedSteps, h]

theorem runSteps_concat (s : S) (as : List A) (a : A) :
    runSteps step s (as ++ [a]) = runSteps step s as >>= fun s => step s a := by
  induction as generalizing s with
  | nil =>
    change (step s a >>= pure) = step s a
    rw [bind_pure]
  | cons b as ih =>
    simp only [List.cons_append, runSteps, ih, bind_assoc]

/-- The last step of a run that goes through. -/
theorem runSteps_concat_eq_ok {s s' : S} {as : List A} {a : A}
    (h : runSteps step s (as ++ [a]) = .ok s') :
    ∃ s₁, runSteps step s as = .ok s₁ ∧ step s₁ a = .ok s' := by
  rw [runSteps_concat] at h
  rcases hrun : runSteps step s as with e | s₁
  · rw [hrun] at h
    cases h
  · rw [hrun, ok_bind] at h
    exact ⟨s₁, rfl, h⟩

variable {s₀ : S} {as : List A}

theorem along_nil {P : S → A → Prop} : Along step s₀ [] P := by
  intro pre a hpre
  exact absurd (List.prefix_nil.1 hpre) (by simp)

/-- A run is its first step and the rest. -/
theorem along_cons {P : S → A → Prop} {a : A} : Along step s₀ (a :: as) P ↔
    ∀ s, step s₀ a = .ok s → P s₀ a ∧ Along step s as P := by
  constructor
  · intro h s hs
    refine ⟨h [] a (List.prefix_append [a] as) s₀ s rfl hs, ?_⟩
    intro pre b hpre s₁ s₂ hrun hstep
    refine h (a :: pre) b (List.cons_prefix_cons.2 ⟨rfl, hpre⟩) s₁ s₂ ?_ hstep
    rw [runSteps, hs, ok_bind, hrun]
  · intro h pre b hpre s₁ s₂ hrun hstep
    rcases pre with _ | ⟨c, pre⟩
    · obtain ⟨rfl, -⟩ := List.cons_prefix_cons.1 hpre
      cases hrun
      exact (h s₂ hstep).1
    · obtain ⟨rfl, hpre'⟩ := List.cons_prefix_cons.1 hpre
      rcases hs : step s₀ c with e | s
      · rw [runSteps, hs] at hrun
        cases hrun
      · rw [runSteps, hs, ok_bind] at hrun
        exact (h s hs).2 pre b hpre' s₁ s₂ hrun hstep

/-- A run whose steps are given by `f`. -/
theorem Along.map {B : Type*} {f : B → A} {P : S → A → Prop} {bs : List B}
    (h : Along (fun s b => step s (f b)) s₀ bs fun s b => P s (f b)) :
    Along step s₀ (bs.map f) P := by
  induction bs generalizing s₀ with
  | nil => exact along_nil
  | cons b bs ih =>
    rw [List.map_cons, along_cons]
    intro s hs
    obtain ⟨hb, hbs⟩ := along_cons.1 h s hs
    exact ⟨hb, ih hbs⟩

/-- The same of the steps that are tried. -/
theorem tried_cons {P : S → A → Prop} {a : A} : Tried step s₀ (a :: as) P ↔
    P s₀ a ∧ ∀ s, step s₀ a = .ok s → Tried step s as P := by
  constructor
  · intro h
    refine ⟨h [] a (List.prefix_append [a] as) s₀ rfl, fun s hs pre b hpre s₁ hrun => ?_⟩
    refine h (a :: pre) b (List.cons_prefix_cons.2 ⟨rfl, hpre⟩) s₁ ?_
    rw [runSteps, hs, ok_bind, hrun]
  · rintro ⟨ha, h⟩ pre b hpre s₁ hrun
    rcases pre with _ | ⟨c, pre⟩
    · obtain ⟨rfl, -⟩ := List.cons_prefix_cons.1 hpre
      cases hrun
      exact ha
    · obtain ⟨rfl, hpre'⟩ := List.cons_prefix_cons.1 hpre
      obtain ⟨s, hs, hrun'⟩ := bind_eq_ok hrun
      exact h s hs pre b hpre' s₁ hrun'

theorem tried_nil {P : S → A → Prop} : Tried step s₀ [] P := by
  intro pre a hpre
  exact absurd (List.prefix_nil.1 hpre) (by simp)

/-- A check of the steps that are tried. -/
def checkTried (step : S → A → Except ε S) (p : S → A → Bool) : S → List A → Bool
  | _, [] => true
  | s, a :: as => p s a &&
    match step s a with
    | .ok s' => checkTried step p s' as
    | .error _ => true

theorem tried_of_check {P : S → A → Prop} {p : S → A → Bool}
    (hp : ∀ s, ∀ a ∈ as, p s a = true → P s a) (h : checkTried step p s₀ as = true) :
    Tried step s₀ as P := by
  induction as generalizing s₀ with
  | nil => exact tried_nil
  | cons a as ih =>
    rw [checkTried, Bool.and_eq_true] at h
    refine tried_cons.2 ⟨hp s₀ a List.mem_cons_self h.1, fun s hs => ?_⟩
    rw [hs] at h
    exact ih (fun s b hb => hp s b (List.mem_cons_of_mem a hb)) h.2

/-- Two runs, one behind the other. -/
theorem tried_append {P : S → A → Prop} {bs : List A} : Tried step s₀ (as ++ bs) P ↔
    Tried step s₀ as P ∧ ∀ s, runSteps step s₀ as = .ok s → Tried step s bs P := by
  induction as generalizing s₀ with
  | nil =>
    refine ⟨fun h => ⟨tried_nil, fun s hs => ?_⟩, fun h => h.2 s₀ rfl⟩
    cases hs
    exact h
  | cons a as ih =>
    rw [List.cons_append, tried_cons, tried_cons]
    constructor
    · rintro ⟨ha, h⟩
      refine ⟨⟨ha, fun s hs => (ih.1 (h s hs)).1⟩, fun s hs => ?_⟩
      obtain ⟨s₁, hs₁, hrun⟩ := bind_eq_ok hs
      exact (ih.1 (h s₁ hs₁)).2 s hrun
    · rintro ⟨⟨ha, h⟩, hbs⟩
      refine ⟨ha, fun s hs => ih.2 ⟨h s hs, fun s' hs' => hbs s' ?_⟩⟩
      rw [runSteps, hs, ok_bind, hs']

/-- **Steps that are runs.** When a step of one system is, on the part `get` of its state, the run
`f b` of another, a run of the first tries the steps of the second that the runs have together. -/
theorem tried_flatMap {T B : Type*} {stepB : T → B → Except ε T} {get : T → S} {f : B → List A}
    {P : S → A → Prop}
    (hget : ∀ t b, (stepB t b).map get = runSteps step (get t) (f b)) (t : T) (bs : List B) :
    Tried stepB t bs (fun t b => Tried step (get t) (f b) P) ↔
      Tried step (get t) (bs.flatMap f) P := by
  induction bs generalizing t with
  | nil => exact iff_of_true tried_nil tried_nil
  | cons b bs ih =>
    rw [List.flatMap_cons, tried_cons, tried_append, ← hget]
    refine and_congr_right fun _ => ?_
    rcases hb : stepB t b with e | t'
    · exact iff_of_true (fun _ h => by cases h) fun _ h => by cases h
    · constructor
      · rintro h s hs
        cases hs
        exact (ih t').1 (h t' rfl)
      · rintro h t₁ ht₁
        cases ht₁
        exact (ih t').2 (h (get t') rfl)

/-- When a step that meets `P` goes through and keeps `T`, so does a run whose steps meet `P`. -/
theorem exists_tracked {P : S → A → Prop} {T : List A → S → Prop} (h₀ : T [] s₀)
    (hok : ∀ pre s a, T pre s → P s a → ∃ s', step s a = .ok s' ∧ T (pre ++ [a]) s')
    (hmeets : ∀ pre a, pre ++ [a] <+: as → ∀ s, runSteps step s₀ pre = .ok s → T pre s → P s a) :
    ∃ s, runSteps step s₀ as = .ok s ∧ T as s := by
  induction as using List.reverseRecOn with
  | nil => exact ⟨s₀, rfl, h₀⟩
  | append_singleton as a ih =>
    obtain ⟨s, hs, hT⟩ := ih fun pre b hpre => hmeets pre b (hpre.trans (List.prefix_append as [a]))
    obtain ⟨s', hs', hT'⟩ := hok as s a hT (hmeets as a List.prefix_rfl s hs hT)
    exact ⟨s', by rw [runSteps_concat, hs, ok_bind, hs'], hT'⟩

/-- **A condition on the steps made.** Let `T` relate the steps made to the state, and `P` then say
of a step what `Q` says of it and the steps made. If a step that meets `P` goes through and keeps
`T`, the steps that are tried meet `P` if and only if all steps meet `Q`. -/
theorem tried_iff_of_tracked {P : S → A → Prop} {T : List A → S → Prop} {Q : List A → A → Prop}
    (h₀ : T [] s₀) (hiff : ∀ pre s a, T pre s → (P s a ↔ Q pre a))
    (hok : ∀ pre s a, T pre s → P s a → ∃ s', step s a = .ok s' ∧ T (pre ++ [a]) s') :
    Tried step s₀ as P ↔ ∀ pre a, pre ++ [a] <+: as → Q pre a := by
  constructor
  · intro h pre a hpre
    have hfront := (List.prefix_append pre [a]).trans hpre
    obtain ⟨s, hs, hT⟩ := exists_tracked h₀ hok fun pre' b hb s' hs' _ =>
      h pre' b (hb.trans hfront) s' hs'
    exact (hiff pre s a hT).1 (h pre a hpre s hs)
  · intro h pre a hpre s hs
    have hfront := (List.prefix_append pre [a]).trans hpre
    obtain ⟨s', hs', hT⟩ := exists_tracked h₀ hok fun pre' b hb s' _ hT =>
      (hiff pre' s' b hT).2 (h pre' b (hb.trans hfront))
    cases hs.symm.trans hs'
    exact (hiff pre s a hT).2 (h pre a hpre)

/-- The invariant rule: what the first state meets and every step keeps holds always. -/
theorem Along.always {I : S → Prop} {P : S → A → Prop} (h : Along step s₀ as P) (h₀ : I s₀)
    (hstep : ∀ s a s', I s → P s a → step s a = .ok s' → I s') : Always step s₀ as I := by
  intro pre hpre
  induction pre using List.reverseRecOn with
  | nil =>
    intro s hrun
    cases hrun
    exact h₀
  | append_singleton pre a ih =>
    intro s hrun
    obtain ⟨s₁, hrun₁, ha⟩ := runSteps_concat_eq_ok hrun
    exact hstep s₁ a s (ih ((List.prefix_append pre [a]).trans hpre) s₁ hrun₁)
      (h pre a hpre s₁ s hrun₁ ha) ha

/-- Every step meets what is true of all steps. -/
theorem along_trivial : Along step s₀ as fun _ _ => True := fun _ _ _ _ _ _ _ => trivial

/-- The invariant rule for an invariant that no condition is needed for. -/
theorem always_of_step {I : S → Prop} (h₀ : I s₀)
    (hstep : ∀ s a s', I s → step s a = .ok s' → I s') : Always step s₀ as I :=
  along_trivial.always h₀ fun s a s' hs _ => hstep s a s' hs

/-- **Exact condition of an invariant** on the runs whose steps meet `C`. When such a step from a
state with `I` and `Q` ends in one with `I`, and in one with `Q` if and only if it meets `P`, then
`Q` holds in all states of such a run if and only if all its steps meet `P`. -/
theorem Along.always_iff {C P : S → A → Prop} {I Q : S → Prop} (hC : Along step s₀ as C) (hI : I s₀)
    (hQ : Q s₀) (hstep : ∀ s a s', I s → Q s → C s a → step s a = .ok s' → I s' ∧ (Q s' ↔ P s a)) :
    Always step s₀ as Q ↔ Along step s₀ as P := by
  constructor
  · intro h
    have hI' : ∀ pre, pre <+: as → ∀ s, runSteps step s₀ pre = .ok s → I s := by
      intro pre hpre
      induction pre using List.reverseRecOn with
      | nil =>
        intro s hrun
        cases hrun
        exact hI
      | append_singleton pre a ih =>
        intro s hrun
        have hpre' : pre <+: as := (List.prefix_append pre [a]).trans hpre
        obtain ⟨s₁, hrun₁, ha⟩ := runSteps_concat_eq_ok hrun
        have hC₁ := hC pre a hpre s₁ s hrun₁ ha
        exact (hstep s₁ a s (ih hpre' s₁ hrun₁) (h pre hpre' s₁ hrun₁) hC₁ ha).1
    intro pre a hpre s s' hrun ha
    have hpre' : pre <+: as := (List.prefix_append pre [a]).trans hpre
    have hrun' : runSteps step s₀ (pre ++ [a]) = .ok s' := by
      rw [runSteps_concat, hrun, ok_bind, ha]
    have hC' := hC pre a hpre s s' hrun ha
    exact (hstep s a s' (hI' pre hpre' s hrun) (h pre hpre' s hrun) hC' ha).2.1 (h _ hpre s' hrun')
  · intro h
    have hboth : Always step s₀ as fun s => I s ∧ Q s := by
      have hsteps : Along step s₀ as fun s a => C s a ∧ P s a := fun pre a hpre s s' hrun ha =>
        ⟨hC pre a hpre s s' hrun ha, h pre a hpre s s' hrun ha⟩
      exact hsteps.always ⟨hI, hQ⟩ fun s a s' hs hp ha =>
        ⟨(hstep s a s' hs.1 hs.2 hp.1 ha).1, (hstep s a s' hs.1 hs.2 hp.1 ha).2.2 hp.2⟩
    exact fun pre hpre s hrun => (hboth pre hpre s hrun).2

/-- The same on all runs. -/
theorem always_iff_along {I Q : S → Prop} {P : S → A → Prop} (hI : I s₀) (hQ : Q s₀)
    (hstep : ∀ s a s', I s → Q s → step s a = .ok s' → I s' ∧ (Q s' ↔ P s a)) :
    Always step s₀ as Q ↔ Along step s₀ as P :=
  along_trivial.always_iff hI hQ fun s a s' hi hq _ => hstep s a s' hi hq

/-- An invariant kept by the steps that meet `P`. -/
theorem Tried.always {I : S → Prop} {P : S → A → Prop} (h : Tried step s₀ as P) (hI : I s₀)
    (hstep : ∀ s a s', I s → P s a → step s a = .ok s' → I s') : Always step s₀ as I :=
  Along.always (fun pre a hpre s _ hrun _ => h pre a hpre s hrun) hI hstep

/-- What a run ends in, when every step it tries meets `P`. -/
theorem Tried.post {I : S → Prop} {P : S → A → Prop} {E : ε → Prop} (h : Tried step s₀ as P)
    (hI : I s₀) (hstep : ∀ s a, I s → P s a → Post (step s a) I E) :
    Post (runSteps step s₀ as) I E := by
  induction as generalizing s₀ with
  | nil => exact hI
  | cons a as ih =>
    obtain ⟨ha, has⟩ := tried_cons.1 h
    have hpost := hstep s₀ a hI ha
    rw [runSteps]
    rcases hs : step s₀ a with e | s
    · rw [hs] at hpost
      exact hpost
    · rw [hs] at hpost
      exact ih (has s hs) hpost

/-- What an invariant tells about every step that is tried. -/
theorem tried_of_invariant {I : S → Prop} {P : S → A → Prop} (hI : I s₀)
    (hP : ∀ s a, I s → P s a) (hstep : ∀ s a s', I s → step s a = .ok s' → I s') :
    Tried step s₀ as P := by
  intro pre a hpre s hrun
  exact hP s a (always_of_step hI hstep pre ((List.prefix_append pre [a]).trans hpre) s hrun)

/-- Two properties of steps that are the same under an invariant. -/
theorem tried_iff {I : S → Prop} {P Q : S → A → Prop} (hI : I s₀)
    (hiff : ∀ s a, I s → (Q s a ↔ P s a))
    (hstep : ∀ s a s', I s → Q s a → step s a = .ok s' → I s') :
    Tried step s₀ as Q ↔ Tried step s₀ as P := by
  constructor
  · intro h pre a hpre s hrun
    have hpre' : pre <+: as := (List.prefix_append pre [a]).trans hpre
    exact (hiff s a (h.always hI hstep pre hpre' s hrun)).1 (h pre a hpre s hrun)
  · intro h pre a hpre s hrun
    have hpre' : pre <+: as := (List.prefix_append pre [a]).trans hpre
    have hstep' : ∀ s a s', I s → P s a → step s a = .ok s' → I s' := fun s a s' hs hp ha =>
      hstep s a s' hs ((hiff s a hs).2 hp) ha
    exact (hiff s a (h.always hI hstep' pre hpre' s hrun)).2 (h pre a hpre s hrun)

end Foundations
