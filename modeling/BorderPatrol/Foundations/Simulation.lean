import BorderPatrol.Foundations.Runs

/-!
# One program does what another does in steps

A program with loops of its own is compared with a system that takes one step after the other. The
program `x` is `Matched` by the steps `bs` when both fail with the same error or end in related
states, and every step that is tried on the way meets a condition. Programs that come one after the
other are matched by their steps one after the other (`Matched.bind`), so that a run whose steps are
each matched is matched as a whole (`Tried.matched`).
-/

namespace Foundations

universe u

variable {S U : Type u} {T A B ε : Type*} {R R' : S → T → Prop} {step : S → A → Except ε S}
  {stepB : T → B → Except ε T} {Q : T → B → Prop}

/-- Both computations fail with the same error, or they end in related states. -/
def Related (R : S → T → Prop) : Except ε S → Except ε T → Prop
  | .ok s, .ok t => R s t
  | .error e, .error e' => e = e'
  | _, _ => False

theorem Related.mono {x : Except ε S} {y : Except ε T} (h : Related R x y)
    (hR : ∀ s t, R s t → R' s t) : Related R' x y := by
  rcases x with e | s <;> rcases y with e' | t
  · exact h
  · exact h
  · exact h
  · exact hR s t h

/-- The computation from the state `t` on is related to `x`, and meets `Q` at each step it tries. -/
structure Matched (stepB : T → B → Except ε T) (R : S → T → Prop) (Q : T → B → Prop)
    (x : Except ε S) (t : T) (bs : List B) : Prop where
  related : Related R x (runSteps stepB t bs)
  tried : Tried stepB t bs Q

theorem runSteps_append (t : T) (bs cs : List B) :
    runSteps stepB t (bs ++ cs) = runSteps stepB t bs >>= fun t => runSteps stepB t cs := by
  induction bs generalizing t with
  | nil => rfl
  | cons b bs ih => simp only [List.cons_append, runSteps, ih, bind_assoc]

namespace Matched

variable {s : S} {t : T} {x : Except ε S} {bs cs : List B}

theorem done (h : R s t) : Matched stepB R Q (.ok s) t [] := ⟨h, tried_nil⟩

/-- What does a step at once. -/
theorem one {b : B} (h : Related R x (stepB t b)) (hQ : Q t b) : Matched stepB R Q x t [b] where
  related := by
    have hrun : runSteps stepB t [b] = stepB t b := by
      rw [runSteps]
      cases stepB t b <;> rfl
    rwa [hrun]
  tried := tried_cons.2 ⟨hQ, fun _ _ => tried_nil⟩

theorem mono (h : Matched stepB R Q x t bs) (hR : ∀ s t, R s t → R' s t) :
    Matched stepB R' Q x t bs := ⟨h.related.mono hR, h.tried⟩

/-- One program after the other. -/
theorem bind {R' : U → T → Prop} {f : S → Except ε U} (h : Matched stepB R Q x t bs)
    (hf : ∀ s t, x = .ok s → R s t → Matched stepB R' Q (f s) t cs) :
    Matched stepB R' Q (x >>= f) t (bs ++ cs) := by
  obtain ⟨hrel, htried⟩ := h
  rcases x with e | s <;> rcases hrun : runSteps stepB t bs with e' | t'
  · rw [hrun] at hrel
    refine ⟨?_, tried_append.2 ⟨htried, fun t' ht' => ?_⟩⟩
    · rw [runSteps_append, hrun]
      exact hrel
    · cases hrun.symm.trans ht'
  · rw [hrun] at hrel
    exact hrel.elim
  · rw [hrun] at hrel
    exact hrel.elim
  · rw [hrun] at hrel
    obtain ⟨hrel', htried'⟩ := hf s t' rfl hrel
    refine ⟨?_, tried_append.2 ⟨htried, fun t₁ ht₁ => ?_⟩⟩
    · rw [runSteps_append, hrun]
      exact hrel'
    · cases hrun.symm.trans ht₁
      exact htried'

end Matched

/-- **Simulation of a run**: steps that are matched where they are tried make a run that is matched.
-/
theorem Tried.matched {s : S} {t : T} {as : List A} {P : S → A → Prop} {f : A → List B}
    (h : Tried step s as P) (hR : R s t)
    (hstep : ∀ s t a, R s t → P s a → Matched stepB R Q (step s a) t (f a)) :
    Matched stepB R Q (runSteps step s as) t (as.flatMap f) := by
  induction as generalizing s t with
  | nil => exact .done hR
  | cons a as ih =>
    obtain ⟨ha, has⟩ := tried_cons.1 h
    rw [runSteps, List.flatMap_cons]
    exact (hstep s t a hR ha).bind fun s' t' hs hR' => ih (has s' hs) hR'

end Foundations
