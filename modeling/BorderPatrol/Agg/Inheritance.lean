import BorderPatrol.Agg.Frame

/-!
# What a child inherits

`handle_fork` folds over the descriptors of all processes, keeps the bindings of the parent in a
list, and adds each of them for the child. The fold visits the bindings of one key most recent
first, the list has them in the opposite order, and adding them puts them in the opposite order
again. So in front of the bindings the child had, those of its pid before it was reused, come the
parent's, hidden ones too and in the parent's order (`handleFork_stack`). What the child finds is
then what its parent finds (`fork_inherits`).
-/

namespace BorderPatrol.Agg

open Foundations

/-- A fold that keeps what satisfies `P` has it in the opposite order. -/
theorem foldl_keep {α : Type} (P : α → Prop) [DecidablePred P] (l acc : List α) :
    l.foldl (fun acc b => if P b then b :: acc else acc) acc =
      (l.filter fun b => P b).reverse ++ acc := by
  induction l generalizing acc with
  | nil => rfl
  | cons b l ih =>
    rw [List.foldl_cons, ih, List.filter_cons]
    by_cases hb : P b
    · simp [hb]
    · simp [hb]

/-- **The bindings after a fork**: the child's are those of the parent and then its own. -/
theorem handleFork_stack (o : Orders) (ctx : Ctx) (pmid mid : Mid) (p f : ℤ) :
    (handleFork o ctx pmid mid).cFd.stack (p, f) =
      if p = mid.pid then ctx.cFd.stack (pmid.pid, f) ++ ctx.cFd.stack (p, f)
      else ctx.cFd.stack (p, f) := by
  set kept := (o.fd.visit ctx.cFd).filter fun b => b.1.1 = pmid.pid with hkept
  have hfd : (handleFork o ctx pmid mid).cFd =
      kept.reverse.foldl (fun t b => t.add (mid.pid, b.1.2) b.2) ctx.cFd := by
    change List.foldl _ _ (List.foldl _ _ _) = _
    rw [foldl_keep fun b : (ℤ × ℤ) × Conn => b.1.1 = pmid.pid, List.append_nil]
  rw [hfd, Hashtbl.stack_foldl_add fun b => (mid.pid, b.1.2), List.filterMap_reverse,
    List.reverse_reverse]
  by_cases hp : p = mid.pid
  · -- the parent's bindings of `f`, as the fold visits them
    have hparent : (kept.filterMap fun b => if (mid.pid, b.1.2) = (p, f) then some b.2 else none) =
        ctx.cFd.stack (pmid.pid, f) := by
      rw [← o.fd.stackOf_visit, Hashtbl.stackOf, hkept, List.filterMap_filter]
      congr 1
      funext ⟨⟨p', f'⟩, c⟩
      by_cases hp' : p' = pmid.pid <;> by_cases hf : f' = f <;> simp [hp, hp', hf]
    rw [if_pos hp, hparent]
  · have hnone : (kept.filterMap fun b => if (mid.pid, b.1.2) = (p, f) then some b.2 else none) =
        [] := by
      apply List.filterMap_eq_nil_iff.2
      intro b _
      exact if_neg fun h => hp (congrArg Prod.fst h).symm
    rw [if_neg hp, hnone, List.nil_append]

/-- From `ctx` to `ctx'` thread `mid` takes over what its parent `pmid` has: the connection of each
descriptor that is bound, and the designation. Nothing else is changed. -/
structure Inherits (ctx ctx' : Ctx) (pmid mid : Mid) : Prop where
  shared : ∀ fd, (ctx.cFd.find? (pmid.pid, fd)).isSome → ∀ g,
    connOfFd ctx' g mid.pid fd = connOfFd ctx' g pmid.pid fd
  own : ∀ fd, ctx.cFd.find? (pmid.pid, fd) = none →
    ctx'.cFd.stack (mid.pid, fd) = ctx.cFd.stack (mid.pid, fd)
  others : ∀ p fd, p ≠ mid.pid → ctx'.cFd.stack (p, fd) = ctx.cFd.stack (p, fd)
  dgn : dgnGet ctx' mid = dgnGet ctx' pmid
  dgns : ∀ mid', mid' ≠ mid → dgnGet ctx' mid' = dgnGet ctx mid'

/-- What is found after a fork for a descriptor the parent has bound. -/
theorem handleFork_find? (o : Orders) {ctx : Ctx} {pmid : Mid} {fd : ℤ}
    (h : (ctx.cFd.find? (pmid.pid, fd)).isSome) (mid : Mid) :
    (handleFork o ctx pmid mid).cFd.find? (mid.pid, fd) = ctx.cFd.find? (pmid.pid, fd) := by
  rw [Hashtbl.find?_eq] at h
  rw [Hashtbl.find?_eq, Hashtbl.find?_eq, handleFork_stack, if_pos rfl, List.head?_append,
    Option.or_of_isSome h]

theorem handleFork_dgn_of_ne {mid mid' : Mid} (h : mid' ≠ mid) (o : Orders) (ctx : Ctx)
    (pmid : Mid) : dgnGet (handleFork o ctx pmid mid) mid' = dgnGet ctx mid' :=
  (dgnGet_dgnSet_of_ne h _).trans (dgnGet_congr rfl mid')

theorem handleFork_inherits (o : Orders) (ctx : Ctx) (pmid mid : Mid) :
    Inherits ctx (handleFork o ctx pmid mid) pmid mid where
  shared := by
    intro fd hfd g
    have hchild := handleFork_find? o hfd mid
    have hparent : (handleFork o ctx pmid mid).cFd.find? (pmid.pid, fd) =
        ctx.cFd.find? (pmid.pid, fd) := by
      by_cases hpid : pmid.pid = mid.pid
      · rw [hpid] at hchild ⊢
        exact hchild
      · rw [Hashtbl.find?_eq, handleFork_stack, if_neg hpid, Hashtbl.find?_eq]
    rw [connOfFd, connOfFd, hchild, hparent]
  own := by
    intro fd hfd
    have hnil : ctx.cFd.stack (pmid.pid, fd) = [] := by
      rwa [Hashtbl.find?_eq, List.head?_eq_none_iff] at hfd
    rw [handleFork_stack, if_pos rfl, hnil, List.nil_append]
  others := by
    intro p fd hp
    rw [handleFork_stack, if_neg hp]
  dgn := by
    have hmid : dgnGet (handleFork o ctx pmid mid) mid = dgnGet ctx pmid := dgnGet_dgnSet ..
    by_cases h : pmid = mid
    · rw [h]
    · rw [hmid, handleFork_dgn_of_ne h]
  dgns := fun _ h => handleFork_dgn_of_ne h o ctx pmid

/-- **A child inherits** the descriptors and the designation of its parent, whatever bindings its
pid had before. -/
theorem fork_inherits (o : Orders) (port : ℤ) (j : Joiner) (ev : Event) (ppid ptid : ℤ) :
    ∃ j', joinStep o port j ⟨.fork ppid ptid, ev⟩ = .ok j' ∧
      Inherits j.ctx j'.ctx ⟨ptid, ppid⟩ ⟨ev.tid, ev.pid⟩ := by
  obtain ⟨hshared, hown, hothers, hdgn, hdgns⟩ :=
    handleFork_inherits o (clearFlags j.ctx) ⟨ptid, ppid⟩ ⟨ev.tid, ev.pid⟩
  refine ⟨_, rfl, hshared, hown, hothers, hdgn, ?_⟩
  intro mid' hmid'
  exact (hdgns mid' hmid').trans (dgnGet_clearFlags j.ctx mid')

end BorderPatrol.Agg
