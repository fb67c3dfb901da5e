import BorderPatrol.Agg.Frame
import Mathlib.Data.List.Nodup

/-!
# One designation for a thread

What each thread is working on is kept in a list, and the list is meant to have one entry for a
thread. Setting a designation changes the entry of the thread, or adds one when there is none; but
`Exec` gives all entries of its process to the thread that called it. So no thread has two entries,
in any state of a run, exactly when at each `Exec` at most one thread of the process has one
(`one_designation_iff`). Otherwise what is found is the first entry that is not -1, and `dump_work`
writes several rows for the thread. The thread that calls `exec` keeps its request exactly when its
designation is the first of the process (`exec_keeps_iff`).
-/

namespace BorderPatrol.Agg

open Foundations

variable {o : Orders} {port : ℤ} {ctx : Ctx} {j j' : Joiner} {e : Stream}

/-- A row of table `dgn`. -/
structure DgnRow where
  pid : ℤ
  tid : ℤ
  rid : ℤ
  eid : ℤ
  ts : ℤ
  deriving DecidableEq, Repr

/-- `dump_work`, the rows that are inserted. -/
def dumpWork (sm : Stream) (ctx : Ctx) : List DgnRow :=
  let cmid : Mid := ⟨sm.sEv.tid, sm.sEv.pid⟩
  (ctx.cDgn.filter fun d => d.new || mideq d.mid cmid).map fun d =>
    ⟨d.mid.pid, d.mid.tid, d.rid, sm.sEv.eid, sm.sEv.ts⟩

/-- No two entries are of one thread. So each is the one that is found, and a thread has at most one
row for an event. -/
structure OneDesignation (ctx : Ctx) : Prop where
  entries : ctx.cDgn.Pairwise fun d d' => mideq d.mid d'.mid = false
  get : ∀ d ∈ ctx.cDgn, dgnGet ctx d.mid = d.rid
  work : ∀ sm, (dumpWork sm ctx).Pairwise fun r r' => ¬ (r.pid = r'.pid ∧ r.tid = r'.tid)

/-- At an `Exec` at most one thread of the process has entries. -/
def ExecAlone (j : Joiner) (e : Stream) : Prop :=
  e.sType.isExec = true → ∀ d ∈ j.ctx.cDgn, ∀ d' ∈ j.ctx.cDgn,
    d.mid.pid = e.sEv.pid → d'.mid.pid = e.sEv.pid → d.mid = d'.mid

/-- The threads of the entries. -/
def Ctx.mids (ctx : Ctx) : List Mid := ctx.cDgn.map Dgn.mid

theorem nodup_mids_iff : ctx.mids.Nodup ↔
    ctx.cDgn.Pairwise fun d d' => mideq d.mid d'.mid = false := by
  rw [Ctx.mids, List.Nodup, List.pairwise_map]
  simp only [Bool.eq_false_iff, ne_eq, mideq_iff]

/-- It is enough that no two entries are of one thread. -/
theorem oneDesignation_iff : OneDesignation ctx ↔ ctx.mids.Nodup := by
  constructor
  · exact fun h => nodup_mids_iff.2 h.entries
  · intro h
    refine ⟨nodup_mids_iff.1 h, fun d hd => ?_, fun sm => ?_⟩
    · refine dgnGet_of_forall (fun d' hd' hmid => ?_) ⟨d, hd, rfl⟩
      rw [List.inj_on_of_nodup_map h hd' hd hmid]
    · rw [dumpWork, List.pairwise_map]
      refine ((List.pairwise_map.1 h).filter _).imp ?_
      rintro ⟨⟨tid, pid⟩, rid, new⟩ ⟨⟨tid', pid'⟩, rid', new'⟩ hne ⟨hpid, htid⟩
      exact hne (Mid.mk.injEq .. ▸ ⟨htid, hpid⟩)

/-! ## What an event does -/

theorem mids_dgnSet_of_mem {mid : Mid} (h : mid ∈ ctx.mids) (rid : ℤ) :
    (dgnSet ctx mid rid).mids = ctx.mids := by
  obtain ⟨d, hd, hmid⟩ := List.mem_map.1 h
  have hany : (ctx.cDgn.any fun dgn => mideq dgn.mid mid) = true :=
    List.any_eq_true.2 ⟨d, hd, mideq_iff.2 hmid⟩
  simp only [Ctx.mids, dgnSet, hany, if_true, List.map_map]
  refine List.map_congr_left fun d' _ => ?_
  by_cases hd' : mideq d'.mid mid = true
  · rw [Function.comp_apply, if_pos hd', mideq_iff.1 hd']
  · simp [hd']

theorem mids_dgnSet_of_notMem {mid : Mid} (h : mid ∉ ctx.mids) (rid : ℤ) :
    (dgnSet ctx mid rid).mids = ctx.mids ++ [mid] := by
  have hany : ¬ (ctx.cDgn.any fun dgn => mideq dgn.mid mid) = true := by
    intro hany
    obtain ⟨d, hd, hmid⟩ := List.any_eq_true.1 hany
    exact h (List.mem_map.2 ⟨d, hd, mideq_iff.1 hmid⟩)
  simp only [Ctx.mids, dgnSet, if_neg hany, List.map_append, List.map_cons, List.map_nil]

/-- Setting a designation keeps the threads distinct. -/
theorem nodup_dgnSet (h : ctx.mids.Nodup) (mid : Mid) (rid : ℤ) :
    (dgnSet ctx mid rid).mids.Nodup := by
  by_cases hmid : mid ∈ ctx.mids
  · rwa [mids_dgnSet_of_mem hmid]
  · rw [mids_dgnSet_of_notMem hmid, List.nodup_append]
    refine ⟨h, List.nodup_singleton mid, ?_⟩
    intro mid' hmid' mid'' hmid'' heq
    rw [heq, List.mem_singleton.1 hmid''] at hmid'
    exact hmid hmid'

/-- When all elements with `P` become one of them, the list has no duplicates if and only if there
was at most one. -/
theorem nodup_map_collapse {α : Type} {l : List α} (hl : l.Nodup) (P : α → Prop) [DecidablePred P]
    {a : α} (ha : P a) : (l.map fun x => if P x then a else x).Nodup ↔
      ∀ x ∈ l, ∀ y ∈ l, P x → P y → x = y := by
  rw [List.nodup_map_iff_inj_on hl]
  constructor
  · intro h x hx y hy hPx hPy
    exact h x hx y hy (by rw [if_pos hPx, if_pos hPy])
  · intro h x hx y hy heq
    by_cases hPx : P x <;> by_cases hPy : P y
    · exact h x hx y hy hPx hPy
    · rw [if_pos hPx, if_neg hPy] at heq
      exact absurd (heq ▸ ha) hPy
    · rw [if_neg hPx, if_pos hPy] at heq
      exact absurd (heq ▸ ha) hPx
    · rwa [if_neg hPx, if_neg hPy] at heq

/-- After an `Exec` the threads are distinct if and only if it was of the only one of its
process. -/
theorem streamJoin_exec_nodup (hx : e.sType.isExec = true) (h : streamJoin o port j e = .ok j')
    (hj : j.ctx.mids.Nodup) : j'.ctx.mids.Nodup ↔ ExecAlone j e := by
  have hmids : j'.ctx.mids = j.ctx.mids.map fun mid =>
      if mid.pid = e.sEv.pid then e.mid else mid := by
    rw [streamJoin_exec hx h, Ctx.mids, Ctx.mids, List.map_map, List.map_map]
    refine List.map_congr_left fun d _ => ?_
    simp only [Function.comp_apply]
    split <;> rfl
  rw [hmids, nodup_map_collapse hj (fun mid => mid.pid = e.sEv.pid) rfl]
  simp only [ExecAlone, hx, true_imp_iff, Ctx.mids, List.forall_mem_map]

theorem mids_clearFlags (ctx : Ctx) : (clearFlags ctx).mids = ctx.mids :=
  List.map_map

/-- An event keeps the threads distinct, but for an `Exec` that has others in its process. -/
theorem joinStep_nodup (h : joinStep o port j e = .ok j') (hj : j.ctx.mids.Nodup) :
    j'.ctx.mids.Nodup ↔ ExecAlone j e := by
  set j₀ : Joiner := { j with ctx := clearFlags j.ctx } with hj₀
  have hmids : j₀.ctx.mids = j.ctx.mids := mids_clearFlags j.ctx
  have halone : ExecAlone j₀ e ↔ ExecAlone j e := by
    simp only [ExecAlone, hj₀, clearFlags, List.forall_mem_map]
  have hj' : j₀.ctx.mids.Nodup := hmids ▸ hj
  cases hx : e.sType.isExec with
  | true => exact (streamJoin_exec_nodup hx h hj').trans halone
  | false =>
    refine iff_of_true ?_ fun hx' => absurd (hx.symm.trans hx') Bool.false_ne_true
    rcases streamJoin_cDgn hx h with hdgn | ⟨rid, hdgn⟩ <;> rw [Ctx.mids, hdgn]
    · exact hj'
    · exact nodup_dgnSet hj' e.mid rid

/-- **One designation for a thread.** In all states of a run no thread has two entries, if and only
if at each `Exec` at most one thread of the process has entries. -/
theorem one_designation_iff (o : Orders) (port : ℤ) (es : List Stream) :
    Always (joinStep o port) .start es (fun j => OneDesignation j.ctx) ↔
      Along (joinStep o port) .start es ExecAlone := by
  refine always_iff_along (I := fun _ => True) trivial (oneDesignation_iff.2 List.nodup_nil) ?_
  intro j e j' _ hj h
  rw [oneDesignation_iff] at hj ⊢
  exact ⟨trivial, joinStep_nodup h hj⟩

/-- Two threads of a server receive requests, and one of them calls `exec`. -/
def twoThreadsExec : List Stream :=
  [eventOf 10 1 (.accept 4 (ascii "10.0.0.9:1000->10.0.0.1:80")),
    eventOf 10 1 (.messageRecv (ascii "PP_HTTPS") 4 0),
    eventOf 10 2 (.accept 5 (ascii "10.0.0.9:1001->10.0.0.1:80")),
    eventOf 10 2 (.messageRecv (ascii "PP_HTTPS") 5 0), eventOf 10 1 (.exec 1)]

/-- The thread then has two designations. -/
theorem twoThreadsExec_twoDesignations :
    ¬ Always (joinStep .listed 80) .start twoThreadsExec fun j => OneDesignation j.ctx := by
  intro h
  have hget := (h _ List.prefix_rfl _ rfl).get
  revert hget
  decide +kernel

/-! ## The designation that `Exec` leaves -/

/-- After an `Exec` of one process by its thread `ptid`, the thread that is left has the designation
`ptid` had. -/
def KeepsCaller (o : Orders) (port : ℤ) (j : Joiner) (e : Stream) : Prop :=
  ∀ ptid, e.sType = .exec ptid → ∀ j', joinStep o port j e = .ok j' →
    dgnGet j'.ctx e.mid = dgnGet j.ctx ⟨ptid, e.sEv.pid⟩

/-- The first entry of a process that is not -1. -/
def Ctx.firstOfProcess (ctx : Ctx) (pid : ℤ) : Option Dgn :=
  ctx.cDgn.find? fun d => d.mid.pid = pid && d.rid ≠ -1

/-- The thread that calls `exec` has the designation of the first entry of its process that is not
-1, where there is one. -/
def CallerLeads (j : Joiner) (e : Stream) : Prop :=
  ∀ ptid, e.sType = .exec ptid → ∀ d, j.ctx.firstOfProcess e.sEv.pid = some d →
    d.rid = dgnGet j.ctx ⟨ptid, e.sEv.pid⟩

/-- A thread has no designation in a process that has none. -/
theorem dgnGet_of_firstOfProcess_none {pid : ℤ} (h : ctx.firstOfProcess pid = none) (tid : ℤ) :
    dgnGet ctx ⟨tid, pid⟩ = -1 := by
  have hnone : ctx.cDgn.find? (fun dgn => mideq dgn.mid ⟨tid, pid⟩ && dgn.rid ≠ -1) = none := by
    rw [List.find?_eq_none]
    intro d hd hmid
    rw [Bool.and_eq_true, mideq_iff] at hmid
    refine List.find?_eq_none.1 h d hd ?_
    rw [hmid.1, hmid.2]
    simp
  rw [dgnGet, hnone]

/-- After an `Exec`, what is found for its thread is the first entry of the process. -/
theorem dgnGet_exec (hx : e.sType.isExec = true) (h : streamJoin o port j e = .ok j') :
    dgnGet j'.ctx e.mid = ((j.ctx.firstOfProcess e.sEv.pid).map Dgn.rid).getD (-1) := by
  have hp : ((fun dgn : Dgn => mideq dgn.mid e.mid && decide (dgn.rid ≠ -1)) ∘
      fun d : Dgn => if d.mid.pid = e.sEv.pid then (⟨e.mid, d.rid, true⟩ : Dgn) else d) =
        fun d : Dgn => d.mid.pid = e.sEv.pid && d.rid ≠ -1 := by
    funext d
    by_cases hd : d.mid.pid = e.sEv.pid
    · simp [hd, mideq]
    · have hne : ¬ d.mid = e.mid := fun hmid => hd (hmid ▸ rfl)
      simp [hd, mideq_iff, hne, Bool.eq_false_iff]
  rw [streamJoin_exec hx h, dgnGet]
  simp only [List.find?_map, hp]
  rw [Ctx.firstOfProcess]
  generalize hd : j.ctx.cDgn.find? _ = d
  rcases d with _ | d
  · rfl
  · have hpid := List.find?_some hd
    simp only [Bool.and_eq_true, decide_eq_true_eq] at hpid
    simp [hpid.1]

theorem firstOfProcess_clearFlags (ctx : Ctx) (pid : ℤ) :
    ((clearFlags ctx).firstOfProcess pid).map Dgn.rid = (ctx.firstOfProcess pid).map Dgn.rid := by
  have hp : ((fun d : Dgn => decide (d.mid.pid = pid) && decide (d.rid ≠ -1)) ∘
      fun d : Dgn => ({ d with new := false } : Dgn)) =
        fun d : Dgn => decide (d.mid.pid = pid) && decide (d.rid ≠ -1) := rfl
  rw [Ctx.firstOfProcess, Ctx.firstOfProcess, clearFlags, List.find?_map, hp, Option.map_map]
  rfl

/-- An event keeps the caller's designation if and only if the caller's is the first one. -/
theorem keepsCaller_iff (j : Joiner) (e : Stream) : KeepsCaller o port j e ↔ CallerLeads j e := by
  refine forall_congr' fun ptid => imp_congr_right fun hexec => ?_
  have hx : e.sType.isExec = true := by rw [hexec, EventType.isExec]
  -- an `Exec` goes through
  obtain ⟨j₁, hj₁⟩ : ∃ j₁, joinStep o port j e = .ok j₁ := by
    rw [joinStep, streamJoin, hexec]
    exact ⟨_, rfl⟩
  have hget := dgnGet_exec hx hj₁
  rw [firstOfProcess_clearFlags] at hget
  rcases hd : j.ctx.firstOfProcess e.sEv.pid with _ | d
  · rw [hd] at hget
    refine iff_of_true (fun j' hj' => ?_) (fun _ h => absurd h.symm (Option.some_ne_none _))
    cases hj₁.symm.trans hj'
    rw [hget, dgnGet_of_firstOfProcess_none hd]
    rfl
  · rw [hd] at hget
    constructor
    · intro h d' hd'
      cases hd'
      exact hget.symm.trans (h j₁ hj₁)
    · intro h j' hj'
      cases hj₁.symm.trans hj'
      exact hget.trans (h d rfl)

/-- **`Exec` keeps the caller's request** at each event of a run, if and only if at each `Exec` the
caller has the designation that comes first among those of its process. -/
theorem exec_keeps_iff (o : Orders) (port : ℤ) (es : List Stream) :
    Tried (joinStep o port) .start es (KeepsCaller o port) ↔
      Tried (joinStep o port) .start es CallerLeads :=
  tried_iff (I := fun _ => True) trivial (fun j e _ => keepsCaller_iff j e)
    fun _ _ _ _ _ _ => trivial

/-- The second of two threads with requests calls `exec`. -/
def secondThreadExec : List Stream := twoThreadsExec.dropLast ++ [eventOf 10 1 (.exec 2)]

/-- What is left has the request of the first. -/
theorem secondThreadExec_loses :
    ¬ Tried (joinStep .listed 80) .start secondThreadExec (KeepsCaller .listed 80) := by
  intro h
  have hkeeps := h twoThreadsExec.dropLast _ List.prefix_rfl _ rfl 2 rfl _ rfl
  revert hkeeps
  decide +kernel

end BorderPatrol.Agg
