import BorderPatrol.Agg.Inheritance

/-!
# Generated connections are fresh

A connection is generated by counting: at `Open`, `Socket` and `Pipe`, and wherever a descriptor is
looked up that has none. No table has a connection from beyond the counter, hidden or not
(`Bounded`), so that what is generated is new to all of them. From one event to the next a
descriptor keeps its connection, or is given it from another by `Dup` or `Fork`, or is the only one
to have it (`Origin`). Descriptors with one generated connection therefore all have it from one
source (`common_source`), and one that was just opened shares it with no other
(`connections_are_fresh`).
-/

namespace BorderPatrol.Agg

open Foundations

/-- The context has no connection that is generated after the first `n`. -/
structure Bounded (n : ℤ) (ctx : Ctx) : Prop where
  fd : ∀ i, (⟨.genSym i⟩ : Conn) ∈ ctx.cFd.vals → i ≤ n
  conn : ∀ i m, ctx.cConn.stack (⟨.genSym i⟩, m) ≠ [] → i ≤ n

/-- The event passes the connection of one descriptor on to another. -/
inductive Passes : Stream → ℤ × ℤ → ℤ × ℤ → Prop
  | dup {ev : Event} {oldfd newfd : ℤ} :
    Passes ⟨.dup oldfd newfd, ev⟩ (ev.pid, oldfd) (ev.pid, newfd)
  | fork {ev : Event} {ppid ptid fd : ℤ} :
    Passes ⟨.fork ppid ptid, ev⟩ (ppid, fd) (ev.pid, fd)

variable {o : Orders} {port : ℤ} {ctx : Ctx} {n : ℤ} {j j' : Joiner} {e : Stream} {k k' : ℤ × ℤ}

/-! ## The counter -/

theorem Bounded.mono (h : Bounded n ctx) {n' : ℤ} (hn : n ≤ n') : Bounded n' ctx where
  fd i hi := (h.fd i hi).trans hn
  conn i m hi := (h.conn i m hi).trans hn

/-- What is done to designations and messages changes no connection. -/
theorem Bounded.congr (h : Bounded n ctx) {ctx' : Ctx} (hfd : ctx'.cFd = ctx.cFd)
    (hconn : ctx'.cConn = ctx.cConn) : Bounded n ctx' := by
  obtain ⟨h₁, h₂⟩ := h
  rw [← hfd] at h₁
  rw [← hconn] at h₂
  exact ⟨h₁, h₂⟩

/-- A connection that a descriptor is bound to, visibly or hidden, is from before the counter. -/
theorem Bounded.le_of_mem (h : Bounded n ctx) {i : ℤ} (hk : ⟨.genSym i⟩ ∈ ctx.cFd.stack k) :
    i ≤ n :=
  h.fd i (Hashtbl.mem_vals_iff.2 ⟨k, hk⟩)

theorem Bounded.le_of_find? (h : Bounded n ctx) {i : ℤ}
    (hk : ctx.cFd.find? k = some ⟨.genSym i⟩) : i ≤ n :=
  h.fd i (Hashtbl.mem_vals_of_find? hk)

theorem Bounded.setFdConn (h : Bounded n ctx) (pid fd : ℤ) {c : Conn}
    (hc : ∀ i, c = ⟨.genSym i⟩ → i ≤ n) : Bounded n (setFdConn ctx pid fd c) where
  fd i hi := by
    rcases Hashtbl.mem_vals_replace hi with hi | hi
    · exact hc i hi.symm
    · exact h.fd i hi
  conn := h.conn

/-- A descriptor's connection is from before the counter, also when it is generated now. -/
theorem Bounded.connOfFd (h : Bounded n ctx) (pid fd : ℤ) {i : ℤ}
    (hi : (connOfFd ctx n pid fd).1 = ⟨.genSym i⟩) : i ≤ (connOfFd ctx n pid fd).2 := by
  rcases connOfFd_cases ctx n pid fd with ⟨hfind, hct⟩ | ⟨hnew, hct⟩
  · rw [hct]
    rw [hi] at hfind
    exact h.le_of_find? hfind
  · rw [hi] at hnew
    cases hnew
    exact hct.ge

theorem setMsg_stack (ctx : Ctx) (g pid fd msgid rid : ℤ) (c : Conn) (m : ℤ) :
    (setMsg ctx g pid fd msgid rid).1.cConn.stack (c, m) =
      if ((connOfFd ctx g pid fd).1, msgid) = (c, m) then rid :: (ctx.cConn.stack (c, m)).tail
      else ctx.cConn.stack (c, m) :=
  Hashtbl.stack_replace

theorem Bounded.setMsg (h : Bounded n ctx) (pid fd msgid rid : ℤ) :
    Bounded (setMsg ctx n pid fd msgid rid).2 (setMsg ctx n pid fd msgid rid).1 where
  fd i hi := (h.fd i hi).trans (le_connOfFd ..)
  conn i m hi := by
    rw [setMsg_stack] at hi
    split_ifs at hi with hkey
    · exact h.connOfFd pid fd (congrArg Prod.fst hkey)
    · exact (h.conn i m hi).trans (le_connOfFd ..)

/-- The connection generated next. -/
theorem Bounded.next (h : Bounded n ctx) : Bounded (n + 1) ctx := h.mono (by omega)

theorem genSym_le {i n : ℤ} (h : (newSimpleStream n).1 = ⟨.genSym i⟩) : i ≤ n + 1 := by
  cases h
  exact le_rfl

theorem Bounded.joinOpen (h : Bounded j.gensymCt j.ctx) (ev : Event) (fd : ℤ) :
    Bounded (joinOpen j ev fd).gensymCt (joinOpen j ev fd).ctx :=
  (h.next.setFdConn ev.pid fd fun _ => genSym_le).setMsg ..

theorem Bounded.joinPipe (h : Bounded j.gensymCt j.ctx) (ev : Event) (fi fo : ℤ) :
    Bounded (joinPipe j ev fi fo).gensymCt (joinPipe j ev fi fo).ctx := by
  have hfi := h.next.next.setFdConn ev.pid fi fun _ => genSym_le
  have hfo := hfi.setFdConn ev.pid fo fun i hi =>
    (genSym_le (n := j.gensymCt) hi).trans (by omega)
  exact (hfo.setMsg ..).setMsg ..

theorem Bounded.joinSend (h : Bounded j.gensymCt j.ctx) (ev : Event) (prot : List Byte)
    (fd msgid : ℤ) :
    Bounded (joinSend j ev prot fd msgid).gensymCt (joinSend j ev prot fd msgid).ctx := by
  have hg := (le_connOfFd j.ctx j.gensymCt ev.pid fd).trans (le_connOfFd j.ctx _ ev.pid fd)
  exact ((h.mono hg).setMsg ev.pid fd msgid _).congr rfl rfl

theorem Bounded.joinRecv (h : Bounded j.gensymCt j.ctx) (port : ℤ) (ev : Event)
    (prot : List Byte) (fd msgid : ℤ) :
    Bounded (joinRecv port j ev prot fd msgid).gensymCt (joinRecv port j ev prot fd msgid).ctx := by
  obtain ⟨g, arid, msg, hg, hctx, hct⟩ := joinRecv_eq port j ev prot fd msgid
  have hset : Bounded g (dgnSet j.ctx ⟨ev.tid, ev.pid⟩ arid) := (h.mono hg).congr rfl rfl
  rw [hctx, hct]
  exact (hset.setMsg ..).congr rfl rfl

/-- Where the connection that is renamed is from before the counter, so are all afterwards. -/
theorem Bounded.replaceAllConn (h : Bounded n ctx) {conn conn' : Conn}
    (hc : ∀ i, conn' = ⟨.genSym i⟩ → i ≤ n) {ctx' : Ctx}
    (hr : replaceAllConn o ctx conn conn' = .ok ctx') : Bounded n ctx' := by
  obtain ⟨ctx₁, hctx₁, hrenamed⟩ := replaceAllConn_spec o ctx conn conn'
  cases hctx₁.symm.trans hr
  constructor
  · intro i hi
    obtain ⟨cConn, -, hctx⟩ := bind_eq_ok hr
    cases hctx
    rcases Hashtbl.mem_vals_foldl_replace hi with hi | hi
    · exact hc i hi.symm
    · exact h.fd i hi
  · intro i m hi
    rw [hrenamed.entry] at hi
    split_ifs at hi with h₁ h₂ h₃
    · exact h.conn i m hi
    · exact absurd rfl hi
    · exact hc i h₃.symm
    · exact h.conn i m hi

theorem Bounded.joinRename (h : Bounded j.gensymCt j.ctx) {ev : Event} {fd : ℤ}
    {name : Conn → Conn} (hname : ∀ c i, name c = ⟨.genSym i⟩ → name c = c)
    (hr : joinRename o j ev fd name = .ok j') : Bounded j'.gensymCt j'.ctx := by
  have hle := le_connOfFd j.ctx j.gensymCt ev.pid fd
  obtain ⟨ctx, hctx, hj'⟩ := bind_eq_ok hr
  cases hj'
  refine (h.mono hle).replaceAllConn (fun i hi => ?_) hctx
  rw [hname _ i hi] at hi
  exact h.connOfFd ev.pid fd hi

theorem Bounded.handleFork (h : Bounded n ctx) (o : Orders) (pmid mid : Mid) :
    Bounded n (handleFork o ctx pmid mid) where
  fd i hi := by
    obtain ⟨⟨p, f⟩, hk⟩ := Hashtbl.mem_vals_iff.1 hi
    rw [handleFork_stack] at hk
    split_ifs at hk
    · rcases List.mem_append.1 hk with hk | hk
      · exact h.le_of_mem hk
      · exact h.le_of_mem hk
    · exact h.le_of_mem hk
  conn := h.conn

/-- **The counter**: no event lets a table have a connection from beyond it. -/
theorem Bounded.streamJoin (h : Bounded j.gensymCt j.ctx) (hj : streamJoin o port j e = .ok j') :
    Bounded j'.gensymCt j'.ctx := by
  obtain ⟨type, ev⟩ := e
  unfold Agg.streamJoin at hj
  cases type with
  | fork ppid ptid =>
    cases hj
    exact h.handleFork o _ _
  | poll timedOut fd =>
    cases timedOut <;> cases hj
    · exact (h.mono (le_connOfFd ..)).congr rfl rfl
    · exact h
  | «open» fd =>
    cases hj
    exact h.joinOpen ev fd
  | socket fd =>
    cases hj
    exact h.joinOpen ev fd
  | pipe fi fo =>
    cases hj
    exact h.joinPipe ev fi fo
  | dup oldfd newfd =>
    cases hj
    exact (h.mono (le_connOfFd ..)).setFdConn ev.pid newfd fun i hi => h.connOfFd ev.pid oldfd hi
  | accept fd rdv =>
    cases hj
    exact h.setFdConn ev.pid fd fun i hi => by cases hi
  | connect fd rdv => exact h.joinRename (fun c i hi => by cases hi) hj
  | protocolInit fd => exact h.joinRename (fun c i _ => rfl) hj
  | read fd =>
    cases hj
    refine (h.mono (le_connOfFd j.ctx j.gensymCt ev.pid fd)).congr ?_ ?_
    · rw [apply_ite Ctx.cFd]
      exact ite_self _
    · rw [apply_ite Ctx.cConn]
      exact ite_self _
  | messageSend prot fd msgid =>
    cases hj
    exact h.joinSend ev prot fd msgid
  | messageRecv prot fd msgid =>
    cases hj
    exact h.joinRecv port ev prot fd msgid
  | unknown => cases hj
  | _ =>
    cases hj
    exact h.congr rfl rfl

theorem Bounded.joinStep (h : Bounded j.gensymCt j.ctx) (hj : joinStep o port j e = .ok j') :
    Bounded j'.gensymCt j'.ctx :=
  Bounded.streamJoin (j := { j with ctx := clearFlags j.ctx }) (h.congr rfl rfl) hj

/-! ## Where a descriptor has its connection from -/

/-- How descriptor `k` comes to have the generated connection `i` after an event: it had it, or was
passed it, or is the only one that has it. -/
inductive Origin (j j' : Joiner) (e : Stream) (k : ℤ × ℤ) (i : ℤ) : Prop
  | kept (h : j.ctx.cFd.find? k = some ⟨.genSym i⟩)
  | passed (k₀ : ℤ × ℤ) (h : Passes e k₀ k) (h₀ : j.ctx.cFd.find? k₀ = some ⟨.genSym i⟩)
  | fresh (hi : j.gensymCt < i) (h : ∀ k', j'.ctx.cFd.find? k' = some ⟨.genSym i⟩ → k' = k)

/-- When a descriptor is given a new connection, it is the only one that has it. -/
theorem Origin.replace {i : ℤ} {c : Conn} {k₀ : ℤ × ℤ} (hb : Bounded j.gensymCt j.ctx)
    (hc : ∀ i, c = ⟨.genSym i⟩ → j.gensymCt < i)
    (hfd : j'.ctx.cFd = j.ctx.cFd.replace k₀ c) (h : j'.ctx.cFd.find? k = some ⟨.genSym i⟩) :
    Origin j j' e k i := by
  rw [hfd, Hashtbl.find?_replace] at h
  by_cases hk : k₀ = k
  · rw [if_pos hk, Option.some_inj] at h
    refine .fresh (hc i h) fun k' hk' => ?_
    rw [hfd, Hashtbl.find?_replace] at hk'
    by_cases hkk : k₀ = k'
    · exact hkk.symm.trans hk
    · rw [if_neg hkk] at hk'
      exact absurd (hb.le_of_find? hk') (not_le.2 (hc i h))
  · rw [if_neg hk] at h
    exact .kept h

/-- Where no descriptor is bound, each keeps its connection. -/
theorem Origin.of_eq {i : ℤ} (hfd : j'.ctx.cFd = j.ctx.cFd)
    (h : j'.ctx.cFd.find? k = some ⟨.genSym i⟩) : Origin j j' e k i := by
  rw [hfd] at h
  exact .kept h

theorem Origin.of_open {i : ℤ} {ev : Event} {fd : ℤ} (hb : Bounded j.gensymCt j.ctx)
    (h : (joinOpen j ev fd).ctx.cFd.find? k = some ⟨.genSym i⟩) :
    Origin j (joinOpen j ev fd) e k i := by
  refine Origin.replace hb (c := ⟨.genSym (j.gensymCt + 1)⟩) (fun i hi => ?_) rfl h
  cases hi
  omega

theorem Origin.of_pipe {i : ℤ} {ev : Event} {fi fo : ℤ} (hb : Bounded j.gensymCt j.ctx)
    (h : (joinPipe j ev fi fo).ctx.cFd.find? k = some ⟨.genSym i⟩) :
    Origin j (joinPipe j ev fi fo) e k i := by
  have hfind : ∀ k, (joinPipe j ev fi fo).ctx.cFd.find? k =
      if (ev.pid, fo) = k then some ⟨.genSym (j.gensymCt + 1)⟩
      else if (ev.pid, fi) = k then some ⟨.genSym (j.gensymCt + 1 + 1)⟩
      else j.ctx.cFd.find? k := by
    intro k
    change ((j.ctx.cFd.replace _ _).replace _ _).find? k = _
    rw [Hashtbl.find?_replace, Hashtbl.find?_replace]
  rw [hfind] at h
  split_ifs at h with hfo hfi
  · cases h
    refine .fresh (by omega) fun k' hk' => ?_
    rw [hfind] at hk'
    split_ifs at hk' with hfo' hfi'
    · exact hfo'.symm.trans hfo
    · simp at hk'
    · exact absurd (hb.le_of_find? hk') (by omega)
  · cases h
    refine .fresh (by omega) fun k' hk' => ?_
    rw [hfind] at hk'
    split_ifs at hk' with hfo' hfi'
    · simp at hk'
    · exact hfi'.symm.trans hfi
    · exact absurd (hb.le_of_find? hk') (by omega)
  · exact .kept h

theorem Origin.of_dup {i : ℤ} {ev : Event} {oldfd newfd : ℤ} (hb : Bounded j.gensymCt j.ctx)
    (hfd : j'.ctx.cFd = (setFdConn j.ctx ev.pid newfd
      (connOfFd j.ctx j.gensymCt ev.pid oldfd).1).cFd)
    (h : j'.ctx.cFd.find? k = some ⟨.genSym i⟩) :
    Origin j j' ⟨.dup oldfd newfd, ev⟩ k i := by
  rcases connOfFd_cases j.ctx j.gensymCt ev.pid oldfd with ⟨hold, -⟩ | ⟨hnew, -⟩
  · rw [hfd] at h
    change (j.ctx.cFd.replace _ _).find? k = _ at h
    rw [Hashtbl.find?_replace] at h
    split_ifs at h with hk
    · subst hk
      exact .passed _ .dup (hold.trans h)
    · exact .kept h
  · refine Origin.replace hb (fun i hi => ?_) hfd h
    rw [hnew] at hi
    cases hi
    omega

theorem Origin.of_fork {i : ℤ} {ev : Event} {ppid ptid : ℤ}
    (h : (handleFork o j.ctx ⟨ptid, ppid⟩ ⟨ev.tid, ev.pid⟩).cFd.find? k = some ⟨.genSym i⟩)
    (j' : Joiner) : Origin j j' ⟨.fork ppid ptid, ev⟩ k i := by
  obtain ⟨p, f⟩ := k
  rw [Hashtbl.find?_eq, handleFork_stack] at h
  split_ifs at h with hp
  · -- the child finds what its parent has, or else what it had
    rw [List.head?_append, ← Hashtbl.find?_eq, ← Hashtbl.find?_eq, Option.or_eq_some_iff] at h
    rcases h with h | ⟨-, h⟩
    · obtain rfl : p = ev.pid := hp
      exact .passed _ .fork h
    · exact .kept h
  · rw [← Hashtbl.find?_eq] at h
    exact .kept h

theorem Origin.of_rename {i : ℤ} {ev : Event} {fd : ℤ} {name : Conn → Conn}
    (hname : ∀ c i, name c = ⟨.genSym i⟩ → name c = c) (hr : joinRename o j ev fd name = .ok j')
    (h : j'.ctx.cFd.find? k = some ⟨.genSym i⟩) : Origin j j' e k i := by
  obtain ⟨j₁, hj₁, hrenamed, -⟩ := joinRename_spec o j ev fd name
  cases hj₁.symm.trans hr
  rw [hrenamed.fd] at h
  split_ifs at h with hk
  · rw [Option.some_inj] at h
    rw [hname _ i h] at h
    rw [h] at hk
    exact .kept hk
  · exact .kept h

/-- **Where connections come from**: a generated connection that a descriptor has after an event was
its own before, was passed to it, or is new and no other's. -/
theorem streamJoin_origin {i : ℤ} (hb : Bounded j.gensymCt j.ctx)
    (hj : streamJoin o port j e = .ok j') (h : j'.ctx.cFd.find? k = some ⟨.genSym i⟩) :
    Origin j j' e k i := by
  obtain ⟨type, ev⟩ := e
  unfold streamJoin at hj
  cases type with
  | fork ppid ptid =>
    cases hj
    exact Origin.of_fork h _
  | poll timedOut fd =>
    cases timedOut <;> cases hj <;> exact Origin.of_eq rfl h
  | «open» fd =>
    cases hj
    exact Origin.of_open hb h
  | socket fd =>
    cases hj
    exact Origin.of_open hb h
  | pipe fi fo =>
    cases hj
    exact Origin.of_pipe hb h
  | dup oldfd newfd =>
    cases hj
    exact Origin.of_dup hb rfl h
  | accept fd rdv =>
    cases hj
    exact Origin.replace hb (fun i hi => by cases hi) rfl h
  | connect fd rdv => exact Origin.of_rename (fun c i hi => by cases hi) hj h
  | protocolInit fd => exact Origin.of_rename (fun c i _ => rfl) hj h
  | read fd =>
    cases hj
    refine Origin.of_eq ?_ h
    rw [apply_ite Ctx.cFd]
    exact ite_self _
  | messageRecv prot fd msgid =>
    cases hj
    obtain ⟨g, arid, msg, -, hctx, -⟩ := joinRecv_eq port j ev prot fd msgid
    refine Origin.of_eq ?_ h
    change (joinRecv port j ev prot fd msgid).ctx.cFd = _
    rw [hctx]
    rfl
  | unknown => cases hj
  | _ =>
    cases hj
    exact Origin.of_eq rfl h

theorem joinStep_origin {i : ℤ} (hb : Bounded j.gensymCt j.ctx)
    (hj : joinStep o port j e = .ok j') (h : j'.ctx.cFd.find? k = some ⟨.genSym i⟩) :
    Origin j j' e k i := by
  rcases streamJoin_origin (j := { j with ctx := clearFlags j.ctx }) (hb.congr rfl rfl) hj h with
    hk | ⟨k₀, hp, hk⟩ | ⟨hi, hk⟩
  · exact .kept hk
  · exact .passed k₀ hp hk
  · exact .fresh hi hk

/-! ## Runs -/

/-- After the events `es` descriptor `k` has the connection `c`. -/
def Has (o : Orders) (port : ℤ) (c : Conn) (es : List Stream) (k : ℤ × ℤ) : Prop :=
  ∃ j, runSteps (joinStep o port) .start es = .ok j ∧ j.ctx.cFd.find? k = some c

/-- After the events `es` descriptor `k` has the connection `c` that descriptor `k₀` had after
`es₀`: it is that descriptor, or it was given the connection by `Dup` or `Fork`, in one or more
steps, and has kept it. -/
inductive Obtained (o : Orders) (port : ℤ) (c : Conn) (es₀ : List Stream) (k₀ : ℤ × ℤ) :
    List Stream → ℤ × ℤ → Prop
  | source (h : Has o port c es₀ k₀) : Obtained o port c es₀ k₀ es₀ k₀
  | kept {es : List Stream} {e : Stream} {k : ℤ × ℤ} (h : Obtained o port c es₀ k₀ es k)
    (hk : Has o port c (es ++ [e]) k) : Obtained o port c es₀ k₀ (es ++ [e]) k
  | passed {es : List Stream} {e : Stream} {k k' : ℤ × ℤ} (h : Obtained o port c es₀ k₀ es k)
    (he : Passes e k k') (hk : Has o port c (es ++ [e]) k') :
    Obtained o port c es₀ k₀ (es ++ [e]) k'

variable {es : List Stream}

theorem bounded_start : Bounded Joiner.start.gensymCt Joiner.start.ctx where
  fd _ hi := absurd hi List.not_mem_nil
  conn _ _ hi := absurd rfl hi

/-- The counter is ahead in all states of a run. -/
theorem bounded_run (h : runSteps (joinStep o port) .start es = .ok j) :
    Bounded j.gensymCt j.ctx :=
  always_of_step (I := fun j => Bounded j.gensymCt j.ctx) bounded_start
    (fun _ _ _ hb hj => hb.joinStep hj) es List.prefix_rfl j h

/-- **One source.** All descriptors with a generated connection have obtained it from one. -/
theorem common_source (o : Orders) (port : ℤ) (i : ℤ) (es : List Stream) : ∃ es₀ k₀,
    ∀ k, Has o port ⟨.genSym i⟩ es k → Obtained o port ⟨.genSym i⟩ es₀ k₀ es k := by
  induction es using List.reverseRecOn with
  | nil =>
    refine ⟨[], (0, 0), fun k hk => ?_⟩
    obtain ⟨j, hj, hk⟩ := hk
    cases hj
    cases hk
  | append_singleton es e ih =>
    obtain ⟨es₀, k₀, hsrc⟩ := ih
    by_cases hold : ∃ k, Has o port ⟨.genSym i⟩ es k
    · -- a connection that is there is not generated again
      refine ⟨es₀, k₀, fun k hk => ?_⟩
      obtain ⟨j', hj', hfind⟩ := id hk
      obtain ⟨j, hj, hstep⟩ := runSteps_concat_eq_ok hj'
      have hb := bounded_run hj
      obtain ⟨k₁, j₁, hj₁, hk₁⟩ := hold
      cases hj.symm.trans hj₁
      rcases joinStep_origin hb hstep hfind with hkept | ⟨k₂, hp, hk₂⟩ | ⟨hi, -⟩
      · exact .kept (hsrc k ⟨j, hj, hkept⟩) hk
      · exact .passed (hsrc k₂ ⟨j, hj, hk₂⟩) hp hk
      · exact absurd (hb.le_of_find? hk₁) (not_le.2 hi)
    · by_cases hnew : ∃ k, Has o port ⟨.genSym i⟩ (es ++ [e]) k
      · obtain ⟨k₁, hk₁⟩ := hnew
        refine ⟨es ++ [e], k₁, fun k hk => ?_⟩
        obtain ⟨j', hj', hfind₁⟩ := id hk₁
        obtain ⟨j, hj, hstep⟩ := runSteps_concat_eq_ok hj'
        obtain ⟨j₂, hj₂, hfind⟩ := hk
        cases hj'.symm.trans hj₂
        rcases joinStep_origin (bounded_run hj) hstep hfind₁ with hkept | ⟨k₂, -, hk₂⟩ | ⟨-, honly⟩
        · exact absurd ⟨k₁, j, hj, hkept⟩ hold
        · exact absurd ⟨k₂, j, hj, hk₂⟩ hold
        · rw [honly k hfind]
          exact .source hk₁
      · exact ⟨es, (0, 0), fun k hk => absurd ⟨k, hk⟩ hnew⟩

/-! ## What is opened -/

/-- The descriptors that are opened in an event. -/
def EventType.opened : EventType → List ℤ
  | .open fd | .socket fd => [fd]
  | .pipe fi fo => [fi, fo]
  | _ => []

/-- Descriptor `k` has the connection `c`, no other has, visible or hidden, and the only entry of
`c` is that of the fake message, for the request `rid`. -/
structure Sole (ctx : Ctx) (k : ℤ × ℤ) (c : Conn) (rid : ℤ) : Prop where
  has : ctx.cFd.find? k = some c
  unshared : ∀ k', c ∈ ctx.cFd.stack k' → k' = k
  entry : ∀ m, ctx.cConn.stack (c, m) = if m = fakeMsgId then [rid] else []

/-- The table has no entry of a connection that is not generated yet. -/
theorem Bounded.stack_conn (h : Bounded n ctx) {i : ℤ} (hi : n < i) (m : ℤ) :
    ctx.cConn.stack (⟨.genSym i⟩, m) = [] := by
  by_contra hne
  exact absurd (h.conn i m hne) (not_le.2 hi)

theorem Bounded.notMem_stack (h : Bounded n ctx) {i : ℤ} (hi : n < i) (k : ℤ × ℤ) :
    ⟨.genSym i⟩ ∉ ctx.cFd.stack k := fun hk =>
  absurd (h.le_of_mem hk) (not_le.2 hi)

theorem Sole.joinOpen (hb : Bounded j.gensymCt j.ctx) (ev : Event) (fd : ℤ) :
    Sole (joinOpen j ev fd).ctx (ev.pid, fd) ⟨.genSym (j.gensymCt + 1)⟩
      (dgnGet j.ctx ⟨ev.tid, ev.pid⟩) := by
  set c : Conn := ⟨.genSym (j.gensymCt + 1)⟩ with hc
  have hlt : j.gensymCt < j.gensymCt + 1 := by omega
  have hfd : (setFdConn j.ctx ev.pid fd c).cFd.find? (ev.pid, fd) = some c :=
    Hashtbl.find?_replace_self
  refine ⟨hfd, fun k' hk' => ?_, fun m => ?_⟩
  · rcases Hashtbl.mem_stack_replace hk' with ⟨-, h⟩ | h
    · exact h
    · exact absurd h (hb.notMem_stack hlt k')
  · change (setMsg (setFdConn j.ctx ev.pid fd c) _ _ _ _ _).1.cConn.stack (c, m) = _
    have hnil : (setFdConn j.ctx ev.pid fd c).cConn.stack (c, m) = [] := hb.stack_conn hlt m
    rw [setMsg_stack, connOfFd_of hfd, hnil]
    simp only [Prod.mk.injEq, true_and, eq_comm, List.tail_nil]

/-- The entries that `Pipe` writes for the two connections. -/
theorem joinPipe_entry (hb : Bounded j.gensymCt j.ctx) (ev : Event) (fi fo : ℤ) {i : ℤ}
    (hi : i = j.gensymCt + 1 ∨ fi ≠ fo ∧ i = j.gensymCt + 1 + 1) (m : ℤ) :
    (joinPipe j ev fi fo).ctx.cConn.stack (⟨.genSym i⟩, m) =
      if m = fakeMsgId then [dgnGet j.ctx ⟨ev.tid, ev.pid⟩] else [] := by
  set ci : Conn := ⟨.genSym (j.gensymCt + 1 + 1)⟩ with hci
  set co : Conn := ⟨.genSym (j.gensymCt + 1)⟩ with hco
  set rid := dgnGet j.ctx ⟨ev.tid, ev.pid⟩ with hrid
  set ctx := setFdConn (setFdConn j.ctx ev.pid fi ci) ev.pid fo co with hctx
  have hfo : ctx.cFd.find? (ev.pid, fo) = some co := Hashtbl.find?_replace_self
  have hfi : ctx.cFd.find? (ev.pid, fi) = some (if fi = fo then co else ci) := by
    change ((j.ctx.cFd.replace _ _).replace _ _).find? _ = _
    rw [Hashtbl.find?_replace, Hashtbl.find?_replace_self]
    by_cases h : fi = fo
    · simp [h]
    · simp [h, Ne.symm h]
  have hnil : ctx.cConn.stack (⟨.genSym i⟩, m) = [] := hb.stack_conn (by omega) m
  set ctx₁ := (setMsg ctx (j.gensymCt + 1 + 1) ev.pid fi fakeMsgId rid).1 with hctx₁
  have hfo₁ : ctx₁.cFd.find? (ev.pid, fo) = some co := hfo
  have hrun : (joinPipe j ev fi fo).ctx = (setMsg ctx₁ _ ev.pid fo fakeMsgId rid).1 := rfl
  rw [hrun, setMsg_stack, connOfFd_of hfo₁, hctx₁, setMsg_stack, connOfFd_of hfi, hnil]
  by_cases hm : m = fakeMsgId
  · rcases hi with rfl | ⟨hne, rfl⟩
    · by_cases h : fi = fo <;> simp [hm, h, hco, hci]
    · simp [hm, hne, hco, hci]
  · simp [hm, Ne.symm hm]

theorem Sole.joinPipe (hb : Bounded j.gensymCt j.ctx) (ev : Event) {fi fo fd : ℤ}
    (hfd : fd = fi ∨ fd = fo) : ∃ i, j.gensymCt < i ∧
      Sole (joinPipe j ev fi fo).ctx (ev.pid, fd) ⟨.genSym i⟩ (dgnGet j.ctx ⟨ev.tid, ev.pid⟩) := by
  by_cases hfo : fd = fo
  · subst hfo
    refine ⟨j.gensymCt + 1, by omega, Hashtbl.find?_replace_self, fun k' hk' => ?_,
      joinPipe_entry hb ev fi fd (.inl rfl)⟩
    rcases Hashtbl.mem_stack_replace hk' with ⟨-, h⟩ | hk'
    · exact h
    · rcases Hashtbl.mem_stack_replace hk' with ⟨h, -⟩ | hk'
      · simp at h
      · exact absurd hk' (hb.notMem_stack (by omega) k')
  · obtain rfl : fd = fi := hfd.resolve_right hfo
    have hne : (ev.pid, fo) ≠ (ev.pid, fd) := fun h => hfo (congrArg Prod.snd h).symm
    have hfind : (Agg.joinPipe j ev fd fo).ctx.cFd.find? (ev.pid, fd) =
        some ⟨.genSym (j.gensymCt + 1 + 1)⟩ :=
      (Hashtbl.find?_replace_of_ne hne).trans Hashtbl.find?_replace_self
    refine ⟨j.gensymCt + 1 + 1, by omega, hfind, fun k' hk' => ?_,
      joinPipe_entry hb ev fd fo (.inr ⟨hfo, rfl⟩)⟩
    rcases Hashtbl.mem_stack_replace hk' with ⟨h, -⟩ | hk'
    · simp at h
    · rcases Hashtbl.mem_stack_replace hk' with ⟨-, h⟩ | hk'
      · exact h
      · exact absurd hk' (hb.notMem_stack (by omega) k')

/-- An opened descriptor is alone on its connection. -/
theorem streamJoin_sole (hb : Bounded j.gensymCt j.ctx) (hj : streamJoin o port j e = .ok j')
    {fd : ℤ} (hfd : fd ∈ e.sType.opened) : ∃ i, j.gensymCt < i ∧
      Sole j'.ctx (e.sEv.pid, fd) ⟨.genSym i⟩ (dgnGet j.ctx e.mid) := by
  obtain ⟨type, ev⟩ := e
  have hlt : j.gensymCt < j.gensymCt + 1 := by omega
  unfold streamJoin at hj
  cases type with
  | «open» nfd =>
    cases hj
    rw [List.mem_singleton.1 hfd]
    exact ⟨_, hlt, Sole.joinOpen hb ev nfd⟩
  | socket nfd =>
    cases hj
    rw [List.mem_singleton.1 hfd]
    exact ⟨_, hlt, Sole.joinOpen hb ev nfd⟩
  | pipe fi fo =>
    cases hj
    refine Sole.joinPipe hb ev ?_
    simpa [EventType.opened] using hfd
  | _ => exact absurd hfd List.not_mem_nil

/-- **Fresh connections are fresh.** In every context that is reached: no generated connection is
from beyond the counter; two descriptors that have the same generated connection have obtained it
from one source, by `Dup` and `Fork`; and a descriptor that is opened next is alone on a new
connection, whose one entry is the designation of the thread. -/
theorem connections_are_fresh (h : runSteps (joinStep o port) .start es = .ok j) :
    Bounded j.gensymCt j.ctx ∧
    (∀ i k k', k ≠ k' → j.ctx.cFd.find? k = some ⟨.genSym i⟩ →
      j.ctx.cFd.find? k' = some ⟨.genSym i⟩ → ∃ es₀ k₀,
        Obtained o port ⟨.genSym i⟩ es₀ k₀ es k ∧ Obtained o port ⟨.genSym i⟩ es₀ k₀ es k') ∧
    ∀ e j', joinStep o port j e = .ok j' → ∀ fd ∈ e.sType.opened, ∃ i, j.gensymCt < i ∧
      Sole j'.ctx (e.sEv.pid, fd) ⟨.genSym i⟩ (dgnGet j.ctx e.mid) := by
  have hb := bounded_run h
  refine ⟨hb, ?_, ?_⟩
  · intro i k k' _ hk hk'
    obtain ⟨es₀, k₀, hsrc⟩ := common_source o port i es
    exact ⟨es₀, k₀, hsrc k ⟨j, h, hk⟩, hsrc k' ⟨j, h, hk'⟩⟩
  · intro e j' hj' fd hfd
    obtain ⟨i, hi, hsole⟩ := streamJoin_sole (j := { j with ctx := clearFlags j.ctx })
      (hb.congr rfl rfl) hj' hfd
    refine ⟨i, hi, ?_⟩
    rwa [dgnGet_clearFlags] at hsole

/-- A process opens a file, duplicates the descriptor and forks. -/
def openDupFork : List Stream :=
  [eventOf 10 1 (.open 5), eventOf 10 1 (.dup 5 6), eventOf 11 1 (.fork 10 1)]

theorem connections_are_fresh_openDupFork : ∃ j,
    runSteps (joinStep .listed 80) .start openDupFork = .ok j ∧ Bounded j.gensymCt j.ctx ∧
    (∀ i k k', k ≠ k' → j.ctx.cFd.find? k = some ⟨.genSym i⟩ →
      j.ctx.cFd.find? k' = some ⟨.genSym i⟩ → ∃ es₀ k₀,
        Obtained .listed 80 ⟨.genSym i⟩ es₀ k₀ openDupFork k ∧
          Obtained .listed 80 ⟨.genSym i⟩ es₀ k₀ openDupFork k') ∧
    ∀ e j', joinStep .listed 80 j e = .ok j' → ∀ fd ∈ e.sType.opened, ∃ i, j.gensymCt < i ∧
      Sole j'.ctx (e.sEv.pid, fd) ⟨.genSym i⟩ (dgnGet j.ctx e.mid) :=
  ⟨_, rfl, connections_are_fresh rfl⟩

end BorderPatrol.Agg
