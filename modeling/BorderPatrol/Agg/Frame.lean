import BorderPatrol.Agg.Renaming
import Mathlib.Logic.Function.Basic

/-!
# What an event leaves as it is

An event is of a thread and names descriptors of its process. It changes no designation but that of
the thread (`Exec` those of the process), binds no descriptor of another process, and writes entries
only for the messages of connections that its descriptors have (`streamJoin_frame`); a connection
that is renamed is the exception.

What the join knows is a `View`: the designation of each thread, the connection of each descriptor,
the request of each message. An event on one connection reads and writes the designation of its
thread and entries of that connection, so that two such events of different threads on different
connections may be joined in either order (`independent_commute`).
-/

namespace BorderPatrol.Agg

open Foundations

/-- The descriptors named in an event. -/
def EventType.fds : EventType → List ℤ
  | .poll _ fd | .socket fd | .close fd | .accept fd _ | .connect fd _ | .open fd | .writeBegin fd
  | .write fd | .readBegin fd | .read fd | .protocolInit fd | .messageSend _ fd _
  | .messageRecv _ fd _ => [fd]
  | .pipe fi fo => [fi, fo]
  | .dup oldfd newfd => [oldfd, newfd]
  | _ => []

/-- `Connect` and `ProtocolInit` rename a connection. -/
def EventType.isRename : EventType → Bool
  | .connect _ _ | .protocolInit _ => true
  | _ => false

def EventType.isExec : EventType → Bool
  | .exec _ => true
  | _ => false

variable {o : Orders} {port : ℤ} {ctx : Ctx} {j j' : Joiner} {e : Stream}

/-- The thread of an event. -/
def Stream.mid (e : Stream) : Mid := ⟨e.sEv.tid, e.sEv.pid⟩

/-! ## Designations -/

/-- Entries that are changed, but not those of the thread. -/
theorem dgnGet_map {mid : Mid} {f : Dgn → Dgn}
    (hf : ∀ d ∈ ctx.cDgn, f d = d ∨ d.mid ≠ mid ∧ (f d).mid ≠ mid) :
    dgnGet { ctx with cDgn := ctx.cDgn.map f } mid = dgnGet ctx mid := by
  have hfind : (ctx.cDgn.map f).find? (fun dgn => mideq dgn.mid mid && dgn.rid ≠ -1) =
      ctx.cDgn.find? fun dgn => mideq dgn.mid mid && dgn.rid ≠ -1 := by
    generalize ctx.cDgn = l at hf
    induction l with
    | nil => rfl
    | cons d l ih =>
      obtain ⟨hd, hl⟩ := List.forall_mem_cons.1 hf
      rw [List.map_cons, List.find?_cons, List.find?_cons, ih hl]
      rcases hd with hd | ⟨hd, hfd⟩
      · rw [hd]
      · have h₁ : mideq (f d).mid mid = false := by
          rw [Bool.eq_false_iff, ne_eq, mideq_iff]
          exact hfd
        have h₂ : mideq d.mid mid = false := by
          rw [Bool.eq_false_iff, ne_eq, mideq_iff]
          exact hd
        rw [h₁, h₂]
        rfl
  unfold dgnGet
  rw [hfind]

/-- A designation that is set is not another thread's. -/
theorem dgnGet_dgnSet_of_ne {mid mid' : Mid} (h : mid' ≠ mid) (rid : ℤ) :
    dgnGet (dgnSet ctx mid rid) mid' = dgnGet ctx mid' := by
  by_cases hany : ctx.cDgn.any fun dgn => mideq dgn.mid mid
  · have hset : dgnSet ctx mid rid =
        { ctx with cDgn := ctx.cDgn.map fun dgn =>
            if mideq dgn.mid mid then ⟨mid, rid, true⟩ else dgn } := by
      simp only [dgnSet, hany, if_true]
    rw [hset]
    refine dgnGet_map fun d _ => ?_
    by_cases hd : mideq d.mid mid
    · rw [if_pos hd]
      exact .inr ⟨mideq_iff.1 hd ▸ h.symm, h.symm⟩
    · rw [if_neg hd]
      exact .inl rfl
  · have hset : dgnSet ctx mid rid = { ctx with cDgn := ctx.cDgn ++ [⟨mid, rid, true⟩] } := by
      simp only [dgnSet, hany]
      rfl
    have hnew : mideq mid mid' = false := by
      rw [Bool.eq_false_iff, ne_eq, mideq_iff]
      exact h.symm
    rw [hset]
    simp only [dgnGet, List.find?_append, List.find?_cons, hnew, Bool.false_and, List.find?_nil,
      Option.or_none]

/-! ## Descriptors and messages -/

/-- A descriptor has a connection, or is given one that is new. -/
theorem connOfFd_cases (ctx : Ctx) (g pid fd : ℤ) :
    ctx.cFd.find? (pid, fd) = some (connOfFd ctx g pid fd).1 ∧ (connOfFd ctx g pid fd).2 = g ∨
      (connOfFd ctx g pid fd).1 = ⟨.genSym (g + 1)⟩ ∧ (connOfFd ctx g pid fd).2 = g + 1 := by
  unfold connOfFd
  split
  · next conn h => exact .inl ⟨h, rfl⟩
  · exact .inr ⟨rfl, rfl⟩

/-- The connection is one that a descriptor `fds` of the process has before or after the event, or
was generated by it. -/
def Touched (j j' : Joiner) (pid : ℤ) (fds : List ℤ) (c : Conn) : Prop :=
  (∃ fd ∈ fds, j.ctx.cFd.find? (pid, fd) = some c ∨ j'.ctx.cFd.find? (pid, fd) = some c) ∨
    ∃ i, j.gensymCt < i ∧ i ≤ j'.gensymCt ∧ c = ⟨.genSym i⟩

theorem le_connOfFd (ctx : Ctx) (g pid fd : ℤ) : g ≤ (connOfFd ctx g pid fd).2 := by
  rcases connOfFd_cases ctx g pid fd with ⟨-, h⟩ | ⟨-, h⟩ <;> omega

theorem touched_connOfFd {pid fd g : ℤ} {fds : List ℤ} (hfd : fd ∈ fds)
    (hctx : ctx.cFd = j.ctx.cFd ∨ ctx.cFd = j'.ctx.cFd) (hg : j.gensymCt ≤ g)
    (hg' : (connOfFd ctx g pid fd).2 ≤ j'.gensymCt) :
    Touched j j' pid fds (connOfFd ctx g pid fd).1 := by
  rcases connOfFd_cases ctx g pid fd with ⟨h, -⟩ | ⟨h, hct⟩
  · rcases hctx with hctx | hctx <;> rw [hctx] at h
    · exact .inl ⟨fd, hfd, .inl h⟩
    · exact .inl ⟨fd, hfd, .inr h⟩
  · exact .inr ⟨g + 1, by omega, by omega, h⟩

/-- `j'` has the entries of `j`, with those of `ws` written one after the other. -/
def Stores (j j' : Joiner) (ws : List ((Conn × ℤ) × ℤ)) : Prop :=
  j'.ctx.cConn = ws.foldl (fun t w => t.replace w.1 w.2) j.ctx.cConn

theorem joinOpen_stores (j : Joiner) (ev : Event) (fd : ℤ) : ∃ ws,
    Stores j (joinOpen j ev fd) ws ∧ ∀ w ∈ ws, Touched j (joinOpen j ev fd) ev.pid [fd] w.1.1 := by
  set ctx := setFdConn j.ctx ev.pid fd (newSimpleStream j.gensymCt).1 with hctx
  refine ⟨[(((connOfFd ctx (j.gensymCt + 1) ev.pid fd).1, fakeMsgId),
    dgnGet j.ctx ⟨ev.tid, ev.pid⟩)], rfl, ?_⟩
  intro w hw
  rw [List.mem_singleton.1 hw]
  exact touched_connOfFd List.mem_cons_self (.inr rfl) (by omega) le_rfl

theorem joinPipe_stores (j : Joiner) (ev : Event) (fi fo : ℤ) : ∃ ws,
    Stores j (joinPipe j ev fi fo) ws ∧
      ∀ w ∈ ws, Touched j (joinPipe j ev fi fo) ev.pid [fi, fo] w.1.1 := by
  set ctx := setFdConn (setFdConn j.ctx ev.pid fi (newSimpleStream (j.gensymCt + 1)).1) ev.pid fo
    (newSimpleStream j.gensymCt).1 with hctx
  set g := j.gensymCt + 1 + 1 with hg
  set rid := dgnGet j.ctx ⟨ev.tid, ev.pid⟩ with hrid
  set c₁ := connOfFd ctx g ev.pid fi with hc₁
  set c₂ := connOfFd ctx c₁.2 ev.pid fo with hc₂
  have h₁ : g ≤ c₁.2 := le_connOfFd ctx g ev.pid fi
  have h₂ : c₁.2 ≤ c₂.2 := le_connOfFd ctx c₁.2 ev.pid fo
  have hct : (joinPipe j ev fi fo).gensymCt = c₂.2 := rfl
  refine ⟨[((c₁.1, fakeMsgId), rid), ((c₂.1, fakeMsgId), rid)], rfl, ?_⟩
  intro w hw
  rcases List.mem_cons.1 hw with rfl | hw
  · exact touched_connOfFd List.mem_cons_self (.inr rfl) (by omega) (h₂.trans hct.ge)
  · rw [List.mem_singleton.1 hw]
    exact touched_connOfFd (List.mem_cons_of_mem _ List.mem_cons_self) (.inr rfl) (by omega) le_rfl

theorem joinSend_stores (j : Joiner) (ev : Event) (prot : List Byte) (fd msgid : ℤ) : ∃ ws,
    Stores j (joinSend j ev prot fd msgid) ws ∧
      ∀ w ∈ ws, Touched j (joinSend j ev prot fd msgid) ev.pid [fd] w.1.1 := by
  set g₁ := (connOfFd j.ctx j.gensymCt ev.pid fd).2 with hg₁
  set g₂ := (connOfFd j.ctx g₁ ev.pid fd).2 with hg₂
  refine ⟨[(((connOfFd j.ctx g₂ ev.pid fd).1, msgid), dgnGet j.ctx ⟨ev.tid, ev.pid⟩)], rfl, ?_⟩
  intro w hw
  rw [List.mem_singleton.1 hw]
  have h₁ := le_connOfFd j.ctx j.gensymCt ev.pid fd
  have h₂ := le_connOfFd j.ctx g₁ ev.pid fd
  exact touched_connOfFd List.mem_cons_self (.inl rfl) (by omega) le_rfl

/-- The context and the counter after a receive. -/
theorem joinRecv_eq (port : ℤ) (j : Joiner) (ev : Event) (prot : List Byte) (fd msgid : ℤ) :
    ∃ g arid msg, j.gensymCt ≤ g ∧ (joinRecv port j ev prot fd msgid).ctx =
        addMsg (setMsg (dgnSet j.ctx ⟨ev.tid, ev.pid⟩ arid) g ev.pid fd fakeMsgId arid).1 msg ∧
      (joinRecv port j ev prot fd msgid).gensymCt =
        (setMsg (dgnSet j.ctx ⟨ev.tid, ev.pid⟩ arid) g ev.pid fd fakeMsgId arid).2 := by
  have hle := le_connOfFd j.ctx
  set g₁ := (connOfFd j.ctx j.gensymCt ev.pid fd).2 with hg₁
  set g₂ := (connOfFd j.ctx g₁ ev.pid fd).2 with hg₂
  set g₃ := (connOfFd j.ctx g₂ ev.pid fd).2 with hg₃
  set g₄ := (connOfFd j.ctx g₃ ev.pid fd).2 with hg₄
  have h₁ := hle j.gensymCt ev.pid fd
  have h₂ := hle g₁ ev.pid fd
  have h₃ := hle g₂ ev.pid fd
  have h₄ := hle g₃ ev.pid fd
  by_cases hd : distinguishedConn port (connOfFd j.ctx j.gensymCt ev.pid fd).1 = true
  · simp only [joinRecv, hd, if_true]
    exact ⟨g₃, _, _, by omega, rfl, rfl⟩
  · simp only [joinRecv, hd]
    exact ⟨g₄, _, _, by omega, rfl, rfl⟩

theorem joinRecv_stores (port : ℤ) (j : Joiner) (ev : Event) (prot : List Byte) (fd msgid : ℤ) :
    ∃ ws, Stores j (joinRecv port j ev prot fd msgid) ws ∧
      ∀ w ∈ ws, Touched j (joinRecv port j ev prot fd msgid) ev.pid [fd] w.1.1 := by
  obtain ⟨g, arid, msg, hg, hctx, hct⟩ := joinRecv_eq port j ev prot fd msgid
  refine ⟨[(((connOfFd (dgnSet j.ctx ⟨ev.tid, ev.pid⟩ arid) g ev.pid fd).1, fakeMsgId), arid)],
    congrArg Ctx.cConn hctx, ?_⟩
  intro w hw
  rw [List.mem_singleton.1 hw]
  exact touched_connOfFd List.mem_cons_self (.inl rfl) hg hct.ge

/-- **What an event writes**: entries of connections that its descriptors have. -/
theorem streamJoin_stores (hr : e.sType.isRename = false) (h : streamJoin o port j e = .ok j') :
    ∃ ws, Stores j j' ws ∧ ∀ w ∈ ws, Touched j j' e.sEv.pid e.sType.fds w.1.1 := by
  obtain ⟨type, ev⟩ := e
  have hnone : ∀ j' : Joiner, j'.ctx.cConn = j.ctx.cConn → ∃ ws, Stores j j' ws ∧
      ∀ w ∈ ws, Touched j j' ev.pid type.fds w.1.1 :=
    fun j' h => ⟨[], h, fun _ hw => absurd hw List.not_mem_nil⟩
  unfold streamJoin at h
  cases type with
  | connect fd rdv => cases hr
  | protocolInit fd => cases hr
  | poll timedOut fd => cases timedOut <;> cases h <;> exact hnone _ rfl
  | «open» fd =>
    cases h
    exact joinOpen_stores j ev fd
  | socket fd =>
    cases h
    exact joinOpen_stores j ev fd
  | pipe fi fo =>
    cases h
    exact joinPipe_stores j ev fi fo
  | read fd =>
    cases h
    refine hnone _ ?_
    rw [apply_ite Ctx.cConn]
    exact ite_self _
  | messageSend prot fd msgid =>
    cases h
    exact joinSend_stores j ev prot fd msgid
  | messageRecv prot fd msgid =>
    cases h
    exact joinRecv_stores port j ev prot fd msgid
  | unknown => cases h
  | _ =>
    cases h
    exact hnone _ rfl

/-! ## Descriptors -/

/-- The bindings of a process are added to, and no other's. -/
theorem find?_foldl_add {κ α : Type} [DecidableEq κ] (key : κ × α → κ) (bs : List (κ × α))
    (t : Hashtbl κ α) {k : κ} (hk : ∀ b ∈ bs, key b ≠ k) :
    (bs.foldl (fun t b => t.add (key b) b.2) t).find? k = t.find? k := by
  induction bs generalizing t with
  | nil => rfl
  | cons b bs ih =>
    obtain ⟨hb, hbs⟩ := List.forall_mem_cons.1 hk
    rw [List.foldl_cons, ih _ hbs, Hashtbl.find?_add, if_neg hb]

/-- **What an event binds**: descriptors of its process. -/
theorem streamJoin_fd (hr : e.sType.isRename = false) (h : streamJoin o port j e = .ok j')
    {p : ℤ} (hp : p ≠ e.sEv.pid) (f : ℤ) : j'.ctx.cFd.find? (p, f) = j.ctx.cFd.find? (p, f) := by
  obtain ⟨type, ev⟩ := e
  have hset : ∀ (ctx : Ctx) (fd : ℤ) (c : Conn),
      (setFdConn ctx ev.pid fd c).cFd.find? (p, f) = ctx.cFd.find? (p, f) := fun ctx fd c =>
    Hashtbl.find?_replace_of_ne fun h => hp (congrArg Prod.fst h).symm
  unfold streamJoin at h
  cases type with
  | connect fd rdv => cases hr
  | protocolInit fd => cases hr
  | fork ppid ptid =>
    cases h
    exact find?_foldl_add (fun b => (ev.pid, b.1.2)) _ _
      fun b _ h => hp (congrArg Prod.fst h).symm
  | poll timedOut fd => cases timedOut <;> cases h <;> rfl
  | «open» fd =>
    cases h
    exact hset _ fd _
  | socket fd =>
    cases h
    exact hset _ fd _
  | pipe fi fo =>
    cases h
    exact (hset _ fo _).trans (hset _ fi _)
  | dup oldfd newfd =>
    cases h
    exact hset _ newfd _
  | accept fd rdv =>
    cases h
    exact hset _ fd _
  | read fd =>
    cases h
    simp only [apply_ite Ctx.cFd]
    exact congrArg (Hashtbl.find? · (p, f)) (ite_self _)
  | messageRecv prot fd msgid =>
    cases h
    obtain ⟨g, arid, msg, -, hctx, -⟩ := joinRecv_eq port j ev prot fd msgid
    rw [hctx]
    rfl
  | unknown => cases h
  | _ =>
    cases h
    rfl

/-! ## The frame of an event -/

theorem dgnGet_congr {ctx' : Ctx} (h : ctx'.cDgn = ctx.cDgn) (mid : Mid) :
    dgnGet ctx' mid = dgnGet ctx mid := by
  rw [dgnGet, dgnGet, h]

theorem joinRename_dgn {ev : Event} {fd : ℤ} {name : Conn → Conn}
    (h : joinRename o j ev fd name = .ok j') : j'.ctx.cDgn = j.ctx.cDgn := by
  obtain ⟨j'', hj'', hrenamed, -⟩ := joinRename_spec o j ev fd name
  rw [h] at hj''
  cases hj''
  exact hrenamed.dgn

/-- What an event does to the designations: nothing, or it sets that of its thread. -/
theorem streamJoin_cDgn (hx : e.sType.isExec = false) (h : streamJoin o port j e = .ok j') :
    j'.ctx.cDgn = j.ctx.cDgn ∨ ∃ rid, j'.ctx.cDgn = (dgnSet j.ctx e.mid rid).cDgn := by
  obtain ⟨type, ev⟩ := e
  unfold streamJoin at h
  cases type with
  | exec ptid => cases hx
  | connect fd rdv => exact .inl (joinRename_dgn h)
  | protocolInit fd => exact .inl (joinRename_dgn h)
  | fork ppid ptid =>
    cases h
    exact .inr ⟨_, rfl⟩
  | poll timedOut fd =>
    cases timedOut <;> cases h
    · exact .inr ⟨_, rfl⟩
    · exact .inl rfl
  | read fd =>
    cases h
    simp only
    split_ifs
    · exact .inl rfl
    · exact .inr ⟨_, rfl⟩
  | messageRecv prot fd msgid =>
    cases h
    obtain ⟨g, arid, msg, -, hctx, -⟩ := joinRecv_eq port j ev prot fd msgid
    refine .inr ⟨arid, ?_⟩
    change (joinRecv port j ev prot fd msgid).ctx.cDgn = _
    rw [hctx]
    rfl
  | exit =>
    cases h
    exact .inr ⟨_, rfl⟩
  | abort =>
    cases h
    exact .inr ⟨_, rfl⟩
  | shutdown =>
    cases h
    exact .inr ⟨_, rfl⟩
  | unknown => cases h
  | _ =>
    cases h
    exact .inl rfl

/-- **What an event designates**: its own thread. -/
theorem streamJoin_dgn (hx : e.sType.isExec = false) (h : streamJoin o port j e = .ok j')
    {mid : Mid} (hm : mid ≠ e.mid) : dgnGet j'.ctx mid = dgnGet j.ctx mid := by
  rcases streamJoin_cDgn hx h with hdgn | ⟨rid, hdgn⟩
  · exact dgnGet_congr hdgn mid
  · rw [dgnGet_congr hdgn]
    exact dgnGet_dgnSet_of_ne hm rid

/-- `Exec` gives its thread the designations of the process. -/
theorem streamJoin_exec (hx : e.sType.isExec = true) (h : streamJoin o port j e = .ok j') :
    j'.ctx = { j.ctx with cDgn := j.ctx.cDgn.map fun d =>
      if d.mid.pid = e.sEv.pid then ⟨e.mid, d.rid, true⟩ else d } := by
  obtain ⟨type, ev⟩ := e
  unfold streamJoin at h
  cases type with
  | exec ptid =>
    cases h
    rfl
  | _ => cases hx

theorem streamJoin_exec_dgn (hx : e.sType.isExec = true) (h : streamJoin o port j e = .ok j')
    {mid : Mid} (hm : mid.pid ≠ e.sEv.pid) : dgnGet j'.ctx mid = dgnGet j.ctx mid := by
  rw [streamJoin_exec hx h]
  refine dgnGet_map fun d _ => ?_
  by_cases hd : d.mid.pid = e.sEv.pid
  · rw [if_pos hd]
    refine .inr ⟨?_, ?_⟩
    · rintro rfl
      exact hm hd
    · rintro rfl
      exact hm rfl
  · rw [if_neg hd]
    exact .inl rfl

/-- What entries may change: those written. -/
theorem find?_foldl_replace_of_ne {κ α : Type} [DecidableEq κ] (ws : List (κ × α))
    (t : Hashtbl κ α) {k : κ} (hk : ∀ w ∈ ws, w.1 ≠ k) :
    (ws.foldl (fun t w => t.replace w.1 w.2) t).find? k = t.find? k := by
  induction ws generalizing t with
  | nil => rfl
  | cons w ws ih =>
    obtain ⟨hw, hws⟩ := List.forall_mem_cons.1 hk
    rw [List.foldl_cons, ih _ hws, Hashtbl.find?_replace_of_ne hw]

/-- An event that takes `j` to `j'` changes only what is its own. -/
structure Framed (j : Joiner) (e : Stream) (j' : Joiner) : Prop where
  dgn : e.sType.isExec = false → ∀ mid, mid ≠ e.mid → dgnGet j'.ctx mid = dgnGet j.ctx mid
  exec : e.sType.isExec = true → ∀ mid : Mid, mid.pid ≠ e.sEv.pid →
    dgnGet j'.ctx mid = dgnGet j.ctx mid
  fd : e.sType.isRename = false → ∀ p f, p ≠ e.sEv.pid →
    j'.ctx.cFd.find? (p, f) = j.ctx.cFd.find? (p, f)
  entry : e.sType.isRename = false → ∀ c m, ¬ Touched j j' e.sEv.pid e.sType.fds c →
    j'.ctx.cConn.find? (c, m) = j.ctx.cConn.find? (c, m)

/-- **The frame of an event.** Designations change for the thread of the event only, for `Exec`
those of its process; but for `Connect` and `ProtocolInit`, descriptors change for its process only
and entries for the connections of the descriptors it names. -/
theorem streamJoin_frame (h : streamJoin o port j e = .ok j') : Framed j e j' where
  dgn hx _ hm := streamJoin_dgn hx h hm
  exec hx _ hm := streamJoin_exec_dgn hx h hm
  fd hr _ f hp := streamJoin_fd hr h hp f
  entry hr c m hc := by
    obtain ⟨ws, hws, htouched⟩ := streamJoin_stores hr h
    rw [hws]
    refine find?_foldl_replace_of_ne ws _ fun w hw hk => hc ?_
    have hw' := htouched w hw
    rwa [hk] at hw'

/-- A server reads its descriptor 5, on which the message 3 of the request 7 has come. -/
def serving : Joiner where
  ctx := {
    cDgn := [⟨⟨2, 20⟩, 7, false⟩]
    cFd := Hashtbl.create.replace (20, 5) ⟨.hostPort (ascii "a:1->b:2")⟩
    cConn := Hashtbl.create.replace (⟨.hostPort (ascii "a:1->b:2")⟩, 3) 7
    cMsgs := [] }
  gensymCt := 0
  genridCt := 8
  graphout := []

/-- Another process opens a file as its descriptor 5, while the server reads. -/
theorem streamJoin_frame_open : ∃ j',
    streamJoin .listed 80 serving (eventOf 10 1 (.open 5)) = .ok j' ∧
      Framed serving (eventOf 10 1 (.open 5)) j' ∧
      dgnGet j'.ctx ⟨2, 20⟩ = 7 ∧
      j'.ctx.cFd.find? (20, 5) = some ⟨.hostPort (ascii "a:1->b:2")⟩ := by
  have h : streamJoin .listed 80 serving (eventOf 10 1 (.open 5)) = .ok _ := rfl
  have hframed := streamJoin_frame h
  refine ⟨_, h, hframed, ?_, ?_⟩
  · rw [hframed.dgn rfl ⟨2, 20⟩ (by decide)]
    rfl
  · rw [hframed.fd rfl 20 5 (by decide)]
    rfl

/-! ## What the join knows -/

/-- The designations of the threads, the connections of the descriptors, and the requests of the
messages. -/
@[ext] structure View where
  dgn : Mid → ℤ
  fd : ℤ × ℤ → Option Conn
  msg : Conn × ℤ → Option ℤ

/-- What a context says. -/
def Ctx.view (ctx : Ctx) : View := ⟨dgnGet ctx, ctx.cFd.find?, ctx.cConn.find?⟩

/-- What an event on one connection writes: a designation of its thread, and an entry. -/
structure Effect where
  dgn : Option ℤ
  msg : Option ((Conn × ℤ) × ℤ)

/-- The view after the thread has written. -/
def View.write (v : View) (mid : Mid) (w : Effect) : View where
  dgn := w.dgn.elim v.dgn (Function.update v.dgn mid)
  fd := v.fd
  msg := w.msg.elim v.msg fun m => Function.update v.msg m.1 (some m.2)

/-- What the events on a connection `c` write, where `own` is the designation of the thread and
`rid` has the requests of the messages of `c`. -/
def effect (c : Conn) (own : ℤ) (rid : ℤ → ℤ) : EventType → Effect
  | .read _ => ⟨if rid fakeMsgId = -1 then none else some (rid fakeMsgId), none⟩
  | .poll false _ => ⟨some (rid fakeMsgId), none⟩
  | .messageSend _ _ msgid => ⟨none, some ((c, msgid), own)⟩
  | .messageRecv _ _ msgid => ⟨some (rid msgid), some ((c, fakeMsgId), rid msgid)⟩
  | .exit => ⟨some (-1), none⟩
  | _ => ⟨none, none⟩

/-- What an event on `c` writes in a view. -/
def View.effect (v : View) (mid : Mid) (c : Conn) (type : EventType) : Effect :=
  Agg.effect c (v.dgn mid) (fun m => (v.msg (c, m)).getD (-1)) type

/-- The event is a `Read`, a `Poll` that has not timed out, a `MessageSend`, or a `MessageRecv` on a
connection that is not distinguished, whose descriptor has the connection `c`, or it is an `Exit`,
which is on any connection. -/
inductive OnConn (port : ℤ) (ctx : Ctx) (c : Conn) : Stream → Prop
  | read {ev : Event} {fd : ℤ} (h : ctx.cFd.find? (ev.pid, fd) = some c) :
    OnConn port ctx c ⟨.read fd, ev⟩
  | poll {ev : Event} {fd : ℤ} (h : ctx.cFd.find? (ev.pid, fd) = some c) :
    OnConn port ctx c ⟨.poll false fd, ev⟩
  | send {ev : Event} {prot : List Byte} {fd msgid : ℤ}
    (h : ctx.cFd.find? (ev.pid, fd) = some c) : OnConn port ctx c ⟨.messageSend prot fd msgid, ev⟩
  | recv {ev : Event} {prot : List Byte} {fd msgid : ℤ}
    (h : ctx.cFd.find? (ev.pid, fd) = some c) (hc : distinguishedConn port c = false) :
    OnConn port ctx c ⟨.messageRecv prot fd msgid, ev⟩
  | exit {ev : Event} : OnConn port ctx c ⟨.exit, ev⟩

variable {c c₁ c₂ : Conn}

theorem view_dgnSet (ctx : Ctx) (mid : Mid) (rid : ℤ) :
    (dgnSet ctx mid rid).view = { ctx.view with dgn := Function.update ctx.view.dgn mid rid } := by
  apply View.ext
  · funext mid'
    change dgnGet (dgnSet ctx mid rid) mid' = Function.update (dgnGet ctx) mid rid mid'
    by_cases hm : mid' = mid
    · rw [hm, Function.update_self]
      exact dgnGet_dgnSet ..
    · rw [Function.update_of_ne hm]
      exact dgnGet_dgnSet_of_ne hm rid
  · rfl
  · rfl

theorem view_store (ctx : Ctx) (k : Conn × ℤ) (rid : ℤ) :
    ({ ctx with cConn := ctx.cConn.replace k rid } : Ctx).view =
      { ctx.view with msg := Function.update ctx.view.msg k (some rid) } := by
  apply View.ext
  · rfl
  · rfl
  · funext k'
    change (ctx.cConn.replace k rid).find? k' = Function.update ctx.cConn.find? k (some rid) k'
    by_cases hk : k' = k
    · rw [hk, Function.update_self]
      exact Hashtbl.find?_replace_self
    · rw [Function.update_of_ne hk]
      exact Hashtbl.find?_replace_of_ne (Ne.symm hk)

theorem view_clearFlags (ctx : Ctx) : (clearFlags ctx).view = ctx.view := by
  apply View.ext
  · funext mid
    exact dgnGet_clearFlags ctx mid
  · rfl
  · rfl

theorem OnConn.congr {ctx' : Ctx} (hfd : ctx'.cFd.find? = ctx.cFd.find?)
    (h : OnConn port ctx c e) : OnConn port ctx' c e := by
  cases h with
  | read h => exact .read (hfd ▸ h)
  | poll h => exact .poll (hfd ▸ h)
  | send h => exact .send (hfd ▸ h)
  | recv h hc => exact .recv (hfd ▸ h) hc
  | exit => exact .exit

theorem view_setMsg {pid fd : ℤ} (h : ctx.cFd.find? (pid, fd) = some c) (g m rid : ℤ) :
    (setMsg ctx g pid fd m rid).1.view =
      { ctx.view with msg := Function.update ctx.view.msg (c, m) (some rid) } := by
  rw [setMsg, connOfFd_of h]
  exact view_store ctx (c, m) rid

theorem ridOfMsg_of {pid fd : ℤ} (h : ctx.cFd.find? (pid, fd) = some c) (g m : ℤ) :
    ridOfMsg ctx g pid fd m = ((ctx.cConn.find? (c, m)).getD (-1), g) := by
  rw [ridOfMsg, connOfFd_of h]

/-- **An event on a connection** writes its effect, and only that. -/
theorem OnConn.streamJoin (h : OnConn port j.ctx c e) : ∃ j', streamJoin o port j e = .ok j' ∧
    j'.ctx.view = j.ctx.view.write e.mid (j.ctx.view.effect e.mid c e.sType) := by
  cases h with
  | @read ev fd h =>
    set rid := (j.ctx.cConn.find? (c, fakeMsgId)).getD (-1) with hrid
    have hrun : Agg.streamJoin o port j ⟨.read fd, ev⟩ =
        .ok { j with ctx := if rid = -1 then j.ctx else dgnSet j.ctx ⟨ev.tid, ev.pid⟩ rid } := by
      simp only [Agg.streamJoin, ridOfMsg_of h, hrid]
    refine ⟨_, hrun, ?_⟩
    by_cases hnone : rid = -1
    · rw [if_pos hnone]
      simp [View.write, View.effect, effect, Ctx.view, ← hrid, hnone]
    · rw [if_neg hnone, view_dgnSet]
      simp [View.write, View.effect, effect, Ctx.view, ← hrid, hnone, Stream.mid]
  | @poll ev fd h =>
    set rid := (j.ctx.cConn.find? (c, fakeMsgId)).getD (-1) with hrid
    have hrun : Agg.streamJoin o port j ⟨.poll false fd, ev⟩ =
        .ok { j with ctx := dgnSet j.ctx ⟨ev.tid, ev.pid⟩ rid } := by
      simp only [Agg.streamJoin, ridOfMsg_of h, hrid]
    exact ⟨_, hrun, view_dgnSet ..⟩
  | @send ev prot fd msgid h =>
    refine ⟨_, rfl, ?_⟩
    simp only [joinSend, connOfFd_of h]
    exact view_setMsg h ..
  | @recv ev prot fd msgid h hc =>
    refine ⟨_, rfl, ?_⟩
    have hset : ∀ rid, (dgnSet j.ctx ⟨ev.tid, ev.pid⟩ rid).cFd.find? (ev.pid, fd) = some c :=
      fun _ => h
    simp only [joinRecv, connOfFd_of h, hc, Bool.false_eq_true, if_false, ridOfMsg_of h]
    refine (view_setMsg (hset _) ..).trans ?_
    rw [view_dgnSet]
    rfl
  | exit => exact ⟨_, rfl, view_dgnSet ..⟩

theorem OnConn.joinStep (h : OnConn port j.ctx c e) : ∃ j', joinStep o port j e = .ok j' ∧
    j'.ctx.view = j.ctx.view.write e.mid (j.ctx.view.effect e.mid c e.sType) := by
  have hfd : (clearFlags j.ctx).cFd.find? = j.ctx.cFd.find? := rfl
  obtain ⟨j', hj', hview⟩ :=
    OnConn.streamJoin (o := o) (j := { j with ctx := clearFlags j.ctx }) (h.congr hfd)
  rw [view_clearFlags] at hview
  exact ⟨j', hj', hview⟩

/-! ## Events on different connections -/

/-- The entry is one of the connection. -/
theorem effect_msg {own : ℤ} {rid : ℤ → ℤ} {type : EventType} {m : (Conn × ℤ) × ℤ}
    (h : (effect c own rid type).msg = some m) : m.1.1 = c := by
  cases type with
  | poll timedOut fd => cases timedOut <;> cases h
  | messageSend prot fd msgid =>
    cases h
    rfl
  | messageRecv prot fd msgid =>
    cases h
    rfl
  | _ => cases h

variable {v : View} {mid₁ mid₂ : Mid} {w₁ w₂ : Effect}

/-- What a thread does on a connection does not depend on what others wrote for another. -/
theorem View.effect_write (hm : mid₂ ≠ mid₁) (hw : ∀ m, w₁.msg = some m → m.1.1 ≠ c₂)
    (type : EventType) : (v.write mid₁ w₁).effect mid₂ c₂ type = v.effect mid₂ c₂ type := by
  have hdgn : (v.write mid₁ w₁).dgn mid₂ = v.dgn mid₂ := by
    unfold View.write
    cases w₁.dgn with
    | none => rfl
    | some rid => exact Function.update_of_ne hm ..
  have hmsg : ∀ m, (v.write mid₁ w₁).msg (c₂, m) = v.msg (c₂, m) := by
    intro m
    unfold View.write
    cases hw₁ : w₁.msg with
    | none => rfl
    | some x =>
      exact Function.update_of_ne (fun h => hw x hw₁ (congrArg Prod.fst h).symm) ..
  simp only [View.effect, hdgn, hmsg]

/-- Designations of two threads and entries of two connections are written in either order. -/
theorem View.write_comm (hm : mid₁ ≠ mid₂)
    (hw : ∀ m₁ m₂, w₁.msg = some m₁ → w₂.msg = some m₂ → m₁.1 ≠ m₂.1) :
    (v.write mid₁ w₁).write mid₂ w₂ = (v.write mid₂ w₂).write mid₁ w₁ := by
  obtain ⟨d₁, m₁⟩ := w₁
  obtain ⟨d₂, m₂⟩ := w₂
  apply View.ext
  · cases d₁ <;> cases d₂ <;> try rfl
    exact Function.update_comm hm ..
  · rfl
  · cases m₁ <;> cases m₂ <;> try rfl
    exact Function.update_comm (hw _ _ rfl rfl) ..

/-- Two events on different connections, one after the other. -/
theorem OnConn.joinStep_joinStep {e₁ e₂ : Stream} (h₁ : OnConn port j.ctx c₁ e₁)
    (h₂ : OnConn port j.ctx c₂ e₂) (hc : c₁ ≠ c₂) (hm : e₁.mid ≠ e₂.mid) :
    ∃ j', runSteps (Agg.joinStep o port) j [e₁, e₂] = .ok j' ∧ j'.ctx.view =
      (j.ctx.view.write e₁.mid (j.ctx.view.effect e₁.mid c₁ e₁.sType)).write e₂.mid
        (j.ctx.view.effect e₂.mid c₂ e₂.sType) := by
  obtain ⟨j₁, hj₁, hview₁⟩ := OnConn.joinStep (o := o) h₁
  have hfd : j₁.ctx.cFd.find? = j.ctx.cFd.find? := congrArg View.fd hview₁
  obtain ⟨j₂, hj₂, hview₂⟩ := OnConn.joinStep (o := o) (h₂.congr hfd)
  have hw : ∀ m, (j.ctx.view.effect e₁.mid c₁ e₁.sType).msg = some m → m.1.1 ≠ c₂ := by
    intro m hmsg
    rw [effect_msg hmsg]
    exact hc
  refine ⟨j₂, ?_, ?_⟩
  · rw [runSteps, hj₁, ok_bind, runSteps, hj₂, ok_bind, runSteps]
  · rw [hview₂, hview₁, View.effect_write hm.symm hw]

/-- **Independent events commute.** Two events of different threads on different connections may be
joined in either order, with the same designations, connections and requests in the end. -/
theorem independent_commute {e₁ e₂ : Stream} (h₁ : OnConn port j.ctx c₁ e₁)
    (h₂ : OnConn port j.ctx c₂ e₂) (hc : c₁ ≠ c₂) (hm : e₁.mid ≠ e₂.mid) :
    ∃ j₁ j₂, runSteps (joinStep o port) j [e₁, e₂] = .ok j₁ ∧
      runSteps (joinStep o port) j [e₂, e₁] = .ok j₂ ∧
      (∀ mid, dgnGet j₁.ctx mid = dgnGet j₂.ctx mid) ∧
      (∀ pid fd, j₁.ctx.cFd.find? (pid, fd) = j₂.ctx.cFd.find? (pid, fd)) ∧
      ∀ c m, j₁.ctx.cConn.find? (c, m) = j₂.ctx.cConn.find? (c, m) := by
  obtain ⟨j₁, hrun₁, hview₁⟩ := OnConn.joinStep_joinStep (o := o) h₁ h₂ hc hm
  obtain ⟨j₂, hrun₂, hview₂⟩ := OnConn.joinStep_joinStep (o := o) h₂ h₁ hc.symm hm.symm
  have hview : j₁.ctx.view = j₂.ctx.view := by
    rw [hview₁, hview₂]
    refine View.write_comm hm fun m₁ m₂ hm₁ hm₂ h => hc ?_
    rw [← effect_msg hm₁, ← effect_msg hm₂, h]
  refine ⟨j₁, j₂, hrun₁, hrun₂, ?_, ?_, ?_⟩
  · exact congrFun (congrArg View.dgn hview)
  · exact fun pid fd => congrFun (congrArg View.fd hview) (pid, fd)
  · exact fun c m => congrFun (congrArg View.msg hview) (c, m)

/-- One process reads a file and another is sent a message on its own. -/
theorem independent_commute_files : ∃ j, runSteps (joinStep .listed 80) .start
      [eventOf 10 1 (.open 5), eventOf 20 1 (.open 5)] = .ok j ∧ ∃ j₁ j₂,
    runSteps (joinStep .listed 80) j
      [eventOf 10 1 (.read 5), eventOf 20 1 (.messageRecv [] 5 0)] = .ok j₁ ∧
    runSteps (joinStep .listed 80) j
      [eventOf 20 1 (.messageRecv [] 5 0), eventOf 10 1 (.read 5)] = .ok j₂ ∧
    (∀ mid, dgnGet j₁.ctx mid = dgnGet j₂.ctx mid) ∧
    (∀ pid fd, j₁.ctx.cFd.find? (pid, fd) = j₂.ctx.cFd.find? (pid, fd)) ∧
    ∀ c m, j₁.ctx.cConn.find? (c, m) = j₂.ctx.cConn.find? (c, m) := by
  have h : runSteps (joinStep .listed 80) .start
      [eventOf 10 1 (.open 5), eventOf 20 1 (.open 5)] = .ok _ := rfl
  have hne : (⟨.genSym 1⟩ : Conn) ≠ ⟨.genSym 2⟩ := by decide
  exact ⟨_, h, independent_commute (.read rfl) (.recv rfl rfl) hne (by decide)⟩

end BorderPatrol.Agg
