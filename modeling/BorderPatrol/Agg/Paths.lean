import BorderPatrol.Agg.Designations
import BorderPatrol.Agg.Messages
import BorderPatrol.Agg.Provenance
import BorderPatrol.Foundations.Lineage

/-!
# The paths of requests

An id that is found for a thread, or for a message of a connection, has come there on a path. It was
given out at the head of a request, and each event of the path took it from where the event before
had left it: from its own thread, from the thread that forked it, from a thread of the process that
called `exec`, or from a message of a connection that one of its descriptors has. So a request gets
to a thread only over contacts that were logged (`request_lineage`), and this is so of each row of
table `dgn` at its time (`dgnTable_lineage`).
-/

namespace BorderPatrol.Agg

open Foundations

/-- Where the context has ids: what a thread is working on, and for which request a message was
sent. -/
inductive Place
  | thread (mid : Mid)
  | entry (conn : Conn) (msgid : ℤ)

/-- A request is found there, hidden entries included. -/
def Ctx.Keeps (ctx : Ctx) : Place → ℤ → Prop
  | .thread mid, r => r ≠ -1 ∧ ∃ d ∈ ctx.cDgn, d.mid = mid ∧ d.rid = r
  | .entry c m, r => r ≠ -1 ∧ r ∈ ctx.cConn.stack (c, m)

/-- The connection is one of a descriptor that the event names. -/
def On (m : Made Joiner Stream) (c : Conn) : Prop :=
  Touched m.before m.after m.event.sEv.pid m.event.sType.fds c

/-- Where an event takes ids from. -/
def TakesFrom (m : Made Joiner Stream) : Place → Prop
  | .thread mid => mid = m.event.mid ∨ m.event.sType = .fork mid.pid mid.tid ∨
      m.event.sType.isExec = true ∧ mid.pid = m.event.sEv.pid
  | .entry c _ => On m c

/-- Where it leaves them. -/
def LeavesIn (m : Made Joiner Stream) : Place → Prop
  | .thread mid => mid = m.event.mid
  | .entry c _ => On m c

/-- How events carry the ids of requests, which are given out at their heads. -/
def carriage (port : ℤ) : Carriage Joiner Stream Place ℤ where
  holds j := j.ctx.Keeps
  takes := TakesFrom
  leaves := LeavesIn
  bears m r := r ∈ begun port m.before m.event

variable {o : Orders} {port : ℤ} {ctx : Ctx} {j j' : Joiner} {e : Stream} {p : Place} {r : ℤ}

/-- **Contacts.** Two events meet when they are of one thread, when the second is of a child that
the thread of the first forked, or ends a process of its thread by `exec`, and when descriptors of
both have one connection. -/
theorem meets_iff {m n : Made Joiner Stream} : (carriage port).Meets m n ↔
    m.event.mid = n.event.mid ∨ n.event.sType = .fork m.event.mid.pid m.event.mid.tid ∨
      n.event.sType.isExec = true ∧ m.event.mid.pid = n.event.sEv.pid ∨ ∃ c, On m c ∧ On n c := by
  constructor
  · rintro ⟨p, hleaves, htakes⟩
    cases p with
    | thread mid =>
      obtain rfl : mid = m.event.mid := hleaves
      rcases htakes with h | h | h
      · exact .inl h
      · exact .inr (.inl h)
      · exact .inr (.inr (.inl h))
    | entry c msgid => exact .inr (.inr (.inr ⟨c, hleaves, htakes⟩))
  · rintro (h | h | h | ⟨c, hm, hn⟩)
    · exact ⟨.thread m.event.mid, rfl, .inl h⟩
    · exact ⟨.thread m.event.mid, rfl, .inr (.inl h)⟩
    · exact ⟨.thread m.event.mid, rfl, .inr (.inr h)⟩
    · exact ⟨.entry c 0, hm, hn⟩

/-! ## What is written -/

/-- The id is none, or is given out at the event, or is taken by it. -/
def Sourced (port : ℤ) (m : Made Joiner Stream) (r : ℤ) : Prop :=
  r = -1 ∨ r ∈ begun port m.before m.event ∨ ∃ q, TakesFrom m q ∧ m.before.ctx.Keeps q r

theorem keeps_dgnGet (ctx : Ctx) (mid : Mid) :
    dgnGet ctx mid = -1 ∨ ctx.Keeps (.thread mid) (dgnGet ctx mid) := by
  unfold dgnGet
  split
  · next d hd =>
    have hp := List.find?_some hd
    simp only [Bool.and_eq_true, mideq_iff, decide_eq_true_eq] at hp
    exact .inr ⟨hp.2, d, List.mem_of_find?_eq_some hd, hp.1, rfl⟩
  · exact .inl rfl

/-- The designation of its own thread is taken by an event. -/
theorem sourced_own (port : ℤ) (j j' : Joiner) (e : Stream) :
    Sourced port ⟨j, e, j'⟩ (dgnGet j.ctx e.mid) := by
  rcases keeps_dgnGet j.ctx e.mid with h | h
  · exact .inl h
  · exact .inr (.inr ⟨.thread e.mid, .inl rfl, h⟩)

/-- So is what is found for a message of a descriptor that it names. -/
theorem sourced_ridOfMsg (hb : Bounded j.gensymCt j.ctx) {g fd msgid : ℤ} (hg : j.gensymCt ≤ g)
    (hfd : fd ∈ e.sType.fds) (port : ℤ) (j' : Joiner) :
    Sourced port ⟨j, e, j'⟩ (ridOfMsg j.ctx g e.sEv.pid fd msgid).1 := by
  rcases hfind : j.ctx.cFd.find? (e.sEv.pid, fd) with _ | c
  · exact .inl (hb.ridOfMsg_none hg hfind msgid)
  · simp only [ridOfMsg, connOfFd_of hfind]
    rcases hmsg : j.ctx.cConn.find? (c, msgid) with _ | r
    · exact .inl rfl
    · rw [Option.getD_some]
      by_cases hr : r = -1
      · exact .inl hr
      · rw [Hashtbl.find?_eq] at hmsg
        exact .inr (.inr ⟨.entry c msgid, .inl ⟨fd, hfd, .inl hfind⟩, hr,
          List.mem_of_mem_head? hmsg⟩)

/-- A designation that is set is of the thread it is set for. -/
theorem keeps_dgnSet {mid mid' : Mid} {rid : ℤ}
    (h : (dgnSet ctx mid' rid).Keeps (.thread mid) r) :
    ctx.Keeps (.thread mid) r ∨ mid = mid' ∧ r = rid := by
  obtain ⟨hr, d, hd, rfl, rfl⟩ := h
  simp only [dgnSet] at hd
  split at hd
  · obtain ⟨d', hd', rfl⟩ := List.mem_map.1 hd
    split
    · exact .inr ⟨rfl, rfl⟩
    · next hmid =>
      rw [if_neg hmid] at hr
      exact .inl ⟨hr, d', hd', rfl, rfl⟩
  · rcases List.mem_append.1 hd with hd | hd
    · exact .inl ⟨hr, d, hd, rfl, rfl⟩
    · rw [List.mem_singleton.1 hd]
      exact .inr ⟨rfl, rfl⟩

/-- An entry that is set is of the connection of the descriptor. -/
theorem keeps_setMsg {g pid fd msgid rid m : ℤ} {c : Conn}
    (h : (setMsg ctx g pid fd msgid rid).1.Keeps (.entry c m) r) :
    ctx.Keeps (.entry c m) r ∨ c = (connOfFd ctx g pid fd).1 ∧ r = rid := by
  obtain ⟨hr, hmem⟩ := h
  rcases Hashtbl.mem_stack_replace hmem with ⟨rfl, hkey⟩ | hmem
  · exact .inr ⟨congrArg Prod.fst hkey, rfl⟩
  · exact .inl ⟨hr, hmem⟩

/-! ## Designations -/

/-- What a receive sets: the id it is given out, or the request of the message. -/
theorem joinRecv_source (hb : Bounded j.gensymCt j.ctx) (port : ℤ) (ev : Event)
    (prot : List Byte) (fd msgid : ℤ) : ∃ g arid msg, j.gensymCt ≤ g ∧
      (joinRecv port j ev prot fd msgid).ctx =
        addMsg (setMsg (dgnSet j.ctx ⟨ev.tid, ev.pid⟩ arid) g ev.pid fd fakeMsgId arid).1 msg ∧
      (joinRecv port j ev prot fd msgid).gensymCt =
        (setMsg (dgnSet j.ctx ⟨ev.tid, ev.pid⟩ arid) g ev.pid fd fakeMsgId arid).2 ∧
      Sourced port ⟨j, ⟨.messageRecv prot fd msgid, ev⟩, joinRecv port j ev prot fd msgid⟩
        arid := by
  obtain ⟨g, arid, msg, hg, hctx, hct⟩ := joinRecv_eq port j ev prot fd msgid
  refine ⟨g, arid, msg, hg, hctx, hct, ?_⟩
  obtain ⟨msg', -, hrid, hdgn⟩ := joinRecv_msgs hb port ev prot fd msgid
  have harid : dgnGet (joinRecv port j ev prot fd msgid).ctx ⟨ev.tid, ev.pid⟩ = arid := by
    rw [hctx]
    exact (dgnGet_congr rfl _).trans (dgnGet_dgnSet j.ctx ⟨ev.tid, ev.pid⟩ arid)
  rw [harid] at hdgn
  split_ifs at hdgn with hd
  · refine .inr (.inl ?_)
    simp only [begun, if_pos hd, genrid, hdgn, List.mem_singleton]
  · rw [hdgn, hrid]
    exact sourced_ridOfMsg (e := ⟨.messageRecv prot fd msgid, ev⟩) hb le_rfl List.mem_cons_self ..

/-- **What an event designates**: its thread, with an id that it has from somewhere. -/
theorem streamJoin_designates (hb : Bounded j.gensymCt j.ctx) (hx : e.sType.isExec = false)
    (h : streamJoin o port j e = .ok j') : j'.ctx.cDgn = j.ctx.cDgn ∨
      ∃ rid, j'.ctx.cDgn = (dgnSet j.ctx e.mid rid).cDgn ∧ Sourced port ⟨j, e, j'⟩ rid := by
  obtain ⟨type, ev⟩ := e
  unfold streamJoin at h
  cases type with
  | exec ptid => cases hx
  | connect fd rdv => exact .inl (joinRename_dgn h)
  | protocolInit fd => exact .inl (joinRename_dgn h)
  | fork ppid ptid =>
    cases h
    refine .inr ⟨_, rfl, ?_⟩
    rcases keeps_dgnGet j.ctx ⟨ptid, ppid⟩ with hnone | hkeeps
    · exact .inl hnone
    · exact .inr (.inr ⟨.thread ⟨ptid, ppid⟩, .inr (.inl rfl), hkeeps⟩)
  | poll timedOut fd =>
    cases timedOut <;> cases h
    · exact .inr ⟨_, rfl, sourced_ridOfMsg (e := ⟨.poll false fd, ev⟩) hb le_rfl
        List.mem_cons_self ..⟩
    · exact .inl rfl
  | read fd =>
    cases h
    simp only
    split_ifs
    · exact .inl rfl
    · exact .inr ⟨_, rfl, sourced_ridOfMsg (e := ⟨.read fd, ev⟩) hb le_rfl
        List.mem_cons_self ..⟩
  | messageRecv prot fd msgid =>
    cases h
    obtain ⟨g, arid, msg, -, hctx, -, hsource⟩ := joinRecv_source hb port ev prot fd msgid
    refine .inr ⟨arid, ?_, hsource⟩
    change (joinRecv port j ev prot fd msgid).ctx.cDgn = _
    rw [hctx]
    rfl
  | exit =>
    cases h
    exact .inr ⟨_, rfl, .inl rfl⟩
  | abort =>
    cases h
    exact .inr ⟨_, rfl, .inl rfl⟩
  | shutdown =>
    cases h
    exact .inr ⟨_, rfl, .inl rfl⟩
  | unknown => cases h
  | _ =>
    cases h
    exact .inl rfl

/-- A thread that has an id after an event had it, or was given it by the event. -/
theorem streamJoin_thread (hb : Bounded j.gensymCt j.ctx) (h : streamJoin o port j e = .ok j')
    {mid : Mid} (hr : j'.ctx.Keeps (.thread mid) r) :
    j.ctx.Keeps (.thread mid) r ∨ mid = e.mid ∧ Sourced port ⟨j, e, j'⟩ r := by
  by_cases hx : e.sType.isExec = true
  · obtain ⟨hr, d, hd, rfl, rfl⟩ := hr
    rw [streamJoin_exec hx h] at hd
    obtain ⟨d', hd', rfl⟩ := List.mem_map.1 hd
    by_cases hpid : d'.mid.pid = e.sEv.pid
    · rw [if_pos hpid] at hr ⊢
      exact .inr ⟨rfl, .inr (.inr ⟨.thread d'.mid, .inr (.inr ⟨hx, hpid⟩), hr, d', hd', rfl, rfl⟩)⟩
    · rw [if_neg hpid] at hr ⊢
      exact .inl ⟨hr, d', hd', rfl, rfl⟩
  · rcases streamJoin_designates hb (Bool.eq_false_iff.2 hx) h with hdgn | ⟨rid, hdgn, hsource⟩
    · obtain ⟨hr, d, hd, hmid⟩ := hr
      exact .inl ⟨hr, d, hdgn ▸ hd, hmid⟩
    · have hset : (dgnSet j.ctx e.mid rid).Keeps (.thread mid) r := by
        obtain ⟨hr, d, hd, hmid⟩ := hr
        exact ⟨hr, d, hdgn ▸ hd, hmid⟩
      rcases keeps_dgnSet hset with hkeeps | ⟨hmid, rfl⟩
      · exact .inl hkeeps
      · exact .inr ⟨hmid, hsource⟩

/-! ## Entries -/

/-- An entry that has an id after the event had it, or is of a connection of the event, which has
the id from somewhere. -/
def Enters (port : ℤ) (m : Made Joiner Stream) : Prop :=
  ∀ c msgid r, m.after.ctx.Keeps (.entry c msgid) r →
    m.before.ctx.Keeps (.entry c msgid) r ∨ On m c ∧ Sourced port m r

theorem enters_of_eq (h : j'.ctx.cConn = j.ctx.cConn) : Enters port ⟨j, e, j'⟩ := by
  rintro c msgid r ⟨hr, hmem⟩
  rw [h] at hmem
  exact .inl ⟨hr, hmem⟩

theorem enters_open (port : ℤ) {ev : Event} {fd : ℤ} (hfds : e.sType.fds = [fd])
    (hev : e.sEv = ev) : Enters port ⟨j, e, joinOpen j ev fd⟩ := by
  intro c msgid r hkeeps
  rcases keeps_setMsg hkeeps with hkeeps | ⟨rfl, rfl⟩
  · exact .inl hkeeps
  · subst hev
    refine .inr ⟨?_, sourced_own port j _ e⟩
    rw [On, hfds]
    exact touched_connOfFd List.mem_cons_self (.inr rfl) (by simp) le_rfl

theorem enters_pipe (port : ℤ) (j : Joiner) (ev : Event) (fi fo : ℤ) :
    Enters port ⟨j, ⟨.pipe fi fo, ev⟩, joinPipe j ev fi fo⟩ := by
  intro c msgid r hkeeps
  set ctx := setFdConn (setFdConn j.ctx ev.pid fi (newSimpleStream (j.gensymCt + 1)).1) ev.pid fo
    (newSimpleStream j.gensymCt).1 with hctx
  set g := j.gensymCt + 1 + 1 with hg
  have h₀ : j.gensymCt ≤ g := by omega
  have h₁ : g ≤ (connOfFd ctx g ev.pid fi).2 := le_connOfFd ..
  have h₂ : (connOfFd ctx g ev.pid fi).2 ≤ (joinPipe j ev fi fo).gensymCt := le_connOfFd ..
  rcases keeps_setMsg hkeeps with hkeeps | ⟨rfl, rfl⟩
  · rcases keeps_setMsg hkeeps with hkeeps | ⟨rfl, rfl⟩
    · exact .inl hkeeps
    · exact .inr ⟨touched_connOfFd (g := g) List.mem_cons_self (.inr rfl) h₀ h₂,
        sourced_own port j _ ⟨.pipe fi fo, ev⟩⟩
  · exact .inr ⟨touched_connOfFd (List.mem_cons_of_mem _ List.mem_cons_self) (.inr rfl)
      (h₀.trans h₁) le_rfl, sourced_own port j _ ⟨.pipe fi fo, ev⟩⟩

theorem enters_send (port : ℤ) (j : Joiner) (ev : Event) (prot : List Byte) (fd msgid : ℤ) :
    Enters port ⟨j, ⟨.messageSend prot fd msgid, ev⟩, joinSend j ev prot fd msgid⟩ := by
  intro c m r hkeeps
  have h₁ := le_connOfFd j.ctx j.gensymCt ev.pid fd
  have h₂ := le_connOfFd j.ctx (connOfFd j.ctx j.gensymCt ev.pid fd).2 ev.pid fd
  rcases keeps_setMsg hkeeps with hkeeps | ⟨rfl, rfl⟩
  · exact .inl hkeeps
  · exact .inr ⟨touched_connOfFd List.mem_cons_self (.inl rfl) (h₁.trans h₂) le_rfl,
      sourced_own port j _ ⟨.messageSend prot fd msgid, ev⟩⟩

theorem enters_recv (hb : Bounded j.gensymCt j.ctx) (port : ℤ) (ev : Event) (prot : List Byte)
    (fd msgid : ℤ) :
    Enters port ⟨j, ⟨.messageRecv prot fd msgid, ev⟩, joinRecv port j ev prot fd msgid⟩ := by
  intro c m r hkeeps
  obtain ⟨g, arid, msg, hg, hctx, hct, hsource⟩ := joinRecv_source hb port ev prot fd msgid
  change (joinRecv port j ev prot fd msgid).ctx.Keeps _ _ at hkeeps
  rw [hctx] at hkeeps
  rcases keeps_setMsg hkeeps with hkeeps | ⟨rfl, rfl⟩
  · exact .inl hkeeps
  · exact .inr ⟨touched_connOfFd List.mem_cons_self (.inl rfl) hg hct.ge, hsource⟩

/-- A renaming moves the entries of a connection to its new name. -/
theorem enters_rename (hb : Bounded j.gensymCt j.ctx) (port : ℤ) {fd : ℤ} {name : Conn → Conn}
    (hfd : fd ∈ e.sType.fds) (h : joinRename o j e.sEv fd name = .ok j') :
    Enters port ⟨j, e, j'⟩ := by
  obtain ⟨j₁, hj₁, hrenamed, -⟩ := joinRename_spec o j e.sEv fd name
  cases hj₁.symm.trans h
  rintro c msgid r ⟨hr, hmem⟩
  rw [hrenamed.entry] at hmem
  split_ifs at hmem with h₁ h₂ h₃
  · exact .inl ⟨hr, hmem⟩
  · cases hmem
  · rcases List.mem_append.1 hmem with hmem | hmem
    · rw [List.mem_reverse] at hmem
      -- the descriptor has the connection, for a new one has no entries
      rcases connOfFd_cases j.ctx j.gensymCt e.sEv.pid fd with ⟨hfind, -⟩ | ⟨hnew, -⟩
      · refine .inr ⟨.inl ⟨fd, hfd, .inr ?_⟩, .inr (.inr ⟨.entry _ msgid, ?_, hr, hmem⟩)⟩
        · rw [h₃, hrenamed.fd, if_pos hfind]
        · exact .inl ⟨fd, hfd, .inl hfind⟩
      · rw [hnew, hb.stack_conn (by omega)] at hmem
        cases hmem
    · exact .inl ⟨hr, hmem⟩
  · exact .inl ⟨hr, hmem⟩

/-- **What an event enters**: ids that it has from somewhere, for messages of its connections. -/
theorem streamJoin_enters (hb : Bounded j.gensymCt j.ctx) (h : streamJoin o port j e = .ok j') :
    Enters port ⟨j, e, j'⟩ := by
  obtain ⟨type, ev⟩ := e
  unfold streamJoin at h
  cases type with
  | connect fd rdv => exact enters_rename hb port List.mem_cons_self h
  | protocolInit fd => exact enters_rename hb port List.mem_cons_self h
  | poll timedOut fd => cases timedOut <;> cases h <;> exact enters_of_eq rfl
  | «open» fd =>
    cases h
    exact enters_open port rfl rfl
  | socket fd =>
    cases h
    exact enters_open port rfl rfl
  | pipe fi fo =>
    cases h
    exact enters_pipe port j ev fi fo
  | read fd =>
    cases h
    refine enters_of_eq ?_
    rw [apply_ite Ctx.cConn]
    exact ite_self _
  | messageSend prot fd msgid =>
    cases h
    exact enters_send port j ev prot fd msgid
  | messageRecv prot fd msgid =>
    cases h
    exact enters_recv hb port ev prot fd msgid
  | unknown => cases h
  | _ =>
    cases h
    exact enters_of_eq rfl

/-! ## Paths -/

/-- **An event carries ids faithfully**: it makes up none, and moves none between places that it
does not touch. -/
theorem joinStep_faithful (hb : Bounded j.gensymCt j.ctx) (h : joinStep o port j e = .ok j') :
    (carriage port).Faithful ⟨j, e, j'⟩ := by
  have hb₀ : Bounded j.gensymCt (clearFlags j.ctx) := hb.congr rfl rfl
  -- flags say nothing about ids
  have hflags : ∀ p r, (clearFlags j.ctx).Keeps p r → j.ctx.Keeps p r := by
    rintro (mid | ⟨c, m⟩) r ⟨hr, hmem⟩
    · obtain ⟨d, hd, hmid⟩ := hmem
      obtain ⟨d', hd', rfl⟩ := List.mem_map.1 hd
      exact ⟨hr, d', hd', hmid⟩
    · exact ⟨hr, hmem⟩
  have hsourced : ∀ {r}, r ≠ -1 → Sourced port ⟨{ j with ctx := clearFlags j.ctx }, e, j'⟩ r →
      (carriage port).bears ⟨j, e, j'⟩ r ∨
        ∃ q, (carriage port).takes ⟨j, e, j'⟩ q ∧ (carriage port).holds j q r := by
    rintro r hr (h | h | ⟨q, htakes, hq⟩)
    · exact absurd h hr
    · exact .inl h
    · refine .inr ⟨q, ?_, hflags q r hq⟩
      cases q <;> exact htakes
  rintro (mid | ⟨c, m⟩) r hkeeps
  · rcases streamJoin_thread (j := { j with ctx := clearFlags j.ctx }) hb₀ h hkeeps with
      hk | ⟨hmid, hs⟩
    · exact .inl (hflags _ r hk)
    · exact .inr ⟨hmid, hsourced hkeeps.1 hs⟩
  · rcases streamJoin_enters (j := { j with ctx := clearFlags j.ctx }) hb₀ h c m r hkeeps with
      hk | ⟨hon, hs⟩
    · exact .inl (hflags _ r hk)
    · exact .inr ⟨hon, hsourced hkeeps.1 hs⟩

/-- The events of a run, with the states around them. -/
def joined (o : Orders) (port : ℤ) (es : List Stream) : List (Made Joiner Stream) :=
  madeSteps (joinStep o port) .start es

/-- The request is given its id at event `i`: it is the head of the request. -/
def HeadAt (o : Orders) (port : ℤ) (es : List Stream) (r : ℤ) (i : ℕ) : Prop :=
  ∃ m, (joined o port es)[i]? = some m ∧ r ∈ begun port m.before m.event

/-- The ids are given out at the events. -/
theorem issued_eq {es : List Stream} (h : runSteps (joinStep o port) j es = .ok j') :
    issued o port j es =
      (madeSteps (joinStep o port) j es).flatMap fun m => begun port m.before m.event := by
  induction es generalizing j with
  | nil => rfl
  | cons e es ih =>
    obtain ⟨j₁, he, hrun⟩ := bind_eq_ok h
    rw [madeSteps_of_ok he, List.flatMap_cons, ← ih hrun, issued, he]

/-- A request has one head. -/
theorem head_unique {es : List Stream} (h : runSteps (joinStep o port) .start es = .ok j)
    {i k : ℕ} (hi : HeadAt o port es r i) (hk : HeadAt o port es r k) : i = k := by
  have hnodup := (rids_have_provenance h).2.1
  rw [issued_eq h, List.nodup_flatMap] at hnodup
  have hdisjoint := List.pairwise_iff_getElem.1 hnodup.2
  obtain ⟨m, hm, hmr⟩ := hi
  obtain ⟨n, hn, hnr⟩ := hk
  obtain ⟨hilt, rfl⟩ := List.getElem?_eq_some_iff.1 hm
  obtain ⟨hklt, rfl⟩ := List.getElem?_eq_some_iff.1 hn
  rcases lt_trichotomy i k with hlt | heq | hlt
  · exact absurd hnr (hdisjoint i k hilt hklt hlt hmr)
  · exact heq
  · exact absurd hmr (hdisjoint k i hklt hilt hlt hnr)

theorem lineage_of_keeps {es : List Stream} (h : runSteps (joinStep o port) .start es = .ok j)
    (hr : j.ctx.Keeps p r) : ∃ i k, (carriage port).Lineage (joined o port es) p r i k := by
  have hstart : ∀ p r, ¬ Joiner.start.ctx.Keeps p r := by
    rintro (mid | ⟨c, m⟩) r ⟨-, hmem⟩
    · obtain ⟨d, hd, -⟩ := hmem
      cases hd
    · cases hmem
  exact Carriage.lineage (I := fun j => Bounded j.gensymCt j.ctx) bounded_start hstart
    (fun _ _ _ hb hj => ⟨hb.joinStep hj, joinStep_faithful hb hj⟩) h hr

/-- **The path of a request.** An id found for a thread or a message after any events was given out
at one event, the head of its request, and was carried from there from event to event, each of which
took it from where the one before had left it; the last left it where it is found. -/
theorem request_lineage {es : List Stream} (h : runSteps (joinStep o port) .start es = .ok j)
    (hr : j.ctx.Keeps p r) :
    ∃ i k, (∀ i', HeadAt o port es r i' ↔ i' = i) ∧
      (carriage port).Lineage (joined o port es) p r i k := by
  obtain ⟨i, k, hlineage⟩ := lineage_of_keeps h hr
  have hhead : HeadAt o port es r i := hlineage.born
  exact ⟨i, k, fun i' => ⟨fun hi' => head_unique h hi' hhead, fun heq => heq ▸ hhead⟩, hlineage⟩

/-- Two processes: one receives a request and sends a message over a connection, which the other
receives. -/
def forwardedRequest : List Stream :=
  [eventOf 10 1 (.accept 4 (ascii "10.0.0.9:1000->10.0.0.1:80")),
    eventOf 10 1 (.messageRecv (ascii "PP_HTTPS") 4 0), eventOf 10 1 (.socket 5),
    eventOf 10 1 (.connect 5 (ascii "/tmp/a")), eventOf 20 2 (.accept 6 (ascii "/tmp/a")),
    eventOf 10 1 (.messageSend (ascii "PP_PSQLC") 5 0),
    eventOf 20 2 (.messageRecv (ascii "PP_PSQLS") 6 0)]

theorem request_lineage_forwardedRequest :
    ∃ j, runSteps (joinStep .listed 80) .start forwardedRequest = .ok j ∧
      j.ctx.Keeps (.thread ⟨2, 20⟩) 1 ∧
      ∃ i k, (∀ i', HeadAt .listed 80 forwardedRequest 1 i' ↔ i' = i) ∧
        (carriage 80).Lineage (joined .listed 80 forwardedRequest) (.thread ⟨2, 20⟩) 1 i k := by
  have hkeeps : ∀ j, runSteps (joinStep .listed 80) .start forwardedRequest = .ok j →
      j.ctx.Keeps (.thread ⟨2, 20⟩) 1 := by
    rintro j h
    cases h
    exact ⟨by decide, ⟨⟨2, 20⟩, 1, true⟩, by decide, rfl, rfl⟩
  exact ⟨_, rfl, hkeeps _ rfl, request_lineage rfl (hkeeps _ rfl)⟩

/-! ## The table of designations -/

/-- The rows that are inserted into `dgn` along a run. -/
def dgnTable (o : Orders) (port : ℤ) (es : List Stream) : List DgnRow :=
  (joined o port es).flatMap fun m => dumpWork m.event m.after.ctx

/-- The thread of a row. -/
def DgnRow.mid (row : DgnRow) : Mid := ⟨row.tid, row.pid⟩

theorem keeps_of_dumpWork {sm : Stream} {row : DgnRow} (h : row ∈ dumpWork sm ctx)
    (hr : row.rid ≠ -1) : ctx.Keeps (.thread row.mid) row.rid ∧ row.eid = sm.sEv.eid := by
  obtain ⟨d, hd, rfl⟩ := List.mem_map.1 h
  exact ⟨⟨hr, d, (List.mem_filter.1 hd).1, rfl, rfl⟩, rfl⟩

/-- **The path to a row.** A request that a row of `dgn` gives to a thread has come to the thread by
the event of the row from its head, over events of which each meets the next. -/
theorem dgnTable_lineage (o : Orders) (port : ℤ) (es : List Stream) :
    ∀ row ∈ dgnTable o port es, row.rid ≠ -1 → ∃ t m i k, (joined o port es)[t]? = some m ∧
      m.event.sEv.eid = row.eid ∧ HeadAt o port es row.rid i ∧
        (carriage port).Lineage ((joined o port es).take (t + 1)) (.thread row.mid) row.rid i k ∧
          Linked (carriage port).Meets (joined o port es) i k := by
  intro row hrow hr
  obtain ⟨m, hm, hwork⟩ := List.mem_flatMap.1 hrow
  obtain ⟨t, ht, hget⟩ := List.getElem_of_mem hm
  have ht? : (joined o port es)[t]? = some m := by rw [List.getElem?_eq_getElem ht, hget]
  obtain ⟨hkeeps, heid⟩ := keeps_of_dumpWork hwork hr
  obtain ⟨pre, -, hrun, hmade⟩ := madeSteps_take ht?
  obtain ⟨i, k, hlineage⟩ := lineage_of_keeps hrun hkeeps
  rw [joined, hmade] at hlineage
  have hwhole := hlineage.append ((joined o port es).drop (t + 1))
  rw [joined, List.take_append_drop] at hwhole
  exact ⟨t, m, i, k, ht?, heid.symm, hwhole.born, hlineage, hwhole.contacts⟩

end BorderPatrol.Agg
