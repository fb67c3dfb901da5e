import BorderPatrol.Agg.Join
import BorderPatrol.Foundations.Runs

/-!
# Attribution of messages

Two processes talk over a connection, and each numbers the messages it sends. The join keeps for
each message of a connection the request it was sent for, but messages of the two directions with
one number share one entry. A receive finds what its peer was working on exactly when the receiver
has not sent a message of that number after the peer did, or was then working on the same request
(`attributed_iff`).
-/

namespace BorderPatrol.Agg

open Foundations

/-- The two sides of a connection. -/
inductive Side
  | a | b
  deriving DecidableEq, Repr

def Side.other : Side → Side
  | a => b
  | b => a

theorem Side.eq_or_eq_other (x y : Side) : y = x ∨ y = x.other := by
  cases x <;> cases y <;> simp [Side.other]

/-- The process on each side and its descriptor of the connection. -/
structure Ends where
  pid : Side → ℤ
  fd : Side → ℤ

/-- A turn of a side: a thread sends the side's next message, or receives message `k` of the other
side. The process of `ev` does not matter. -/
inductive Turn
  | send (x : Side) (ev : Event) (prot : List Byte)
  | recv (x : Side) (ev : Event) (prot : List Byte) (k : ℕ)

/-- The join together with what the two sides did: the requests each was working on when it sent its
messages, and which side sent the last message of each number. -/
structure Crossing where
  joiner : Joiner
  sent : Side → List ℤ
  last : ℕ → Option Side

/-- Nothing has been sent. -/
def Crossing.start (j : Joiner) : Crossing := ⟨j, fun _ => [], fun _ => none⟩

/-- The thread that takes the turn. -/
def Turn.mid (E : Ends) : Turn → Mid
  | send x ev _ => ⟨ev.tid, E.pid x⟩
  | recv x ev _ _ => ⟨ev.tid, E.pid x⟩

/-- The event of a turn. The messages of a side are numbered from 0. -/
def Turn.stream (E : Ends) (s : Crossing) : Turn → Stream
  | send x ev prot =>
    ⟨.messageSend prot (E.fd x) (s.sent x).length, { ev with pid := E.pid x }⟩
  | recv x ev prot k => ⟨.messageRecv prot (E.fd x) k, { ev with pid := E.pid x }⟩

/-- The account of a turn after which the join is at `j`. -/
def Crossing.record (E : Ends) (s : Crossing) (t : Turn) (j : Joiner) : Crossing :=
  match t with
  | .send x _ _ =>
    { joiner := j
      sent := Function.update s.sent x (s.sent x ++ [dgnGet s.joiner.ctx (t.mid E)])
      last := Function.update s.last (s.sent x).length (some x) }
  | .recv _ _ _ _ => { s with joiner := j }

/-- A turn. -/
def crossStep (o : Orders) (port : ℤ) (E : Ends) (s : Crossing) (t : Turn) :
    Except JoinError Crossing :=
  joinStep o port s.joiner (t.stream E s) >>= fun j => .ok (s.record E t j)

/-- A message is received after it was sent. -/
def Timely (s : Crossing) : Turn → Prop
  | .send _ _ _ => True
  | .recv x _ _ k => k < (s.sent x.other).length

/-- After a receive the designation of the receiver is the request its peer was working on when it
sent the message. -/
def Attributed (o : Orders) (port : ℤ) (E : Ends) (s : Crossing) (t : Turn) : Prop :=
  match t with
  | .send _ _ _ => True
  | .recv x _ _ k => ∀ s', crossStep o port E s t = .ok s' →
      (s.sent x.other)[k]? = some (dgnGet s'.joiner.ctx (t.mid E))

/-- The last message with the number received is the peer's, or was sent for the same request. -/
def Uncrossed (s : Crossing) : Turn → Prop
  | .send _ _ _ => True
  | .recv x _ _ k => s.last k = some x.other ∨ (s.sent x)[k]? = (s.sent x.other)[k]?

variable {o : Orders} {port : ℤ} {E : Ends} {c : Conn}

/-- Both descriptors have the connection `c`, and its entry for a number is what the last message of
that number was sent for. -/
structure Shared (E : Ends) (c : Conn) (s : Crossing) : Prop where
  fds : ∀ x, s.joiner.ctx.cFd.find? (E.pid x, E.fd x) = some c
  entry : ∀ k x, s.last k = some x → ∃ r, (s.sent x)[k]? = some r ∧
    s.joiner.ctx.cConn.find? (c, (k : ℤ)) = some r
  unsent : ∀ k, s.last k = none → ∀ x, (s.sent x).length ≤ k

theorem shared_start {j : Joiner} (h : ∀ x, j.ctx.cFd.find? (E.pid x, E.fd x) = some c) :
    Shared E c (.start j) := by
  refine ⟨h, fun k x hk => ?_, fun k _ x => Nat.zero_le _⟩
  cases hk

/-! ## What a turn does -/

/-- A send on a known descriptor. -/
theorem joinSend_ctx {j : Joiner} (ev : Event) {fd : ℤ} (h : j.ctx.cFd.find? (ev.pid, fd) = some c)
    (prot : List Byte) (msgid : ℤ) :
    (joinSend j ev prot fd msgid).ctx.cFd = j.ctx.cFd ∧
      (joinSend j ev prot fd msgid).ctx.cConn =
        j.ctx.cConn.replace (c, msgid) (dgnGet j.ctx ⟨ev.tid, ev.pid⟩) := by
  simp only [joinSend, setMsg, connOfFd_of h, addMsg, and_self]

/-- A receive on a known descriptor of a connection that is not distinguished. -/
theorem joinRecv_ctx {j : Joiner} (ev : Event) {fd : ℤ} (hc : distinguishedConn port c = false)
    (h : j.ctx.cFd.find? (ev.pid, fd) = some c) (prot : List Byte) (msgid : ℤ) :
    (joinRecv port j ev prot fd msgid).ctx.cFd = j.ctx.cFd ∧
      (joinRecv port j ev prot fd msgid).ctx.cConn = j.ctx.cConn.replace (c, fakeMsgId)
        ((j.ctx.cConn.find? (c, msgid)).getD (-1)) ∧
      dgnGet (joinRecv port j ev prot fd msgid).ctx ⟨ev.tid, ev.pid⟩ =
        (j.ctx.cConn.find? (c, msgid)).getD (-1) := by
  have hset : ∀ rid, connOfFd (dgnSet j.ctx ⟨ev.tid, ev.pid⟩ rid) j.gensymCt ev.pid fd =
      (c, j.gensymCt) := fun rid => connOfFd_of h _
  simp only [joinRecv, ridOfMsg, setMsg, connOfFd_of h, hc, Bool.false_eq_true, if_false, hset,
    addMsg]
  refine ⟨rfl, rfl, ?_⟩
  exact dgnGet_dgnSet ..

section Steps

variable {s s' : Crossing} {x : Side} {ev : Event} {prot : List Byte}

theorem shared_send (hs : Shared E c s)
    (h : crossStep o port E s (.send x ev prot) = .ok s') : Shared E c s' := by
  set j : Joiner := { s.joiner with ctx := clearFlags s.joiner.ctx } with hj
  have hfd : j.ctx.cFd.find? (E.pid x, E.fd x) = some c := hs.fds x
  obtain ⟨hcFd, hcConn⟩ := joinSend_ctx { ev with pid := E.pid x } hfd prot (s.sent x).length
  obtain rfl : s.record E (.send x ev prot)
      (joinSend j { ev with pid := E.pid x } prot (E.fd x) (s.sent x).length) = s' :=
    Except.ok.inj h
  have hdgn : dgnGet j.ctx ⟨ev.tid, E.pid x⟩ = dgnGet s.joiner.ctx ⟨ev.tid, E.pid x⟩ :=
    dgnGet_clearFlags ..
  refine ⟨fun y => ?_, fun k y hk => ?_, fun k hk y => ?_⟩
  · simp only [Crossing.record, hcFd]
    exact hs.fds y
  · simp only [Crossing.record, hcConn, hdgn] at hk ⊢
    by_cases hkl : k = (s.sent x).length
    · -- the entry just made
      subst hkl
      simp only [Function.update_self, Option.some.injEq] at hk
      subst hk
      refine ⟨dgnGet s.joiner.ctx ⟨ev.tid, E.pid x⟩, ?_, Hashtbl.find?_replace_self⟩
      simp [Function.update_self, Turn.mid]
    · rw [Function.update_of_ne hkl] at hk
      obtain ⟨r, hr, hfind⟩ := hs.entry k y hk
      refine ⟨r, ?_, ?_⟩
      · by_cases hy : y = x
        · subst hy
          rw [Function.update_self, List.getElem?_append_left]
          · exact hr
          · exact (List.getElem?_eq_some_iff.1 hr).1
        · rw [Function.update_of_ne hy]
          exact hr
      · have hne : ((c, ((s.sent x).length : ℤ)) : Conn × ℤ) ≠ (c, (k : ℤ)) := by
          simp only [ne_eq, Prod.mk.injEq, true_and]
          omega
        rw [Hashtbl.find?_replace_of_ne hne]
        exact hfind
  · simp only [Crossing.record] at hk ⊢
    have hkl : k ≠ (s.sent x).length := by
      rintro rfl
      simp at hk
    rw [Function.update_of_ne hkl] at hk
    have hle := hs.unsent k hk
    by_cases hy : y = x
    · subst hy
      have := hle y
      rw [Function.update_self, List.length_append, List.length_singleton]
      omega
    · rw [Function.update_of_ne hy]
      exact hle y

theorem recv_spec {k : ℕ} (hc : distinguishedConn port c = false) (hs : Shared E c s)
    (h : crossStep o port E s (.recv x ev prot k) = .ok s') : Shared E c s' ∧
      dgnGet s'.joiner.ctx ⟨ev.tid, E.pid x⟩ =
        (s.joiner.ctx.cConn.find? (c, (k : ℤ))).getD (-1) := by
  set j : Joiner := { s.joiner with ctx := clearFlags s.joiner.ctx } with hj
  have hfd : j.ctx.cFd.find? (E.pid x, E.fd x) = some c := hs.fds x
  obtain ⟨hcFd, hcConn, hdgn⟩ := joinRecv_ctx { ev with pid := E.pid x } hc hfd prot k
  obtain rfl : s.record E (.recv x ev prot k)
      (joinRecv port j { ev with pid := E.pid x } prot (E.fd x) k) = s' := Except.ok.inj h
  refine ⟨⟨fun y => ?_, fun i y hi => ?_, hs.unsent⟩, hdgn⟩
  · simp only [Crossing.record, hcFd]
    exact hs.fds y
  · obtain ⟨r, hr, hfind⟩ := hs.entry i y hi
    refine ⟨r, hr, ?_⟩
    simp only [Crossing.record, hcConn]
    have hne : ((c, fakeMsgId) : Conn × ℤ) ≠ (c, (i : ℤ)) := by
      simp only [ne_eq, Prod.mk.injEq, true_and, fakeMsgId]
      omega
    rw [Hashtbl.find?_replace_of_ne hne]
    exact hfind

end Steps

/-- Every turn keeps what the table holds for the connection. -/
theorem shared_step (hc : distinguishedConn port c = false) {s s' : Crossing} {t : Turn}
    (hs : Shared E c s) (h : crossStep o port E s t = .ok s') : Shared E c s' := by
  cases t with
  | send x ev prot => exact shared_send hs h
  | recv x ev prot k => exact (recv_spec hc hs h).1

/-- One receive. -/
theorem attributed_step (hc : distinguishedConn port c = false) {s s' : Crossing} {t : Turn}
    (hs : Shared E c s) (ht : Timely s t) (h : crossStep o port E s t = .ok s') :
    Attributed o port E s t ↔ Uncrossed s t := by
  cases t with
  | send x ev prot => exact Iff.rfl
  | recv x ev prot k =>
    obtain ⟨-, hdgn⟩ := recv_spec hc hs h
    have hatt : Attributed o port E s (.recv x ev prot k) ↔
        (s.sent x.other)[k]? = some ((s.joiner.ctx.cConn.find? (c, (k : ℤ))).getD (-1)) := by
      rw [← hdgn]
      constructor
      · exact fun ha => ha s' h
      · intro heq s'' h'
        obtain rfl : s' = s'' := Except.ok.inj (h.symm.trans h')
        exact heq
    rw [hatt]
    change _ ↔ s.last k = some x.other ∨ (s.sent x)[k]? = (s.sent x.other)[k]?
    rcases hlast : s.last k with _ | y
    · have := hs.unsent k hlast x.other
      have : k < (s.sent x.other).length := ht
      omega
    · obtain ⟨r, hr, hfind⟩ := hs.entry k y hlast
      rw [hfind, Option.getD_some]
      rcases x.eq_or_eq_other y with rfl | rfl
      · -- the entry is of the receiver's own message
        have hne : some y ≠ some y.other := by cases y <;> simp [Side.other]
        simp only [hne, false_or, hr]
        exact eq_comm
      · simp only [true_or, iff_true]
        exact hr

/-- **Attribution of messages.** Two sides number the messages they send on a connection that is not
distinguished, and receive each other's after they are sent. Every receive gives the receiver the
request its peer was working on when it sent the message if and only if every receive finds its
peer's message as the last of its number, or the receiver's own sent for the same request. -/
theorem attributed_iff (hc : distinguishedConn port c = false) {j : Joiner}
    (hfd : ∀ x, j.ctx.cFd.find? (E.pid x, E.fd x) = some c) {turns : List Turn}
    (ht : Along (crossStep o port E) (.start j) turns Timely) :
    Along (crossStep o port E) (.start j) turns (Attributed o port E) ↔
      Along (crossStep o port E) (.start j) turns Uncrossed := by
  have hinv : Always (crossStep o port E) (.start j) turns (Shared E c) :=
    always_of_step (shared_start hfd) fun s t s' hs h => shared_step hc hs h
  constructor
  · intro h pre t hpre s s' hrun hstep
    have hs := hinv pre ((List.prefix_append pre [t]).trans hpre) s hrun
    exact (attributed_step hc hs (ht pre t hpre s s' hrun hstep) hstep).1
      (h pre t hpre s s' hrun hstep)
  · intro h pre t hpre s s' hrun hstep
    have hs := hinv pre ((List.prefix_append pre [t]).trans hpre) s hrun
    exact (attributed_step hc hs (ht pre t hpre s s' hrun hstep) hstep).2
      (h pre t hpre s s' hrun hstep)

/-! ## A crossing -/

/-- Process 10 and process 20 each receive a request, and then connect to each other. -/
def twoRequestsConnected : List Stream :=
  let rdv := ascii "10.0.0.1:3000->10.0.0.2:5432"
  [eventOf 10 1 (.accept 4 (ascii "10.0.0.9:1000->10.0.0.1:80")),
    eventOf 10 1 (.messageRecv (ascii "PP_HTTPS") 4 0),
    eventOf 20 2 (.accept 4 (ascii "10.0.0.9:2000->10.0.0.2:80")),
    eventOf 20 2 (.messageRecv (ascii "PP_HTTPS") 4 0),
    eventOf 10 1 (.socket 5), eventOf 10 1 (.connect 5 rdv), eventOf 20 2 (.accept 6 rdv)]

/-- The join after these events, where the port of `www` is 80. -/
def connected : Joiner :=
  ((runSteps (joinStep .listed 80) .start twoRequestsConnected).toOption).getD .start

/-- The ends of the connection between the processes. -/
def connectedEnds : Ends where
  pid x := if x = .a then 10 else 20
  fd x := if x = .a then 5 else 6

/-- The connection between the processes. -/
def connectedConn : Conn := ⟨.hostPort (ascii "10.0.0.1:3000->10.0.0.2:5432")⟩

/-- A thread of the process on side `x` takes a turn. -/
def turnEvent (x : Side) : Event := ⟨0, 0, if x = .a then 1 else 2, 0, ascii "p"⟩

theorem connected_fds (x : Side) : connected.ctx.cFd.find?
    (connectedEnds.pid x, connectedEnds.fd x) = some connectedConn := by
  cases x <;> decide +kernel

/-- A request is sent and received. -/
def oneMessage : List Turn :=
  [.send .a (turnEvent .a) (ascii "PP_PSQLC"), .recv .b (turnEvent .b) (ascii "PP_PSQLS") 0]

theorem attributed_iff_oneMessage :
    Along (crossStep .listed 80 connectedEnds) (.start connected) oneMessage
        (Attributed .listed 80 connectedEnds) ↔
      Along (crossStep .listed 80 connectedEnds) (.start connected) oneMessage Uncrossed := by
  refine attributed_iff (c := connectedConn) (by decide +kernel) connected_fds ?_
  refine along_cons.2 fun s₁ h₁ => ⟨trivial, along_cons.2 fun s₂ _ => ⟨?_, along_nil⟩⟩
  obtain rfl := Except.ok.inj h₁
  exact Nat.zero_lt_one

/-- Both sides send their first message before either receives. -/
def crossedMessages : List Turn :=
  [.send .a (turnEvent .a) (ascii "PP_PSQLC"), .send .b (turnEvent .b) (ascii "PP_PSQLS"),
    .recv .b (turnEvent .b) (ascii "PP_PSQLS") 0]

/-- Process 20 receives what process 10 sent for request 1, and is said to work on request 2. -/
theorem crossing_misattributes :
    ¬ Along (crossStep .listed 80 connectedEnds) (.start connected) crossedMessages
      (Attributed .listed 80 connectedEnds) := by
  intro h
  obtain ⟨-, h₁⟩ := along_cons.1 h _ rfl
  obtain ⟨-, h₂⟩ := along_cons.1 h₁ _ rfl
  obtain ⟨h₃, -⟩ := along_cons.1 h₂ _ rfl
  have := h₃ _ rfl
  revert this
  decide +kernel

end BorderPatrol.Agg
