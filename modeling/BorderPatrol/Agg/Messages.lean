import BorderPatrol.Agg.Designations
import BorderPatrol.Agg.Freshness
import BorderPatrol.Agg.Provenance

/-!
# The rows of messages

For an event that sends or receives a message, `dump_msg` writes a row with the request of the
message, and `dump_work` one with the request of the thread. A message that is sent is for the
request of its sender, and one that is received is for the request under which it was sent, which
the receiver takes over. At the head of a request the receiver is given a new id, which the graph
has too; but the row of the message has what was known of it before, and that is never the new id
(`messages_agree_iff`).
-/

namespace BorderPatrol.Agg

open Foundations

/-- A row of table `msg`. -/
structure MsgRow where
  pid : ℤ
  eid : ℤ
  send : ℤ
  prot : List Byte
  conn : List Byte
  msgid : ℤ
  rid : ℤ
  deriving DecidableEq, Repr

/-- The row of a message. -/
def Msg.row (msg : Msg) : MsgRow :=
  ⟨msg.pid, msg.ev, if msg.send then 1 else 0, msg.prot, msg.conn, msg.id, msg.rid⟩

/-- `dump_msg`, the row that is inserted: that of the first message. -/
def dumpMsg (msgs : List Msg) : Option MsgRow := msgs.head?.map Msg.row

/-- `MessageSend` and `MessageRecv` -/
def EventType.isMessage : EventType → Bool
  | .messageSend .. | .messageRecv .. => true
  | _ => false

variable {o : Orders} {port : ℤ} {j j' : Joiner} {e : Stream}

/-- An event that sends or receives a message adds one, and the row of it has the designation that
its thread has then. -/
def MsgAgrees (o : Orders) (port : ℤ) (j : Joiner) (e : Stream) : Prop :=
  e.sType.isMessage = true → ∃ j' msg, joinStep o port j e = .ok j' ∧ j'.ctx.cMsgs = [msg] ∧
    dumpMsg j'.ctx.cMsgs = some msg.row ∧ msg.row.rid = dgnGet j'.ctx e.mid

/-! ## The message that is added -/

theorem joinSend_msgs (ev : Event) (prot : List Byte) (fd msgid : ℤ) : ∃ msg,
    (joinSend j ev prot fd msgid).ctx.cMsgs = j.ctx.cMsgs ++ [msg] ∧
      msg.rid = dgnGet (joinSend j ev prot fd msgid).ctx ⟨ev.tid, ev.pid⟩ :=
  ⟨_, rfl, (dgnGet_congr rfl _).symm⟩

/-- A message of a descriptor without a connection is not known. -/
theorem Bounded.ridOfMsg_none {n : ℤ} {ctx : Ctx} (h : Bounded n ctx) {g pid fd : ℤ} (hg : n ≤ g)
    (hfd : ctx.cFd.find? (pid, fd) = none) (m : ℤ) : (ridOfMsg ctx g pid fd m).1 = -1 := by
  have hconn : Agg.connOfFd ctx g pid fd = (⟨.genSym (g + 1)⟩, g + 1) := by
    rw [Agg.connOfFd, hfd]
    rfl
  have hnone : ctx.cConn.find? (⟨.genSym (g + 1)⟩, m) = none := by
    rw [Hashtbl.find?_eq, h.stack_conn (by omega), List.head?_nil]
  simp only [ridOfMsg, hconn, hnone, Option.getD_none]

/-- The request of a message does not depend on what is generated meanwhile. -/
theorem Bounded.ridOfMsg_eq {n : ℤ} {ctx : Ctx} (h : Bounded n ctx) {g g' : ℤ} (hg : n ≤ g)
    (hg' : n ≤ g') (pid fd m : ℤ) :
    (ridOfMsg ctx g pid fd m).1 = (ridOfMsg ctx g' pid fd m).1 := by
  rcases hfd : ctx.cFd.find? (pid, fd) with _ | c
  · rw [h.ridOfMsg_none hg hfd, h.ridOfMsg_none hg' hfd]
  · rw [ridOfMsg_of hfd, ridOfMsg_of hfd]

/-- What a receive adds, and the designation it sets: on a distinguished connection the next id, on
others the request of the message. -/
theorem joinRecv_msgs (hb : Bounded j.gensymCt j.ctx) (port : ℤ) (ev : Event) (prot : List Byte)
    (fd msgid : ℤ) : ∃ msg,
      (joinRecv port j ev prot fd msgid).ctx.cMsgs = j.ctx.cMsgs ++ [msg] ∧
      msg.rid = (ridOfMsg j.ctx j.gensymCt ev.pid fd msgid).1 ∧
      dgnGet (joinRecv port j ev prot fd msgid).ctx ⟨ev.tid, ev.pid⟩ =
        if distinguishedConn port (connOfFd j.ctx j.gensymCt ev.pid fd).1 then j.genridCt + 1
        else msg.rid := by
  set c := (connOfFd j.ctx j.gensymCt ev.pid fd).1 with hc
  set g := (connOfFd j.ctx j.gensymCt ev.pid fd).2 with hg
  have hle : j.gensymCt ≤ g := le_connOfFd ..
  have hle' : j.gensymCt ≤ (ridOfMsg j.ctx g ev.pid fd msgid).2 :=
    hle.trans (le_connOfFd j.ctx g ev.pid fd)
  have hdgn : ∀ (arid g' : ℤ) (msg : Msg), dgnGet (addMsg (setMsg (dgnSet j.ctx ⟨ev.tid, ev.pid⟩
      arid) g' ev.pid fd fakeMsgId arid).1 msg) ⟨ev.tid, ev.pid⟩ = arid := fun arid g' msg =>
    (dgnGet_congr rfl _).trans (dgnGet_dgnSet j.ctx ⟨ev.tid, ev.pid⟩ arid)
  by_cases hd : distinguishedConn port c = true
  · simp only [joinRecv, ← hc, ← hg, hd, if_true]
    exact ⟨_, rfl, hb.ridOfMsg_eq hle le_rfl .., hdgn ..⟩
  · simp only [joinRecv, ← hc, ← hg, hd]
    exact ⟨_, rfl, hb.ridOfMsg_eq hle' le_rfl .., (hdgn ..).trans (hb.ridOfMsg_eq hle hle' ..)⟩

/-! ## Runs -/

/-- No id is in the tables that is given out after those counted. -/
def RidsCounted (j : Joiner) : Prop :=
  0 ≤ j.genridCt ∧ Within {r | r ≤ j.genridCt} j.ctx

theorem Within.mono {S S' : Set ℤ} {ctx : Ctx} (h : Within S ctx) (hS : S ⊆ S') :
    Within S' ctx :=
  ⟨hS h.none, fun d hd => hS (h.dgn d hd), fun r hr => hS (h.conn r hr),
    fun m hm => hS (h.msgs m hm)⟩

theorem ridsCounted_start : RidsCounted .start :=
  ⟨le_rfl, (by decide : (-1 : ℤ) ≤ 0), fun _ hd => absurd hd List.not_mem_nil,
    fun _ hr => absurd hr List.not_mem_nil, fun _ hm => absurd hm List.not_mem_nil⟩

theorem RidsCounted.joinStep (h : RidsCounted j) (hj : joinStep o port j e = .ok j') :
    RidsCounted j' := by
  obtain ⟨h₀, hw⟩ := h
  have hct := joinStep_ok hj
  have hw' : Within {r | r ≤ j'.genridCt} (clearFlags j.ctx) :=
    hw.clearFlags.mono fun r (hr : r ≤ j.genridCt) => by
      change r ≤ j'.genridCt
      omega
  refine ⟨by omega, (Within.streamJoin (j := { j with ctx := clearFlags j.ctx }) hw' ?_ hj).1⟩
  intro r hr
  change r ∈ begun port j e at hr
  change r ≤ j'.genridCt
  rcases begun_cases port j e with hb | hb
  · rw [hb] at hr
    cases hr
  · rw [hb] at hr hct
    rw [List.mem_singleton.1 hr, hct]
    rfl

/-- The rows of a message that is received agree exactly when it does not begin a request. -/
theorem recv_agrees_iff (hb : Bounded j.gensymCt j.ctx) (hr : RidsCounted j) (ev : Event)
    (prot : List Byte) (fd msgid : ℤ) :
    MsgAgrees o port j ⟨.messageRecv prot fd msgid, ev⟩ ↔
      begun port j ⟨.messageRecv prot fd msgid, ev⟩ = [] := by
  set j₀ : Joiner := { j with ctx := clearFlags j.ctx } with hj₀
  obtain ⟨msg, hmsgs, hrid, hdgn⟩ :=
    joinRecv_msgs (j := j₀) (hb.congr rfl rfl) port ev prot fd msgid
  have hmsgs' : (joinRecv port j₀ ev prot fd msgid).ctx.cMsgs = [msg] := hmsgs
  have hle : msg.rid ≤ j.genridCt := by
    rw [hrid]
    exact hr.2.clearFlags.ridOfMsg ..
  have hbegun : begun port j ⟨.messageRecv prot fd msgid, ev⟩ =
      if distinguishedConn port (connOfFd j₀.ctx j₀.gensymCt ev.pid fd).1 then [j.genridCt + 1]
      else [] := rfl
  rw [hbegun]
  by_cases hd : distinguishedConn port (connOfFd j₀.ctx j₀.gensymCt ev.pid fd).1 = true
  · -- the id is new, and no table has it
    rw [if_pos hd] at hdgn ⊢
    refine iff_of_false (fun h => ?_) (List.cons_ne_nil _ _)
    obtain ⟨j', msg', hj', hmsg', -, hagree⟩ := h rfl
    cases hj'
    obtain rfl : msg = msg' := List.singleton_inj.1 (hmsgs'.symm.trans hmsg')
    have hnew : msg.rid = j.genridCt + 1 := hagree.trans hdgn
    omega
  · rw [if_neg hd] at hdgn ⊢
    refine iff_of_true (fun _ => ⟨_, msg, rfl, hmsgs', ?_, hdgn.symm⟩) rfl
    rw [hmsgs']
    rfl

/-- **The rows of an event agree** exactly when it does not begin a request. -/
theorem msgAgrees_iff (hb : Bounded j.gensymCt j.ctx) (hr : RidsCounted j) (e : Stream) :
    MsgAgrees o port j e ↔ begun port j e = [] := by
  obtain ⟨type, ev⟩ := e
  cases type with
  | messageSend prot fd msgid =>
    refine iff_of_true (fun _ => ?_) rfl
    obtain ⟨msg, hmsgs, hrid⟩ :=
      joinSend_msgs (j := { j with ctx := clearFlags j.ctx }) ev prot fd msgid
    refine ⟨_, msg, rfl, hmsgs, ?_, hrid⟩
    change dumpMsg (joinSend _ ev prot fd msgid).ctx.cMsgs = _
    rw [hmsgs]
    rfl
  | messageRecv prot fd msgid => exact recv_agrees_iff hb hr ev prot fd msgid
  | _ => exact iff_of_true (fun h => by cases h) rfl

/-- **The tables agree** at each event of a run if and only if no event of it begins a request,
that is, none is a `MessageRecv` of a descriptor whose connection is distinguished. -/
theorem messages_agree_iff (o : Orders) (port : ℤ) (es : List Stream) :
    Tried (joinStep o port) .start es (MsgAgrees o port) ↔
      Tried (joinStep o port) .start es fun j e => begun port j e = [] := by
  refine tried_iff (I := fun j => Bounded j.gensymCt j.ctx ∧ RidsCounted j) ?_ ?_ ?_
  · exact ⟨bounded_start, ridsCounted_start⟩
  · intro j e h
    exact msgAgrees_iff h.1 h.2 e
  · intro j e j' h _ hj
    exact ⟨h.1.joinStep hj, h.2.joinStep hj⟩

/-- A request is received: the row of its thread has the new id, and that of the message -1. -/
theorem request_disagrees :
    ¬ Tried (joinStep .listed 80) .start oneRequest (MsgAgrees .listed 80) := by
  intro h
  obtain ⟨j', msg, hj', hmsg, -, hagree⟩ :=
    h (oneRequest.take 1) _ (List.take_prefix 2 oneRequest) _ rfl rfl
  cases hj'
  cases hmsg
  revert hagree
  decide +kernel

end BorderPatrol.Agg
