import BorderPatrol.Agg.Events
import BorderPatrol.Foundations.Post

/-!
# The temporal join

`join.ml`: `stream_join` takes the events one after the other and keeps for each thread the request
it is working on, for each descriptor its connection, and for each message of a connection the
request it was sent for. The counters behind `gensym` and `genrid` are part of the state, and so is
what is written to `graphout`. Arguments are evaluated from right to left, which shows where two of
them call `gensym`.

The orders in which the two tables are folded are parameters, and so is `port`, the port
`getportbyname` gives for `www`.
-/

namespace BorderPatrol.Agg

open Foundations

/-- The exceptions of the join. -/
inductive JoinError
  | unknownSyscall
  | notFound
  deriving DecidableEq, Repr

/-- The orders in which the tables are folded. -/
structure Orders where
  fd : Hashtbl.Traversal (ℤ × ℤ) Conn
  conn : Hashtbl.Traversal (Conn × ℤ) ℤ

/-- The orders of the lists. -/
def Orders.listed : Orders := ⟨.listed, .listed⟩

/-- What the join works on. -/
structure Joiner where
  ctx : Ctx
  gensymCt : ℤ
  genridCt : ℤ
  graphout : List (List Byte)

/-- What the join begins with. -/
def Joiner.start : Joiner := ⟨.empty, 0, 0, []⟩

/-- `fake_msg_id` -/
def fakeMsgId : ℤ := -9

/-! ## The context -/

/-- `new_simple_stream`, with the value of `gensym_ct`. -/
def newSimpleStream (gensymCt : ℤ) : Conn × ℤ := (⟨.genSym (gensymCt + 1)⟩, gensymCt + 1)

/-- `genrid`, with the value of `genrid_ct`. -/
def genrid (genridCt : ℤ) : ℤ × ℤ := (genridCt + 1, genridCt + 1)

/-- `conn_of_fd`, where `paranoid_mode` is false. -/
def connOfFd (ctx : Ctx) (gensymCt pid fd : ℤ) : Conn × ℤ :=
  match ctx.cFd.find? (pid, fd) with
  | some conn => (conn, gensymCt)
  | none => newSimpleStream gensymCt

/-- `set_fd_conn` -/
def setFdConn (ctx : Ctx) (pid fd : ℤ) (conn : Conn) : Ctx :=
  { ctx with cFd := ctx.cFd.replace (pid, fd) conn }

/-- `rid_of_msg` -/
def ridOfMsg (ctx : Ctx) (gensymCt pid fd msgid : ℤ) : ℤ × ℤ :=
  let (conn, gensymCt) := connOfFd ctx gensymCt pid fd
  ((ctx.cConn.find? (conn, msgid)).getD (-1), gensymCt)

/-- `set_msg` -/
def setMsg (ctx : Ctx) (gensymCt pid fd msgid rid : ℤ) : Ctx × ℤ :=
  let (conn, gensymCt) := connOfFd ctx gensymCt pid fd
  ({ ctx with cConn := ctx.cConn.replace (conn, msgid) rid }, gensymCt)

/-- `add_msg` -/
def addMsg (ctx : Ctx) (msg : Msg) : Ctx := { ctx with cMsgs := ctx.cMsgs ++ [msg] }

/-- `distinguished_conn` -/
def distinguishedConn (port : ℤ) (conn : Conn) : Bool :=
  match conn.id with
  | .hostPort rdv => matchportbyname port rdv
  | _ => false

/-- `clear_flags` -/
def clearFlags (ctx : Ctx) : Ctx :=
  { ctx with cDgn := ctx.cDgn.map fun d => { d with new := false }, cMsgs := [] }

/-- `dgn_set` -/
def dgnSet (ctx : Ctx) (mid : Mid) (rid : ℤ) : Ctx :=
  let newdgn : Dgn := ⟨mid, rid, true⟩
  { ctx with cDgn :=
      if ctx.cDgn.any fun dgn => mideq dgn.mid mid then
        ctx.cDgn.map fun dgn => if mideq dgn.mid mid then newdgn else dgn
      else ctx.cDgn ++ [newdgn] }

/-- `dgn_get` -/
def dgnGet (ctx : Ctx) (mid : Mid) : ℤ :=
  match ctx.cDgn.find? fun dgn => mideq dgn.mid mid && dgn.rid ≠ -1 with
  | some dgn => dgn.rid
  | none => -1

/-! ## Forks and connections -/

/-- `ht_keylist` -/
def htKeylist {κ α : Type} [DecidableEq κ] (o : Hashtbl.Traversal κ α) (ht : Hashtbl κ α) :
    List κ :=
  (o.visit ht).foldl (fun acc b => b.1 :: acc) []

/-- `handle_fork`: the child is given the parent's descriptors and designation. -/
def handleFork (o : Orders) (ctx : Ctx) (pmid mid : Mid) : Ctx :=
  let pfcList := (o.fd.visit ctx.cFd).foldl
    (fun acc b => if b.1.1 = pmid.pid then b :: acc else acc) []
  let cFd := pfcList.foldl (fun t b => t.add (mid.pid, b.1.2) b.2) ctx.cFd
  dgnSet { ctx with cFd := cFd } mid (dgnGet ctx pmid)

/-- One step of the loop over the messages of a renamed connection: the visible binding of `(c, m)`
becomes one of `(conn', m)`. -/
def renameMsg (conn' : Conn) (cConn : Hashtbl (Conn × ℤ) ℤ) (cm : Conn × ℤ) :
    Except JoinError (Hashtbl (Conn × ℤ) ℤ) :=
  match cConn.find? cm with
  | some rid => .ok ((cConn.remove cm).add (conn', cm.2) rid)
  | none => .error .notFound

/-- `replace_all_conn` -/
def replaceAllConn (o : Orders) (ctx : Ctx) (conn conn' : Conn) : Except JoinError Ctx :=
  let pflist := (htKeylist o.fd ctx.cFd).filter fun pf =>
    match ctx.cFd.find? pf with
    | some c => connEq c conn
    | none => false
  let cFd := pflist.foldl (fun t pf => t.replace pf conn') ctx.cFd
  let cmlist := (htKeylist o.conn ctx.cConn).filter fun cm => connEq cm.1 conn
  cmlist.foldlM (renameMsg conn') ctx.cConn >>= fun cConn =>
    .ok { ctx with cFd := cFd, cConn := cConn }

/-! ## The join -/

/-- A line of the graph. -/
def graphLine (ev : Event) (dir : String) (rid : ℤ) (conn : Conn) (msgid : ℤ) : List Byte :=
  decimal ev.ts ++ ascii "|" ++ ascii dir ++ ascii "|" ++ decimal rid ++ ascii "|" ++ ev.prog ++
    ascii "_" ++ stringOfMid ⟨ev.tid, ev.pid⟩ ++ ascii "|" ++ stringOfConn conn ++ ascii "-" ++
    decimal msgid ++ ascii "\n"

/-- A new connection for a descriptor, with the thread's designation (`Open` and `Socket`). -/
def joinOpen (j : Joiner) (ev : Event) (fd : ℤ) : Joiner :=
  let rid := dgnGet j.ctx ⟨ev.tid, ev.pid⟩
  let (conn, g) := newSimpleStream j.gensymCt
  let (ctx, g) := setMsg (setFdConn j.ctx ev.pid fd conn) g ev.pid fd fakeMsgId rid
  { j with ctx := ctx, gensymCt := g }

/-- `Pipe` -/
def joinPipe (j : Joiner) (ev : Event) (fi fo : ℤ) : Joiner :=
  let rid := dgnGet j.ctx ⟨ev.tid, ev.pid⟩
  -- the stream of `fo` is the argument evaluated first
  let (co, g) := newSimpleStream j.gensymCt
  let (ci, g) := newSimpleStream g
  let ctx := setFdConn (setFdConn j.ctx ev.pid fi ci) ev.pid fo co
  let (ctx, g) := setMsg ctx g ev.pid fi fakeMsgId rid
  let (ctx, g) := setMsg ctx g ev.pid fo fakeMsgId rid
  { j with ctx := ctx, gensymCt := g }

/-- `MessageSend` -/
def joinSend (j : Joiner) (ev : Event) (prot : List Byte) (fd msgid : ℤ) : Joiner :=
  let rid := dgnGet j.ctx ⟨ev.tid, ev.pid⟩
  let (conn, g) := connOfFd j.ctx j.gensymCt ev.pid fd
  let line := graphLine ev "send" rid conn msgid
  let (conn, g) := connOfFd j.ctx g ev.pid fd
  let msg : Msg := ⟨ev.pid, ev.eid, true, prot, stringOfConn conn, msgid, rid⟩
  let (ctx, g) := setMsg j.ctx g ev.pid fd msgid rid
  { j with ctx := addMsg ctx msg, gensymCt := g, graphout := j.graphout ++ [line] }

/-- `MessageRecv`: on a distinguished connection the message is the head of a request, and starts a
path of its own. -/
def joinRecv (port : ℤ) (j : Joiner) (ev : Event) (prot : List Byte) (fd msgid : ℤ) : Joiner :=
  let (conn, g) := connOfFd j.ctx j.gensymCt ev.pid fd
  let (arid, r, g) :=
    if distinguishedConn port conn then
      let (arid, r) := genrid j.genridCt
      (arid, r, g)
    else
      let (arid, g) := ridOfMsg j.ctx g ev.pid fd msgid
      (arid, j.genridCt, g)
  let line := graphLine ev "recv" arid conn msgid
  let (mrid, g) := ridOfMsg j.ctx g ev.pid fd msgid
  let (conn, g) := connOfFd j.ctx g ev.pid fd
  let msg : Msg := ⟨ev.pid, ev.eid, false, prot, stringOfConn conn, msgid, mrid⟩
  let (ctx, g) := setMsg (dgnSet j.ctx ⟨ev.tid, ev.pid⟩ arid) g ev.pid fd fakeMsgId arid
  { ctx := addMsg ctx msg, gensymCt := g, genridCt := r, graphout := j.graphout ++ [line] }

/-- `Connect` and `ProtocolInit`: the connection of a descriptor is given another name. -/
def joinRename (o : Orders) (j : Joiner) (ev : Event) (fd : ℤ) (name : Conn → Conn) :
    Except JoinError Joiner :=
  let (conn, g) := connOfFd j.ctx j.gensymCt ev.pid fd
  replaceAllConn o j.ctx conn (name conn) >>= fun ctx => .ok { j with ctx := ctx, gensymCt := g }

/-- `stream_join` -/
def streamJoin (o : Orders) (port : ℤ) (j : Joiner) (stream : Stream) : Except JoinError Joiner :=
  let ev := stream.sEv
  let mid : Mid := ⟨ev.tid, ev.pid⟩
  match stream.sType with
  | .start _ _ => .ok j
  | .fork ppid ptid => .ok { j with ctx := handleFork o j.ctx ⟨ptid, ppid⟩ mid }
  | .exec _ =>
    -- set all designations to me
    .ok { j with ctx := { j.ctx with cDgn := j.ctx.cDgn.map fun d =>
      if d.mid.pid = ev.pid then ⟨mid, d.rid, true⟩ else d } }
  | .pollBegin => .ok j
  | .poll true _ => .ok j
  | .poll false fd =>
    let (nrid, g) := ridOfMsg j.ctx j.gensymCt ev.pid fd fakeMsgId
    .ok { j with ctx := dgnSet j.ctx mid nrid, gensymCt := g }
  | .open nfd => .ok (joinOpen j ev nfd)
  | .socket fd => .ok (joinOpen j ev fd)
  | .pipe fi fo => .ok (joinPipe j ev fi fo)
  | .dup oldfd newfd =>
    let (conn, g) := connOfFd j.ctx j.gensymCt ev.pid oldfd
    .ok { j with ctx := setFdConn j.ctx ev.pid newfd conn, gensymCt := g }
  | .close _ => .ok j
  | .accept nfd rdv => .ok { j with ctx := setFdConn j.ctx ev.pid nfd ⟨.hostPort rdv⟩ }
  | .connect fd rdv => joinRename o j ev fd fun _ => ⟨.hostPort rdv⟩
  | .writeBegin _ | .write _ | .readBegin _ => .ok j
  | .read fd =>
    let (nrid, g) := ridOfMsg j.ctx j.gensymCt ev.pid fd fakeMsgId
    .ok { j with ctx := if nrid = -1 then j.ctx else dgnSet j.ctx mid nrid, gensymCt := g }
  | .protocolInit fd => joinRename o j ev fd fun conn => ⟨conn.id⟩
  | .messageSend prot fd msgid => .ok (joinSend j ev prot fd msgid)
  | .messageRecv prot fd msgid => .ok (joinRecv port j ev prot fd msgid)
  | .exit | .abort | .shutdown => .ok { j with ctx := dgnSet j.ctx mid (-1) }
  | .todoEvent _ | .skipEvent => .ok j
  | .unknown => .error .unknownSyscall

/-- An event in the loop of `run`: the flags of the event before are cleared. -/
def joinStep (o : Orders) (port : ℤ) (j : Joiner) (stream : Stream) : Except JoinError Joiner :=
  streamJoin o port { j with ctx := clearFlags j.ctx } stream

/-- The connection of a known descriptor. -/
theorem connOfFd_of {ctx : Ctx} {c : Conn} {pid fd : ℤ} (h : ctx.cFd.find? (pid, fd) = some c)
    (g : ℤ) : connOfFd ctx g pid fd = (c, g) := by
  rw [connOfFd, h]

/-! ## Designations -/

theorem dgnGet_clearFlags (ctx : Ctx) (mid : Mid) :
    dgnGet (clearFlags ctx) mid = dgnGet ctx mid := by
  have hp : ((fun dgn : Dgn => mideq dgn.mid mid && decide (dgn.rid ≠ -1)) ∘
      fun d : Dgn => ({ d with new := false } : Dgn)) =
        fun dgn : Dgn => mideq dgn.mid mid && decide (dgn.rid ≠ -1) := rfl
  unfold dgnGet clearFlags
  simp only [List.find?_map, hp]
  generalize List.find? _ ctx.cDgn = r
  cases r <;> rfl

/-- A thread has the designation that all its entries have. -/
theorem dgnGet_of_forall {ctx : Ctx} {mid : Mid} {rid : ℤ}
    (hall : ∀ d ∈ ctx.cDgn, d.mid = mid → d.rid = rid) (hex : ∃ d ∈ ctx.cDgn, d.mid = mid) :
    dgnGet ctx mid = rid := by
  unfold dgnGet
  split
  · next d hd =>
    have hp := List.find?_some hd
    simp only [Bool.and_eq_true, mideq_iff] at hp
    exact hall d (List.mem_of_find?_eq_some hd) hp.1
  · next hnone =>
    -- an entry that is passed over has no designation
    obtain ⟨d, hd, hmid⟩ := hex
    have hp := List.find?_eq_none.1 hnone d hd
    simp only [Bool.and_eq_true, mideq_iff, hmid, true_and, decide_eq_true_eq, not_not] at hp
    rw [← hp, hall d hd hmid]

/-- A thread whose designation is set has it. -/
theorem dgnGet_dgnSet (ctx : Ctx) (mid : Mid) (rid : ℤ) :
    dgnGet (dgnSet ctx mid rid) mid = rid := by
  by_cases hany : ctx.cDgn.any fun dgn => mideq dgn.mid mid
  · obtain ⟨d₀, hd₀, hmid₀⟩ := List.any_eq_true.1 hany
    rw [mideq_iff] at hmid₀
    have hset : (dgnSet ctx mid rid).cDgn =
        ctx.cDgn.map fun dgn => if mideq dgn.mid mid then ⟨mid, rid, true⟩ else dgn := if_pos hany
    apply dgnGet_of_forall
    · rw [hset]
      intro d hd hmid
      obtain ⟨d', -, rfl⟩ := List.mem_map.1 hd
      by_cases h : d'.mid = mid
      · simp [mideq_iff, h]
      · simp [mideq_iff, h] at hmid
    · rw [hset]
      exact ⟨⟨mid, rid, true⟩, List.mem_map.2 ⟨d₀, hd₀, by simp [mideq_iff, hmid₀]⟩, rfl⟩
  · have hset : (dgnSet ctx mid rid).cDgn = ctx.cDgn ++ [⟨mid, rid, true⟩] := if_neg hany
    apply dgnGet_of_forall
    · rw [hset]
      intro d hd hmid
      rcases List.mem_append.1 hd with hd | hd
      · exact absurd (List.any_eq_true.2 ⟨d, hd, mideq_iff.2 hmid⟩) hany
      · rw [List.mem_singleton.1 hd]
    · rw [hset]
      exact ⟨⟨mid, rid, true⟩, by simp, rfl⟩

end BorderPatrol.Agg
