import BorderPatrol.Agg.Meeting
import BorderPatrol.Agg.Traced
import BorderPatrol.Logd.RoundTrip
import BorderPatrol.Trace.Identify
import BorderPatrol.Trace.Sockets

/-!
# From opening a connection to requests

A client makes a socket and connects it, and a server accepts the connection. Both give their
descriptors processors by the address of the server, and both log the same name of the connection
(`openEnds_spec`). Once the aggregator has joined the two events, in any order, both descriptors
have the connection of that name (`JoinedSince.find`). So nothing need be assumed of the
descriptors or of what the aggregator knows: all messages of a session over the connection are
attributed (`established_attributed`).
-/

namespace BorderPatrol.Agg

open Foundations Foundations.Resumable Logd

variable {σ τ : Type}

/-! ## Opening a connection -/

/-- What the two processes open a connection with: their threads, the descriptors they get, that on
which the server accepts, the arguments of `socket`, what their variables hold and what is left of
earlier lookups of services. -/
structure Opening where
  tid : Side → UInt64
  fd : Side → ℤ
  listening : ℤ
  domain : ℤ
  type : ℤ
  protocol : ℤ
  raddr : Side → Mem Byte
  laddr : Side → Mem Byte
  services : Side → Trace.Services

/-- The descriptors are in the tables. -/
structure Opening.Valid (k : Opening) (h : Side → Trace.Host) : Prop where
  fd : ∀ x, 0 ≤ k.fd x ∧ k.fd x < Trace.maxFds
  listening : 0 ≤ k.listening ∧ k.listening < Trace.maxFds
  services : ∀ x, Trace.Closed (h x).services (k.services x)

/-- The peer of a side. Only the processors `pps` are dispatchers of the dialogue. -/
def Dialogue.peer (D : Dialogue σ τ) (pps : Side → Trace.Pp) (x : Side) (rdv : List Byte)
    (pp : Option Trace.Pp) : Trace.Peer σ where
  rdv := rdv
  id := if pp = some (pps x) then some (D.pp x) else none
  idLog := Trace.idLog pp

/-- The calls of `socket` and `connect` of the client, whose side is `a`, and that of `accept` of
the server, with their log calls. -/
def openEnds (D : Dialogue σ τ) (pps : Side → Trace.Pp) (h : Side → Trace.Host)
    (c : Trace.Connection) (k : Opening) (p : Side → Trace.Process σ) :
    Except Fault (Session σ × List SessionLog) :=
  Trace.socket (p .a) k.domain k.type k.protocol (k.fd .a) >>= fun made =>
    Trace.connectPeer (h .a) (k.services .a) (k.raddr .a) (k.laddr .a) (some c.server)
        (some c.client) >>= fun ra =>
      Trace.acceptPeer (h .b) (k.services .b) (k.raddr .b) (k.laddr .b) (some c.client)
          (some c.server) >>= fun rb =>
        Trace.accept (p .b) k.listening (k.fd .b) (D.peer pps .b rb.1 rb.2.1) >>= fun accepted =>
          let connected := Trace.connect made.1 (k.fd .a) 0 false (D.peer pps .a ra.1 ra.2.1)
          .ok ({
            proc := fun | .a => connected.1 | .b => accepted.1
            wrote := fun _ => []
            got := fun _ => []
            given := fun _ => []
            log := [] },
            (made.2.2 ++ connected.2.2).map (SessionLog.mk .a (k.tid .a)) ++
              accepted.2.2.map (SessionLog.mk .b (k.tid .b)))

/-- The log call that names the connection of a side. -/
def openingLog (c : Trace.Connection) (k : Opening) : Side → SessionLog
  | .a => ⟨.a, k.tid .a, Trace.logbinIs .connect 0 (k.fd .a) c.name⟩
  | .b => ⟨.b, k.tid .b, Trace.logbinIs .accept (k.fd .b) k.listening c.name⟩

/-- The log call of the client's socket. -/
def socketLog (k : Opening) : SessionLog :=
  ⟨.a, k.tid .a, Trace.logbinIii .socket (k.fd .a) k.domain k.type k.protocol⟩

variable {D : Dialogue σ τ} {pps : Side → Trace.Pp} {h : Side → Trace.Host} {c : Trace.Connection}
  {k : Opening} {p : Side → Trace.Process σ}

section Wrappers

variable {P : Trace.PpDispatcher σ} {q : Trace.Process σ} {s : ℤ} {peer : Trace.Peer σ}

/-- A descriptor that `socket` has made is opened by `connect`. -/
theorem connect_opens (hs : 0 ≤ s ∧ s < Trace.maxFds) (hid : peer.id = some P)
    (domain type protocol : ℤ) : ∃ q₁, Trace.socket q domain type protocol s =
        .ok (q₁, s, [Trace.logbinIii .socket s domain type protocol]) ∧
      (∃ v d, (Trace.connect q₁ s 0 false peer).1.vfdTab s =
        { Trace.Vfd.accepted v P s d with type := .sock }) ∧
      Trace.logbinIs .connect 0 s peer.rdv ∈ (Trace.connect q₁ s 0 false peer).2.2 := by
  have hrange : ¬ (s < 0 ∨ Trace.maxFds ≤ s) := by omega
  refine ⟨_, by rw [Trace.socket, if_pos hs.1, inBounds_of hs.2, ok_bind]; rfl, ?_, ?_⟩
  · rw [Trace.connect, if_neg hrange, if_pos (by decide)]
    refine ⟨q.vfdTab s, q.vfdTab s |>.ppData, ?_⟩
    simp only [Trace.connectEvent, hid, Trace.Process.setVfd_vfdTab, if_true]
    rfl
  · rw [Trace.connect, if_neg hrange, if_pos (by decide)]
    simp only [Trace.connectEvent, List.mem_append, List.mem_singleton, or_true]

/-- A descriptor that `accept` gives is opened. -/
theorem accept_opens {listening : ℤ} (hl : 0 ≤ listening ∧ listening < Trace.maxFds)
    (hs : 0 ≤ s ∧ s < Trace.maxFds) (hid : peer.id = some P) : ∃ q₁ l₁,
      Trace.accept q listening s peer = .ok (q₁, s, l₁) ∧
      (∃ v d, q₁.vfdTab s = { Trace.Vfd.accepted v P s d with type := .sock }) ∧
      Trace.logbinIs .accept s listening peer.rdv ∈ l₁ := by
  have hrange : ¬ (listening < 0 ∨ Trace.maxFds ≤ listening) := by omega
  have hne : s ≠ -1 := by omega
  refine ⟨_, _, by rw [Trace.accept, if_neg hrange, if_pos hne, inBounds_of hs, ok_bind]; rfl, ?_,
    ?_⟩
  · refine ⟨q.vfdTab s, q.vfdTab s |>.ppData, ?_⟩
    simp only [hid, Trace.Process.setVfd_vfdTab, if_true]
    rfl
  · simp only [List.mem_append, List.mem_singleton, or_true]

end Wrappers

/-- The descriptors are opened, and the connection is named in the logs of both. -/
theorem openEnds_spec (hk : k.Valid h) (hread : c.Readable)
    (hconnected : c.Connected (h .a) (some (pps .a)))
    (haccepted : c.Accepted (h .b) (some (pps .b))) :
    ∃ s logs, openEnds D pps h c k p = .ok (s, logs) ∧ Opened D k.fd s ∧
      socketLog k ∈ logs ∧ ∀ x, openingLog c k x ∈ logs := by
  obtain ⟨stA, hA, -⟩ := hconnected.peer hread (hk.services .a) (k.raddr .a) (k.laddr .a)
  obtain ⟨stB, hB, -⟩ := haccepted.peer hread (hk.services .b) (k.raddr .b) (k.laddr .b)
  have hid : ∀ x, (D.peer pps x c.name (some (pps x))).id = some (D.pp x) := fun x => if_pos rfl
  obtain ⟨q₁, hsocket, ⟨v, d, hv⟩, hlog⟩ := connect_opens (q := p .a) (hk.fd .a) (hid .a)
    k.domain k.type k.protocol
  obtain ⟨q₂, l₂, haccept, ⟨v', d', hv'⟩, hlog'⟩ := accept_opens (q := p .b) hk.listening (hk.fd .b)
    (hid .b)
  refine ⟨_, _, by rw [openEnds, hsocket, ok_bind, hA, ok_bind, hB, ok_bind, haccept, ok_bind],
    ⟨fun x => ?_, fun _ => rfl, fun _ => rfl, fun _ => rfl, rfl⟩, ?_, fun x => ?_⟩
  · cases x with
    | a => exact ⟨v, d, .sock, hv⟩
    | b => exact ⟨v', d', .sock, hv'⟩
  · exact List.mem_append_left _ (List.mem_map_of_mem (List.mem_append_left _ List.mem_cons_self))
  · cases x with
    | a =>
      exact List.mem_append_left _ (List.mem_map_of_mem (List.mem_append_right _ hlog))
    | b => exact List.mem_append_right _ (List.mem_map_of_mem hlog')

/-! ## The events of the opening -/

/-- The connection of a name, as the aggregator knows it. -/
def connOf (c : Trace.Connection) : Conn := ⟨.hostPort (c.name.map underscored)⟩

variable {S : Syscalls} {num : Trace.Sc → Int32} {pid : Side → Int32} {q : SessionLog} {e : Stream}

theorem name_ne_zero (c : Trace.Connection) : ∀ b ∈ c.name, b ≠ 0 := by
  have harrow : ∀ b ∈ Trace.arrow, b ≠ 0 := List.forall_mem_ne'.2 (by decide)
  have hip : ∀ k : List Byte × ℕ, ∀ b ∈ Trace.ipText k, b ≠ 0 := by
    rintro k b hb rfl
    exact absurd (Trace.ipText_mem hb).1 (by decide)
  intro b hb
  cases c with
  | inet x y =>
    simp only [Trace.Connection.name, List.mem_append] at hb
    rcases hb with (hb | hb) | hb
    exacts [hip _ b hb, harrow b hb, hip _ b hb]
  | inet6 x y =>
    simp only [Trace.Connection.name, List.mem_append] at hb
    rcases hb with (hb | hb) | hb
    exacts [hip _ b hb, harrow b hb, hip _ b hb]
  | unix x y =>
    simp only [Trace.Connection.name, List.mem_append] at hb
    rcases hb with (hb | hb) | hb
    exacts [x.ne_zero b hb, harrow b hb, y.ne_zero b hb]

theorem name_ne_nil (c : Trace.Connection) : c.name ≠ [] := by
  cases c <;> simp [Trace.Connection.name, Trace.arrow]

/-- A descriptor is its own result. -/
theorem toInt16_ofInt {s : ℤ} (hs : 0 ≤ s ∧ s < Trace.maxFds) :
    (Int32.ofInt s).toInt16.toInt = s := by
  rw [Trace.maxFds] at hs
  rw [Int32.toInt16_ofInt, Int16.toInt_ofInt, Int.bmod_def]
  change (if s % 65536 < (65536 + 1) / 2 then s % 65536 else s % 65536 - 65536) = s
  omega

/-- The event of a log call with a name. -/
theorem readOf_named (hnum : Numbered S num) {sc : Trace.Sc} {rv i : ℤ}
    (hrv : 0 ≤ rv ∧ rv < Trace.maxFds) (hi : 0 ≤ i ∧ i < Trace.maxFds)
    (hq : q.call = Trace.logbinIs sc rv i c.name) (h : ReadOf S num pid q e) :
    e.sEv.pid = (pid q.side).toInt ∧ ∃ ev : FullEvent, mkEventtype S ev = .ok e.sType ∧
      ev.scStr = sc.name ∧ ev.rv = rv ∧ ev.arg1 = i ∧ ev.str = c.name.map underscored := by
  obtain ⟨hpid, r, ev, hlogged, htype, hev⟩ := readOf_event hnum h
  rw [Trace.maxFds] at hi
  have hargs : r.args = [Int32.ofInt i] := by
    rw [hlogged.args, hq]
    rfl
  have hstr : r.str = c.name.map underscored := by
    rw [hlogged.str, hq]
    change (cstr ((if c.name = [] then none else some (c.name ++ [0])).getD [])).map underscored = _
    rw [if_neg (name_ne_nil c), Option.getD_some, cstr_append_zero (name_ne_zero c)]
  refine ⟨hpid, ev, htype, ?_, ?_, ?_, ?_⟩
  · rw [hev.scStr, hq]
    rfl
  · rw [hev.rv, hq]
    exact toInt16_ofInt hrv
  · rw [hev.arg1]
    change ((r.args ++ _).getD 0 0).toInt = _
    rw [hargs]
    change (Int32.ofInt i).toInt = i
    rw [toInt_ofInt32, toInt_of_lt (by omega) (by omega)]
  · rw [hev.str, string_entry, hstr]
    intro b hb
    rw [hstr] at hb
    obtain ⟨x, hx, rfl⟩ := List.mem_map.1 hb
    exact underscored_ne_zero (name_ne_zero c x hx)

/-- The event that gives a side its connection. -/
def openingType (c : Trace.Connection) (k : Opening) : Side → EventType
  | .a => .connect (k.fd .a) (c.name.map underscored)
  | .b => .accept (k.fd .b) (c.name.map underscored)

theorem readOf_opening (hnum : Numbered S num) (hk : k.Valid h) {x : Side}
    (hread : ReadOf S num pid (openingLog c k x) e) :
    e.sEv.pid = (pid x).toInt ∧ e.sType = openingType c k x := by
  cases x with
  | a =>
    obtain ⟨hpid, ev, htype, hsc, hrv, harg, hstr⟩ :=
      readOf_named hnum ⟨le_rfl, by decide⟩ (hk.fd .a) rfl hread
    refine ⟨hpid, ?_⟩
    rw [mkEventtype, if_neg (by omega), hsc] at htype
    exact (Except.ok.inj htype).symm.trans (by rw [harg, hstr]; rfl)
  | b =>
    obtain ⟨hpid, ev, htype, hsc, hrv, harg, hstr⟩ :=
      readOf_named hnum (hk.fd .b) hk.listening rfl hread
    refine ⟨hpid, ?_⟩
    have hfd := hk.fd .b
    rw [mkEventtype, if_neg (by omega), hsc] at htype
    exact (Except.ok.inj htype).symm.trans (by rw [hrv, hstr]; rfl)

theorem readOf_socket (hnum : Numbered S num) (hk : k.Valid h)
    (hread : ReadOf S num pid (socketLog k) e) :
    e.sEv.pid = (pid .a).toInt ∧ e.sType = .socket (k.fd .a) := by
  obtain ⟨hpid, r, ev, -, htype, hev⟩ := readOf_event hnum hread
  have hrv : ev.rv = k.fd .a := hev.rv.trans (toInt16_ofInt (hk.fd .a))
  have hsc : ev.scStr = Trace.Sc.socket.name := hev.scStr
  have hfd := hk.fd .a
  refine ⟨hpid, ?_⟩
  rw [mkEventtype, if_neg (by omega), hsc] at htype
  exact (Except.ok.inj htype).symm.trans (by rw [hrv])

/-! ## What keeps a descriptor on its connection -/

/-- What an event makes of the connections of the descriptors. -/
def FdsAfter (ctx : Ctx) (g : ℤ) (e : Stream) (ctx' : Ctx) : Prop :=
  match e.sType with
  | .fork ppid _ => ∀ p f, ctx'.cFd.find? (p, f) =
      if p = e.sEv.pid then (ctx.cFd.find? (ppid, f)).or (ctx.cFd.find? (p, f))
      else ctx.cFd.find? (p, f)
  | .open fd | .socket fd | .accept fd _ | .dup _ fd => ∃ d, ∀ key, ctx'.cFd.find? key =
      if key = (e.sEv.pid, fd) then some d else ctx.cFd.find? key
  | .pipe fi fo => ∃ d d', ∀ key, ctx'.cFd.find? key =
      if key = (e.sEv.pid, fo) then some d'
      else if key = (e.sEv.pid, fi) then some d else ctx.cFd.find? key
  | .connect fd rdv => ∀ key, ctx'.cFd.find? key =
      if ctx.cFd.find? key = some (connOfFd ctx g e.sEv.pid fd).1 then some ⟨.hostPort rdv⟩
      else ctx.cFd.find? key
  | _ => ∀ key, ctx'.cFd.find? key = ctx.cFd.find? key

variable {o : Orders} {port : ℤ} {j j' : Joiner} {E : Ends} {x : Side} {d : Conn}

theorem streamJoin_fds (h : streamJoin o port j e = .ok j') :
    FdsAfter j.ctx j.gensymCt e j'.ctx := by
  obtain ⟨type, ev⟩ := e
  have hset : ∀ (ctx ctx' : Ctx) (fd : ℤ) (d : Conn), ctx'.cFd = ctx.cFd.replace (ev.pid, fd) d →
      ∀ key, ctx'.cFd.find? key = if key = (ev.pid, fd) then some d else ctx.cFd.find? key := by
    intro ctx ctx' fd d hctx key
    rw [hctx]
    exact find?_setFdConn ctx ev.pid fd d key
  unfold streamJoin at h
  cases type with
  | fork ppid ptid =>
    cases h
    intro p f
    rw [Hashtbl.find?_eq, handleFork_stack, Hashtbl.find?_eq, Hashtbl.find?_eq]
    split
    · rw [List.head?_append]
    · rfl
  | «open» fd =>
    cases h
    exact ⟨_, hset j.ctx _ fd _ rfl⟩
  | socket fd =>
    cases h
    exact ⟨_, hset j.ctx _ fd _ rfl⟩
  | pipe fi fo =>
    cases h
    set d := (newSimpleStream (j.gensymCt + 1)).1
    refine ⟨d, (newSimpleStream j.gensymCt).1, fun key => ?_⟩
    rw [← hset j.ctx (setFdConn j.ctx ev.pid fi d) fi d rfl key]
    exact hset (setFdConn j.ctx ev.pid fi d) _ fo _ rfl key
  | dup oldfd newfd =>
    cases h
    exact ⟨_, hset j.ctx _ newfd _ rfl⟩
  | accept fd rdv =>
    cases h
    exact ⟨_, hset j.ctx _ fd _ rfl⟩
  | connect fd rdv =>
    obtain ⟨j₁, hj₁, hrenamed, -⟩ := joinRename_spec o j ev fd fun _ => ⟨.hostPort rdv⟩
    cases hj₁.symm.trans h
    exact hrenamed.fd
  | protocolInit fd =>
    obtain ⟨j₁, hj₁, hrenamed, -⟩ := joinRename_spec o j ev fd fun conn => ⟨conn.id⟩
    cases hj₁.symm.trans h
    intro key
    rw [hrenamed.fd]
    split
    · next hkey => exact hkey.symm
    · rfl
  | messageRecv prot fd msgid =>
    cases h
    obtain ⟨g, arid, msg, -, hctx, -⟩ := joinRecv_eq port j ev prot fd msgid
    intro key
    rw [hctx]
    rfl
  | read fd =>
    cases h
    intro key
    simp only [apply_ite Ctx.cFd]
    exact congrArg (Hashtbl.find? · key) (ite_self _)
  | poll timedOut fd => cases timedOut <;> cases h <;> exact fun _ => rfl
  | unknown => cases h
  | _ =>
    cases h
    exact fun _ => rfl

/-- A descriptor that has a connection always has one. -/
theorem streamJoin_bound {key : ℤ × ℤ} (hb : (j.ctx.cFd.find? key).isSome)
    (h : streamJoin o port j e = .ok j') : (j'.ctx.cFd.find? key).isSome := by
  have hafter := streamJoin_fds h
  obtain ⟨p, f⟩ := key
  obtain ⟨type, ev⟩ := e
  cases type with
  | fork ppid ptid =>
    rw [hafter]
    split
    · rw [Option.isSome_or, hb, Bool.or_true]
    · exact hb
  | pipe fi fo =>
    obtain ⟨d₁, d₂, hafter⟩ := hafter
    rw [hafter]
    split_ifs
    · rfl
    · rfl
    · exact hb
  | connect fd rdv =>
    rw [hafter]
    split
    · rfl
    · exact hb
  | «open» | socket | accept | dup =>
    obtain ⟨d₁, hafter⟩ := hafter
    rw [hafter]
    split
    · rfl
    · exact hb
  | _ => exact (hafter _).symm ▸ hb

/-- The event leaves the descriptor of the side `x` on `d`: it neither gives it another connection,
nor renames `d`. -/
def KeepsEnd (E : Ends) (x : Side) (d : Conn) (ctx : Ctx) (e : Stream) : Prop :=
  match e.sType with
  | .fork _ _ => e.sEv.pid ≠ E.pid x
  | .open fd | .socket fd | .accept fd _ | .dup _ fd => (E.pid x, E.fd x) ≠ (e.sEv.pid, fd)
  | .pipe fi fo =>
    (E.pid x, E.fd x) ≠ (e.sEv.pid, fi) ∧ (E.pid x, E.fd x) ≠ (e.sEv.pid, fo)
  | .connect fd rdv => ctx.cFd.find? (e.sEv.pid, fd) ≠ some d ∨ d = ⟨.hostPort rdv⟩
  | _ => True

theorem streamJoin_keepsEnd (hname : ∀ i, d ≠ ⟨.genSym i⟩)
    (hfd : j.ctx.cFd.find? (E.pid x, E.fd x) = some d) (hk : KeepsEnd E x d j.ctx e)
    (h : streamJoin o port j e = .ok j') : j'.ctx.cFd.find? (E.pid x, E.fd x) = some d := by
  have hafter := streamJoin_fds h
  obtain ⟨type, ev⟩ := e
  cases type with
  | fork ppid ptid => rw [hafter, if_neg (Ne.symm hk), hfd]
  | pipe fi fo =>
    obtain ⟨d₁, d₂, hafter⟩ := hafter
    rw [hafter, if_neg hk.2, if_neg hk.1, hfd]
  | connect fd rdv =>
    rw [hafter, hfd]
    split
    · next heq =>
      rcases hk with hne | hd
      · exact absurd (Option.some_inj.1 heq).symm (connOfFd_ne hname hne)
      · exact congrArg some hd.symm
    · rfl
  | «open» | socket | accept | dup =>
    obtain ⟨d₁, hafter⟩ := hafter
    rw [hafter, if_neg hk, hfd]
  | _ => exact (hafter _).trans hfd

theorem run_keepsEnd (hname : ∀ i, d ≠ ⟨.genSym i⟩) {es : List Stream}
    (hfd : j.ctx.cFd.find? (E.pid x, E.fd x) = some d)
    (hk : Along (joinStep o port) j es fun j e => KeepsEnd E x d j.ctx e)
    (hrun : runSteps (joinStep o port) j es = .ok j') :
    j'.ctx.cFd.find? (E.pid x, E.fd x) = some d := by
  have halways := hk.always (I := fun j => j.ctx.cFd.find? (E.pid x, E.fd x) = some d) hfd
    fun j₁ e j₂ hj₁ he hj₂ =>
      streamJoin_keepsEnd (j := { j₁ with ctx := clearFlags j₁.ctx }) hname hj₁ he hj₂
  exact halways es List.prefix_rfl j' hrun

theorem run_bound {key : ℤ × ℤ} {es : List Stream} (hb : (j.ctx.cFd.find? key).isSome)
    (hrun : runSteps (joinStep o port) j es = .ok j') : (j'.ctx.cFd.find? key).isSome := by
  have halways : Always (joinStep o port) j es fun j => (j.ctx.cFd.find? key).isSome :=
    always_of_step hb fun j₁ e j₂ hj₁ hj₂ =>
      streamJoin_bound (j := { j₁ with ctx := clearFlags j₁.ctx }) hj₁ hj₂
  exact halways es List.prefix_rfl j' hrun

/-! ## Both ends on the connection -/

section Introduced

variable (S num pid o port)

/-- The event `e` of the log call `q` and then the events `es` are joined from `j₀` on. -/
def Joins (q : SessionLog) (j₀ : Joiner) (e : Stream) (es : List Stream) (j : Joiner) : Prop :=
  ReadOf S num pid q e ∧ runSteps (joinStep o port) j₀ (e :: es) = .ok j

/-- On the way to the state `j` the event that names the connection of the side `x` was joined, for
the client after that of its socket, and since then all events have left the descriptor on it. -/
def Introduced (c : Trace.Connection) (k : Opening) (x : Side) (j : Joiner) : Prop :=
  ∃ j₀ e es,
    (x = .a → ∃ j₁ e₁ es₁, Joins S num pid o port (socketLog k) j₁ e₁ es₁ j₀) ∧
    Joins S num pid o port (openingLog c k x) j₀ e es j ∧
    ∀ j₁, joinStep o port j₀ e = .ok j₁ → Along (joinStep o port) j₁ es fun j e =>
      KeepsEnd (tracedEnds pid k.fd) x (connOf c) j.ctx e

end Introduced

theorem connOf_ne (c : Trace.Connection) (i : ℤ) : connOf c ≠ ⟨.genSym i⟩ := by
  simp [connOf]

/-- The event of the socket binds the descriptor. -/
theorem Joins.bound (hnum : Numbered S num) (hk : k.Valid h) {j₁ : Joiner} {es : List Stream}
    (hj : Joins S num pid o port (socketLog k) j₁ e es j) :
    (j.ctx.cFd.find? ((pid .a).toInt, k.fd .a)).isSome := by
  obtain ⟨hread, hrun⟩ := hj
  obtain ⟨hpid, htype⟩ := readOf_socket hnum hk hread
  obtain ⟨j₂, hj₂, hrun⟩ := bind_eq_ok hrun
  refine run_bound ?_ hrun
  obtain ⟨type, ev⟩ := e
  obtain rfl : type = .socket (k.fd .a) := htype
  obtain ⟨d, hafter⟩ := streamJoin_fds hj₂
  have hkey : ((pid .a).toInt, k.fd .a) = (ev.pid, k.fd .a) := congrArg (·, k.fd .a) hpid.symm
  rw [hafter, if_pos hkey]
  rfl

/-- **Both ends** have the connection once their events have been joined. -/
theorem Introduced.find (hnum : Numbered S num) (hk : k.Valid h)
    (hj : Introduced S num pid o port c k x j) :
    j.ctx.cFd.find? ((tracedEnds pid k.fd).pid x, k.fd x) = some (connOf c) := by
  obtain ⟨j₀, e, es, hsocket, ⟨hread, hrun⟩, hkept⟩ := hj
  obtain ⟨hpid, htype⟩ := readOf_opening hnum hk hread
  obtain ⟨j₁, hj₁, hrun⟩ := bind_eq_ok hrun
  refine run_keepsEnd (connOf_ne c) ?_ (hkept j₁ hj₁) hrun
  obtain ⟨type, ev⟩ := e
  obtain rfl : type = openingType c k x := htype
  cases x with
  | a =>
    obtain ⟨j₂, e₁, es₁, hbind⟩ := hsocket rfl
    obtain ⟨d, hd⟩ := Option.isSome_iff_exists.1 (hbind.bound hnum hk)
    have hfd : (clearFlags j₀.ctx).cFd.find? (ev.pid, k.fd .a) = some d := by
      rw [show ev.pid = (pid .a).toInt from hpid]
      exact hd
    have hconn := connOfFd_of hfd j₀.gensymCt
    have hafter := streamJoin_fds hj₁
    change j₁.ctx.cFd.find? ((pid .a).toInt, k.fd .a) = _
    rw [hafter, ← show ev.pid = (pid .a).toInt from hpid, hfd]
    exact if_pos (congrArg some (congrArg Prod.fst hconn).symm)
  | b =>
    cases (accept_step o port j₀ ev (k.fd .b) _).symm.trans hj₁
    change (setFdConn _ ev.pid _ _).cFd.find? ((pid .b).toInt, k.fd .b) = _
    have hkey : ((pid .b).toInt, k.fd .b) = (ev.pid, k.fd .b) := congrArg (·, k.fd .b) hpid.symm
    rw [find?_setFdConn, if_pos hkey]
    rfl

/-- The events of the opening can be joined, one after the other. -/
theorem exists_introduced (hnum : Numbered S num) (hk : k.Valid h)
    (hE : (tracedEnds pid k.fd).Distinct) {e₁ e₂ e₃ : Stream}
    (he₁ : ReadOf S num pid (socketLog k) e₁) (he₂ : ReadOf S num pid (openingLog c k .a) e₂)
    (he₃ : ReadOf S num pid (openingLog c k .b) e₃) (o : Orders) (port : ℤ) (j₀ : Joiner) :
    ∃ j, ∀ x, Introduced S num pid o port c k x j := by
  obtain ⟨-, htype₁⟩ := readOf_socket hnum hk he₁
  obtain ⟨-, htype₂⟩ := readOf_opening hnum hk he₂
  obtain ⟨hpid₃, htype₃⟩ := readOf_opening hnum hk he₃
  have hstep₁ : ∃ j₁, joinStep o port j₀ e₁ = .ok j₁ := by
    obtain ⟨type, ev⟩ := e₁
    obtain rfl : type = .socket (k.fd .a) := htype₁
    exact ⟨_, rfl⟩
  obtain ⟨j₁, hj₁⟩ := hstep₁
  have hstep₂ : ∃ j₂, joinStep o port j₁ e₂ = .ok j₂ := by
    obtain ⟨type, ev⟩ := e₂
    obtain rfl : type = openingType c k .a := htype₂
    obtain ⟨j₂, hj₂, -⟩ := joinRename_spec o { j₁ with ctx := clearFlags j₁.ctx } ev (k.fd .a)
      fun _ => connOf c
    exact ⟨j₂, hj₂⟩
  obtain ⟨j₂, hj₂⟩ := hstep₂
  have hstep₃ : ∃ j₃, joinStep o port j₂ e₃ = .ok j₃ := by
    obtain ⟨type, ev⟩ := e₃
    obtain rfl : type = openingType c k .b := htype₃
    exact ⟨_, rfl⟩
  obtain ⟨j₃, hj₃⟩ := hstep₃
  have hrun₃ : runSteps (joinStep o port) j₂ [e₃] = .ok j₃ := by
    rw [runSteps, hj₃]
    rfl
  refine ⟨j₃, fun x => ?_⟩
  cases x with
  | a =>
    refine ⟨j₁, e₂, [e₃], fun _ => ⟨j₀, e₁, [], he₁, ?_⟩, ⟨he₂, ?_⟩, fun j hj => ?_⟩
    · rw [runSteps, hj₁]
      rfl
    · rw [runSteps, hj₂, ok_bind, hrun₃]
    · refine along_cons.2 fun j' _ => ⟨?_, along_nil⟩
      rw [KeepsEnd, htype₃, hpid₃]
      exact fun heq => hE (Prod.mk.inj heq)
  | b =>
    refine ⟨j₂, e₃, [], fun hx => ?_, ⟨he₃, hrun₃⟩, fun _ _ => along_nil⟩
    cases hx

/-! ## Sessions -/

/-- The processors of the dialogue are identified at the two ends of the connection. -/
structure Identified (pps : Side → Trace.Pp) (h : Side → Trace.Host) (c : Trace.Connection) :
    Prop where
  readable : c.Readable
  connected : c.Connected (h .a) (some (pps .a))
  accepted : c.Accepted (h .b) (some (pps .b))

/-- A connection at whose ends the processors of the dialogue are identified is opened, and from
then on calls are made in order. All calls go through. If what was said is in `P`, then whenever the
aggregator has joined the events that name the connection at both ends and joins those of the
session, among any others that leave the connection to its ends, each message that a side receives
is one that the other side sent, the next after those received before, and gives the receiver the
request that its sender was working on. -/
def EstablishedAttributed (D : Dialogue σ τ) (pps : Side → Trace.Pp) (P : List Said → Prop) :
    Prop :=
  ∀ (h : Side → Trace.Host) (c : Trace.Connection) (k : Opening) (p : Side → Trace.Process σ),
    Identified pps h c → k.Valid h → ∃ s logs, openEnds D pps h c k p = .ok (s, logs) ∧
      (socketLog k ∈ logs ∧ ∀ x, openingLog c k x ∈ logs) ∧
      ∀ as, Tried (sessionStep k.fd) s as (Orderly k.fd) →
        ∃ s', runSteps (sessionStep k.fd) s as = .ok s' ∧
          ∀ (S : Syscalls) (num : Trace.Sc → Int32) (pid : Side → Int32) (o : Orders) (port : ℤ)
            (j : Joiner) (es : List (Option SessionLog × Stream)),
            Numbered S num → (tracedEnds pid k.fd).Distinct →
            distinguishedConn port (connOf c) = false → P s'.said →
            (∀ x, Introduced S num pid o port c k x j) →
            Gathered S num pid s'.log es →
            (∀ e, (none, e) ∈ es → said (tracedEnds pid k.fd) e = none) →
            (Along (fun j p => joinStep o port j p.2) j es fun j p => p.1 = none →
              Apart (tracedEnds pid k.fd) (connOf c) j.ctx p.2) →
              AllAttributed (tracedEnds pid k.fd)
                (madeSteps (joinStep o port) j (es.map Prod.snd))

theorem establishedAttributed_of {P : List Said → Prop}
    (hP : ∀ fd (s : Session σ), Speaking D fd s → P s.said → FreshNumbers s.said) :
    EstablishedAttributed D pps P := by
  intro h c k p hid hk
  obtain ⟨s, logs, hopen, hopened, hlogs⟩ :=
    openEnds_spec (D := D) (p := p) hk hid.readable hid.connected hid.accepted
  refine ⟨s, logs, hopen, hlogs, fun as has => ?_⟩
  obtain ⟨s', hrun, hspeaking⟩ := session_speaks hk.fd hopened has
  refine ⟨s', hrun, ?_⟩
  intro S num pid o port j es hnum hE hplain hp hintro hes hsilent hapart
  exact hspeaking.attributed hnum hk.fd hE (hP k.fd s' hspeaking hp) hes
    ⟨connOf_ne c, hplain, fun x => (hintro x).find hnum hk, hsilent, hapart⟩

/-- The processors of PostgreSQL. -/
def psqlPps : Side → Trace.Pp
  | .a => .psqlc
  | .b => .psqls

/-- The processors of MySQL. -/
def mysqlPps : Side → Trace.Pp
  | .a => .mysqlc
  | .b => .mysqls

/-- `/etc/services` has `mysql`. -/
def mysqlHost : Trace.Host where
  fs path := if path = Trace.pathServices then some (ascii "mysql 3306/tcp\n") else none
  services := none
  disablePp := false

/-- A connection to a MySQL server. -/
def toMysql : Trace.Connection := .inet (Trace.inetEnd 3000) (Trace.inetEnd 3306)

theorem identified_toMysql : Identified mysqlPps (fun _ => mysqlHost) toMysql where
  readable := trivial
  connected := by
    have hclients : mysqlHost.clients (3306 : ℕ) = some (mysqlPps .a) := by decide +kernel
    rw [← hclients]
    exact Trace.Connection.connected_inet rfl (Or.inl rfl) (by decide) rfl
  accepted := by
    have hservers : mysqlHost.servers (3306 : ℕ) = some (mysqlPps .b) := by decide +kernel
    rw [← hservers]
    exact Trace.Connection.accepted_inet rfl (Or.inl rfl) (by decide) rfl

/-- The client gets the descriptor 5, and the server accepts on 3 and gets 6. -/
def pingOpening : Opening where
  tid x := if x = .a then 1 else 2
  fd := connectedEnds.fd
  listening := 3
  domain := 2
  type := 1
  protocol := 0
  raddr _ := fun _ => 0
  laddr _ := fun _ => 0
  services _ := .start

theorem pingOpening_valid : pingOpening.Valid fun _ => mysqlHost where
  fd := connectedEnds_fd
  listening := by decide
  services _ := Trace.closed_start none

/-- Processes without connections. -/
def mysqlProcess (_ : Side) : Trace.Process Trace.PpMysqlState :=
  ⟨fun _ => Trace.Vfd.zero ⟨⟨0, 0⟩, ⟨0, 0⟩⟩, Trace.FdSets.zero⟩

end BorderPatrol.Agg
