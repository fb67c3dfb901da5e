import BorderPatrol.Agg.Renaming
import BorderPatrol.Agg.Frame

/-!
# Where a connect and an accept meet

The two sides of a connection are logged by two processes, and which of `Connect` and `Accept` comes
first is not known. Either way both descriptors get the name of the rendezvous, and the entries of
the connection that was generated for the socket are moved to it (`rendezvous_either_order`). That
the accepting side then finds the request the connecting side was working on needs that the socket
has at most one binding for each message, which holds in every run (`singleBound_run`): generated
connections are never the new name of another.
-/

namespace BorderPatrol.Agg

open Foundations

variable {o : Orders} {port : ℤ} {ctx ctx' : Ctx} {j j' : Joiner}

/-! ## Generated connections -/

/-- A generated connection has at most one binding for each message. -/
def SingleBound (ctx : Ctx) : Prop := ∀ g m, (ctx.cConn.stack (⟨.genSym g⟩, m)).length ≤ 1

/-- Writing entries adds no second binding. -/
theorem length_stack_foldl_replace {κ α : Type} [DecidableEq κ] {n : ℕ} (hn : 1 ≤ n) {k : κ}
    (ws : List (κ × α)) (t : Hashtbl κ α) (h : (t.stack k).length ≤ n) :
    ((ws.foldl (fun t w => t.replace w.1 w.2) t).stack k).length ≤ n := by
  induction ws generalizing t with
  | nil => exact h
  | cons w ws ih =>
    apply ih
    rw [Hashtbl.stack_replace]
    split
    · rw [List.length_cons, List.length_tail]
      omega
    · exact h

/-- A connection that is renamed to one with a name, or to itself. -/
theorem Renamed.singleBound {conn conn' : Conn} (h : Renamed ctx conn conn' ctx')
    (hconn : conn = conn' ∨ ∃ rdv, conn' = ⟨.hostPort rdv⟩) (hs : SingleBound ctx) :
    SingleBound ctx' := by
  intro g m
  rw [h.entry]
  split_ifs with heq hc hc'
  · exact hs g m
  · exact Nat.zero_le 1
  · obtain heq' | ⟨rdv, rfl⟩ := hconn
    · exact absurd heq' heq
    · cases hc'
  · exact hs g m

theorem singleBound_rename {ev : Event} {fd : ℤ} {name : Conn → Conn}
    (hname : ∀ conn, conn = name conn ∨ ∃ rdv, name conn = ⟨.hostPort rdv⟩)
    (h : joinRename o j ev fd name = .ok j') (hs : SingleBound j.ctx) : SingleBound j'.ctx := by
  obtain ⟨j'', hj'', hrenamed, -⟩ := joinRename_spec o j ev fd name
  rw [h] at hj''
  cases hj''
  exact hrenamed.singleBound (hname _) hs

/-- No event gives a generated connection a second binding for a message. -/
theorem streamJoin_singleBound {e : Stream} (hs : SingleBound j.ctx)
    (h : streamJoin o port j e = .ok j') : SingleBound j'.ctx := by
  cases hr : e.sType.isRename with
  | false =>
    obtain ⟨ws, hws, -⟩ := streamJoin_stores hr h
    intro g m
    rw [hws]
    exact length_stack_foldl_replace le_rfl ws _ (hs g m)
  | true =>
    obtain ⟨type, ev⟩ := e
    cases type with
    | connect fd rdv => exact singleBound_rename (fun _ => .inr ⟨rdv, rfl⟩) h hs
    | protocolInit fd => exact singleBound_rename (fun _ => .inl rfl) h hs
    | _ => cases hr

theorem joinStep_singleBound {e : Stream} (hs : SingleBound j.ctx)
    (h : joinStep o port j e = .ok j') : SingleBound j'.ctx := by
  have hs' : SingleBound (clearFlags j.ctx) := hs
  exact streamJoin_singleBound (j := { j with ctx := clearFlags j.ctx }) hs' h

/-- **Generated connections** have single bindings in every state of a run. -/
theorem singleBound_run (o : Orders) (port : ℤ) (es : List Stream) :
    Always (joinStep o port) .start es fun j => SingleBound j.ctx :=
  always_of_step (fun _ _ => Nat.zero_le 1) fun _ _ _ => joinStep_singleBound

/-! ## Connect and Accept -/

/-- `Accept` gives a descriptor the connection of its rendezvous. -/
theorem accept_step (o : Orders) (port : ℤ) (j : Joiner) (ev : Event) (n : ℤ) (rdv : List Byte) :
    joinStep o port j ⟨.accept n rdv, ev⟩ =
      .ok { j with ctx := setFdConn (clearFlags j.ctx) ev.pid n ⟨.hostPort rdv⟩ } := rfl

/-- `Connect` renames the connection of its descriptor. -/
theorem connect_step (o : Orders) (port : ℤ) {conn : Conn} (ev : Event) {f : ℤ} (rdv : List Byte)
    (h : j.ctx.cFd.find? (ev.pid, f) = some conn) :
    ∃ j', joinStep o port j ⟨.connect f rdv, ev⟩ = .ok j' ∧
      Renamed (clearFlags j.ctx) conn ⟨.hostPort rdv⟩ j'.ctx := by
  obtain ⟨j', hj', hrenamed, -⟩ := joinRename_spec o { j with ctx := clearFlags j.ctx } ev f
    fun _ => ⟨.hostPort rdv⟩
  have hconn : connOfFd (clearFlags j.ctx) j.gensymCt ev.pid f = (conn, j.gensymCt) :=
    connOfFd_of h _
  rw [hconn] at hrenamed
  exact ⟨j', hj', hrenamed⟩

/-- Descriptor `n` of `pid` has the connection `rdv`, and what `conn` was is now `rdv`. -/
structure Joined (ctx : Ctx) (conn : Conn) (pid n : ℤ) (rdv : List Byte) (ctx' : Ctx) : Prop where
  fd : ∀ k, ctx'.cFd.find? k = if k = (pid, n) then some ⟨.hostPort rdv⟩
    else if ctx.cFd.find? k = some conn then some ⟨.hostPort rdv⟩ else ctx.cFd.find? k
  entry : ∀ c m, ctx'.cConn.stack (c, m) =
    if c = conn then []
    else if c = ⟨.hostPort rdv⟩ then (ctx.cConn.stack (conn, m)).reverse ++ ctx.cConn.stack (c, m)
    else ctx.cConn.stack (c, m)

theorem find?_setFdConn (ctx : Ctx) (pid n : ℤ) (conn : Conn) (k : ℤ × ℤ) :
    (setFdConn ctx pid n conn).cFd.find? k =
      if k = (pid, n) then some conn else ctx.cFd.find? k := by
  rw [setFdConn, Hashtbl.find?_replace]
  simp only [eq_comm]

section Meeting

variable (o port) {A : Event} {f g : ℤ} (hg : j.ctx.cFd.find? (A.pid, f) = some ⟨.genSym g⟩)
  (B : Event) (n : ℤ) (rdv : List Byte)

include hg

theorem connect_accept : ∃ j', runSteps (joinStep o port) j
      [⟨.connect f rdv, A⟩, ⟨.accept n rdv, B⟩] = .ok j' ∧
    Joined j.ctx ⟨.genSym g⟩ B.pid n rdv j'.ctx := by
  obtain ⟨j₁, hj₁, h⟩ := connect_step o port A rdv hg
  refine ⟨_, by rw [runSteps, hj₁, ok_bind, runSteps, accept_step, ok_bind, runSteps], ?_, ?_⟩
  · intro k
    rw [find?_setFdConn]
    split
    · rfl
    · exact h.fd k
  · intro c m
    have hentry := h.entry c m
    rw [if_neg (by simp)] at hentry
    exact hentry

theorem accept_connect (hAB : A.pid ≠ B.pid) : ∃ j', runSteps (joinStep o port) j
      [⟨.accept n rdv, B⟩, ⟨.connect f rdv, A⟩] = .ok j' ∧
    Joined j.ctx ⟨.genSym g⟩ B.pid n rdv j'.ctx := by
  set j₁ : Joiner := { j with ctx := setFdConn (clearFlags j.ctx) B.pid n ⟨.hostPort rdv⟩ } with hj₁
  have hk : (A.pid, f) ≠ (B.pid, n) := fun h => hAB (congrArg Prod.fst h)
  have hg₁ : j₁.ctx.cFd.find? (A.pid, f) = some ⟨.genSym g⟩ := by
    rw [hj₁, find?_setFdConn, if_neg hk]
    exact hg
  obtain ⟨j₂, hj₂, h⟩ := connect_step o port A rdv hg₁
  refine ⟨j₂, by rw [runSteps, accept_step, ok_bind, runSteps, hj₂, ok_bind, runSteps], ?_, ?_⟩
  · intro k
    have hfd := h.fd k
    have hset := find?_setFdConn (clearFlags j.ctx) B.pid n ⟨.hostPort rdv⟩ k
    change (clearFlags j₁.ctx).cFd.find? k = _ at hset
    rw [hfd, hset]
    by_cases hk : k = (B.pid, n)
    · rw [if_pos hk, if_pos hk, if_neg (by simp)]
    · rw [if_neg hk, if_neg hk]
      rfl
  · intro c m
    have hentry := h.entry c m
    rw [if_neg (by simp)] at hentry
    exact hentry

end Meeting

/-- In `j'` both descriptors have the connection `rdv`, and a thread of `B` that reads is designated
the request of the connection that `f` had in `j`. -/
structure Met (o : Orders) (port : ℤ) (j j' : Joiner) (A f g B n : ℤ) (rdv : List Byte) : Prop where
  connecting : j'.ctx.cFd.find? (A, f) = some ⟨.hostPort rdv⟩
  accepting : j'.ctx.cFd.find? (B, n) = some ⟨.hostPort rdv⟩
  read : ∀ r, j.ctx.cConn.find? (⟨.genSym g⟩, fakeMsgId) = some r → r ≠ -1 → ∀ ev : Event,
    ev.pid = B → ∃ j'', joinStep o port j' ⟨.read n, ev⟩ = .ok j'' ∧
      dgnGet j''.ctx ⟨ev.tid, B⟩ = r

/-- A list of at most one element is its head, whatever it is put in front of. -/
theorem head?_reverse_append {α : Type} {l : List α} (hl : l.length ≤ 1) {a : α}
    (h : l.head? = some a) (l' : List α) : (l.reverse ++ l').head? = some a := by
  cases l with
  | nil => cases h
  | cons b l =>
    obtain rfl : l = [] := List.length_eq_zero_iff.1 (by simpa using hl)
    exact h

theorem Joined.met {A B f n g : ℤ} {rdv : List Byte}
    (h : Joined j.ctx ⟨.genSym g⟩ B n rdv j'.ctx) (hs : SingleBound j.ctx)
    (hg : j.ctx.cFd.find? (A, f) = some ⟨.genSym g⟩) : Met o port j j' A f g B n rdv where
  connecting := by rw [h.fd, if_pos hg, ite_self]
  accepting := by rw [h.fd, if_pos rfl]
  read := by
    rintro r hr hne ev rfl
    have hfd : j'.ctx.cFd.find? (ev.pid, n) = some ⟨.hostPort rdv⟩ := by rw [h.fd, if_pos rfl]
    have hmsg : j'.ctx.cConn.find? (⟨.hostPort rdv⟩, fakeMsgId) = some r := by
      rw [Hashtbl.find?_eq] at hr
      rw [Hashtbl.find?_eq, h.entry, if_neg (by simp), if_pos rfl]
      exact head?_reverse_append (hs g fakeMsgId) hr _
    have hon : OnConn port j'.ctx ⟨.hostPort rdv⟩ ⟨.read n, ev⟩ := .read hfd
    obtain ⟨j'', hj'', hview⟩ := OnConn.joinStep (o := o) hon
    refine ⟨j'', hj'', ?_⟩
    change j''.ctx.view.dgn _ = r
    rw [hview]
    simp [View.write, View.effect, effect, Ctx.view, hmsg, hne, Stream.mid]

/-- **Connect and Accept rendezvous in either order.** In every run, when descriptor `f` of a
process has a generated connection, its `Connect` and the `Accept` of another process with the name
`rdv` may come in either order. -/
theorem rendezvous_either_order {es : List Stream}
    (hrun : runSteps (joinStep o port) .start es = .ok j) {A B : Event} {f g : ℤ}
    (hg : j.ctx.cFd.find? (A.pid, f) = some ⟨.genSym g⟩) (hAB : A.pid ≠ B.pid) (n : ℤ)
    (rdv : List Byte) : ∃ j₁ j₂,
      runSteps (joinStep o port) j [⟨.connect f rdv, A⟩, ⟨.accept n rdv, B⟩] = .ok j₁ ∧
      runSteps (joinStep o port) j [⟨.accept n rdv, B⟩, ⟨.connect f rdv, A⟩] = .ok j₂ ∧
      (∀ pid fd, j₁.ctx.cFd.find? (pid, fd) = j₂.ctx.cFd.find? (pid, fd)) ∧
      (∀ c m, j₁.ctx.cConn.find? (c, m) = j₂.ctx.cConn.find? (c, m)) ∧
      Met o port j j₁ A.pid f g B.pid n rdv ∧ Met o port j j₂ A.pid f g B.pid n rdv := by
  have hs : SingleBound j.ctx := singleBound_run o port es es List.prefix_rfl j hrun
  obtain ⟨j₁, hj₁, h₁⟩ := connect_accept o port hg B n rdv
  obtain ⟨j₂, hj₂, h₂⟩ := accept_connect o port hg B n rdv hAB
  refine ⟨j₁, j₂, hj₁, hj₂, fun pid fd => ?_, fun c m => ?_, h₁.met hs hg, h₂.met hs hg⟩
  · rw [h₁.fd, h₂.fd]
  · rw [Hashtbl.find?_eq, Hashtbl.find?_eq, h₁.entry, h₂.entry]

/-- A server that works on a request makes a socket. -/
def requestAndSocket : List Stream :=
  [eventOf 10 1 (.accept 4 (ascii "10.0.0.9:1000->10.0.0.1:80")),
    eventOf 10 1 (.messageRecv (ascii "PP_HTTPS") 4 0), eventOf 10 1 (.socket 5)]

/-- It connects the socket to another server, which reads. -/
theorem rendezvous_either_order_servers : ∃ j j₁ j₂,
    runSteps (joinStep .listed 80) .start requestAndSocket = .ok j ∧
    runSteps (joinStep .listed 80) j [eventOf 10 1 (.connect 5 (ascii "/tmp/a")),
      eventOf 20 1 (.accept 3 (ascii "/tmp/a"))] = .ok j₁ ∧
    runSteps (joinStep .listed 80) j [eventOf 20 1 (.accept 3 (ascii "/tmp/a")),
      eventOf 10 1 (.connect 5 (ascii "/tmp/a"))] = .ok j₂ ∧
    (∀ pid fd, j₁.ctx.cFd.find? (pid, fd) = j₂.ctx.cFd.find? (pid, fd)) ∧
    (∀ c m, j₁.ctx.cConn.find? (c, m) = j₂.ctx.cConn.find? (c, m)) ∧
    Met .listed 80 j j₁ 10 5 1 20 3 (ascii "/tmp/a") ∧
    Met .listed 80 j j₂ 10 5 1 20 3 (ascii "/tmp/a") := by
  have h : runSteps (joinStep .listed 80) .start requestAndSocket = .ok _ := rfl
  obtain ⟨j₁, j₂, hmet⟩ := rendezvous_either_order h (A := ⟨0, 10, 1, 0, ascii "p"⟩)
    (B := ⟨0, 20, 1, 0, ascii "p"⟩) (f := 5) (g := 1) rfl (by decide) 3 (ascii "/tmp/a")
  exact ⟨_, j₁, j₂, h, hmet⟩

end BorderPatrol.Agg
