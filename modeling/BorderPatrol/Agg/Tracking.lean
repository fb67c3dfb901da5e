import BorderPatrol.Agg.Freshness
import BorderPatrol.Foundations.Labelling

/-!
# The descriptors of the kernel

What the join keeps in `cFd` stands for the descriptor tables of the kernel, of which it sees the
traced calls. Here are the tables themselves: a descriptor refers to an open file, `dup` and `fork`
make another descriptor refer to the same, and a socket that is accepted or connected has an
address. Two descriptors are on one `Chan` when they refer to the same open file or to sockets of
the same address, which are the two ends of a connection. Calls take effect in the order of their
events. Descriptors are also closed without an event, by `exec` or when a process ends, and those
that were open before the first event are not known.

A run of the kernel and the join goes through the same events. In all its states the open
descriptors that are on one `Chan`, and only these, have the same connection in `cFd`, and those
with an address have it as its name, exactly when every `Connect` finds the connection of its
descriptor, unless that has the name already, only at open descriptors of the same socket
(`join_tracks_iff`).
`replace_all_conn` renames it for the other end of the connection too, and for what a descriptor
that is closed was duplicated to.
-/

namespace BorderPatrol.Agg

open Foundations

/-! ## The kernel -/

/-- What a descriptor refers to. -/
inductive Chan
  | file (d : ℕ)
  | named (rdv : List Byte)
  deriving DecidableEq, Repr

/-- The open files, numbered in the order they are opened: which one each descriptor of a process
refers to, and which address each has. -/
structure Kernel where
  opened : ℕ
  table : ℤ × ℤ → Option ℕ
  address : ℕ → Option (List Byte)

namespace Kernel

/-- No file is open. -/
def start : Kernel := ⟨0, fun _ => none, fun _ => none⟩

/-- A file is opened. -/
def openAs (K : Kernel) (k : ℤ × ℤ) (rdv : Option (List Byte)) : Kernel where
  opened := K.opened + 1
  table := Function.update K.table k (some K.opened)
  address := Function.update K.address K.opened rdv

/-- Descriptors are closed. -/
def close (K : Kernel) (P : ℤ × ℤ → Bool) : Kernel :=
  { K with table := fun k => if P k then none else K.table k }

/-- A socket is given an address. -/
def connect (K : Kernel) (d : ℕ) (rdv : List Byte) : Kernel :=
  { K with address := Function.update K.address d (some rdv) }

/-- What the call of an event does. A connected socket has an address, and a child the descriptors
of its parent. -/
def step (K : Kernel) (e : Stream) : Kernel :=
  let pid := e.sEv.pid
  match e.sType with
  | .open fd | .socket fd => K.openAs (pid, fd) none
  | .pipe fi fo => (K.openAs (pid, fi) none).openAs (pid, fo) none
  | .accept fd rdv => K.openAs (pid, fd) (some rdv)
  | .dup oldfd newfd =>
    { K with table := Function.update K.table (pid, newfd) (K.table (pid, oldfd)) }
  | .fork ppid _ =>
    { K with table := fun k => K.table (if k.1 = pid then (ppid, k.2) else k) }
  | .connect fd rdv =>
    match K.table (pid, fd) with
    | some d => K.connect d rdv
    | none => K
  | .close fd => K.close fun k => k = (pid, fd)
  | _ => K

/-- The open file, or the connection if the file has an address. -/
def chanOf (K : Kernel) (d : ℕ) : Chan :=
  match K.address d with
  | some rdv => .named rdv
  | none => .file d

/-- What a descriptor refers to, if it is open. -/
def chan (K : Kernel) (k : ℤ × ℤ) : Option Chan := (K.table k).map K.chanOf

/-- Descriptors refer to files that were opened. -/
def Valid (K : Kernel) : Prop := ∀ k d, K.table k = some d → d < K.opened

variable {K : Kernel} {k : ℤ × ℤ} {d : ℕ} {rdv : List Byte}

theorem chanOf_eq_file {d' : ℕ} : K.chanOf d = .file d' ↔ K.address d = none ∧ d = d' := by
  unfold chanOf
  cases K.address d <;> simp

/-! ### Steps -/

theorem Valid.openAs (h : K.Valid) (k : ℤ × ℤ) (rdv : Option (List Byte)) :
    (K.openAs k rdv).Valid := by
  intro k' d hd
  change Function.update K.table k (some K.opened) k' = some d at hd
  change d < K.opened + 1
  by_cases hk : k' = k
  · rw [hk, Function.update_self, Option.some_inj] at hd
    omega
  · rw [Function.update_of_ne hk] at hd
    have hlt := h k' d hd
    omega

/-- Descriptors that refer to what others referred to. -/
theorem Valid.pull (h : K.Valid) {table : ℤ × ℤ → Option ℕ}
    (hfrom : ∀ k, table k = none ∨ ∃ k', table k = K.table k') :
    Valid { K with table := table } := by
  intro k d hd
  rcases hfrom k with hk | ⟨k', hk⟩
  · cases hk.symm.trans hd
  · exact h k' d (hk.symm.trans hd)

theorem Valid.close (h : K.Valid) (P : ℤ × ℤ → Bool) : (K.close P).Valid := by
  refine h.pull fun k => ?_
  by_cases hk : P k
  · exact .inl (if_pos hk)
  · exact .inr ⟨k, if_neg hk⟩

theorem Valid.step (h : K.Valid) (e : Stream) : (K.step e).Valid := by
  obtain ⟨type, ev⟩ := e
  cases type with
  | «open» fd => exact h.openAs _ _
  | socket fd => exact h.openAs _ _
  | pipe fi fo => exact (h.openAs _ _).openAs _ _
  | accept fd rdv => exact h.openAs _ _
  | dup oldfd newfd =>
    refine h.pull fun k => .inr ?_
    by_cases hk : k = (ev.pid, newfd)
    · exact ⟨(ev.pid, oldfd), by rw [hk, Function.update_self]⟩
    · exact ⟨k, by rw [Function.update_of_ne hk]⟩
  | fork ppid ptid => exact h.pull fun k => .inr ⟨_, rfl⟩
  | connect fd rdv =>
    simp only [Kernel.step]
    split
    · exact h
    · exact h
  | close fd => exact h.close _
  | _ => exact h

theorem chan_apply (K : Kernel) (k : ℤ × ℤ) : K.chan k = (K.table k).map K.chanOf := rfl

/-- A file that is opened is one that no descriptor refers to yet. -/
theorem Valid.chan_openAs (h : K.Valid) (k : ℤ × ℤ) (rdv : Option (List Byte)) :
    (K.openAs k rdv).chan = Function.update K.chan k
      (some (match rdv with
        | some rdv => .named rdv
        | none => .file K.opened)) := by
  have hself : (K.openAs k rdv).address K.opened = rdv := Function.update_self ..
  funext k'
  by_cases hk : k' = k
  · have htable : (K.openAs k rdv).table k = some K.opened := Function.update_self ..
    rw [hk, Function.update_self, chan_apply, htable, Option.map_some, chanOf, hself]
  · have htable : (K.openAs k rdv).table k' = K.table k' := Function.update_of_ne hk ..
    rw [Function.update_of_ne hk, chan_apply, chan_apply, htable]
    rcases hd : K.table k' with _ | d
    · rfl
    · have haddr : (K.openAs k rdv).address d = K.address d :=
        Function.update_of_ne (Nat.ne_of_lt (h k' d hd)) ..
      rw [Option.map_some, Option.map_some, chanOf, chanOf, haddr]

theorem chan_close (P : ℤ × ℤ → Bool) (k : ℤ × ℤ) :
    (K.close P).chan k = if P k then none else K.chan k := by
  simp only [chan, close]
  split <;> rfl

theorem chan_connect (K : Kernel) (d : ℕ) (rdv : List Byte) (k : ℤ × ℤ) :
    (K.connect d rdv).chan k = if K.table k = some d then some (.named rdv) else K.chan k := by
  have htable : (K.connect d rdv).table k = K.table k := rfl
  have haddr : (K.connect d rdv).address = Function.update K.address d (some rdv) := rfl
  rw [chan_apply, chan_apply, htable]
  rcases K.table k with _ | d'
  · simp
  · by_cases hd : d' = d
    · simp [hd, chanOf, haddr]
    · simp [hd, chanOf, haddr]

end Kernel

/-! ## The kernel and the join -/

/-- The kernel and the join after the same events. -/
structure World where
  kernel : Kernel
  joiner : Joiner

/-- The beginning. -/
def World.start : World := ⟨.start, .start⟩

/-- What happens: a traced call, or the kernel closes descriptors without one. -/
inductive Happening
  | event (e : Stream)
  | closed (P : ℤ × ℤ → Bool)

/-- A step of both. -/
def World.step (o : Orders) (port : ℤ) (w : World) : Happening → Except JoinError World
  | .event e => joinStep o port w.joiner e >>= fun j => .ok ⟨w.kernel.step e, j⟩
  | .closed P => .ok ⟨w.kernel.close P, w.joiner⟩

/-- The connections of the open descriptors are as the kernel has them: those on one `Chan` have one
connection, with the address for its name if it has one. -/
def Tracks (K : Kernel) (ctx : Ctx) : Prop :=
  Agrees Chan.named (fun rdv => (⟨.hostPort rdv⟩ : Conn)) K.chan ctx.cFd.find?

/-- A `Connect` finds the connection of its descriptor, unless that has the name already, only at
open descriptors that refer to the same socket. -/
def Unshared (K : Kernel) (ctx : Ctx) (e : Stream) : Prop :=
  match e.sType with
  | .connect fd rdv => ∀ k, (K.table k).isSome →
      ctx.cFd.find? k = ctx.cFd.find? (e.sEv.pid, fd) →
        ctx.cFd.find? k ≠ some ⟨.hostPort rdv⟩ → K.table k = K.table (e.sEv.pid, fd)
  | _ => True

variable {o : Orders} {port : ℤ} {K : Kernel} {ctx ctx' : Ctx} {j j' : Joiner}

/-- The open descriptors are those that were open, with the connections they had. -/
theorem Tracks.pull (h : Tracks K ctx) {K' : Kernel} (hfrom : ∀ k, (K'.chan k).isSome →
    ∃ k', K'.chan k = K.chan k' ∧ ctx'.cFd.find? k = ctx.cFd.find? k') : Tracks K' ctx' :=
  Agrees.pull h hfrom

theorem Tracks.of_eq (h : Tracks K ctx) (hfd : ∀ k, ctx'.cFd.find? k = ctx.cFd.find? k) :
    Tracks K ctx' :=
  h.pull fun k _ => ⟨k, rfl, hfd k⟩

theorem Tracks.close (h : Tracks K ctx) (P : ℤ × ℤ → Bool) : Tracks (K.close P) ctx := by
  refine h.pull fun k hk => ⟨k, ?_, rfl⟩
  rw [Kernel.chan_close] at hk ⊢
  by_cases hP : P k
  · rw [if_pos hP] at hk
    cases hk
  · exact if_neg hP

theorem find?_replace_eq_update {κ α : Type} [DecidableEq κ] (t : Hashtbl κ α) (k : κ) (a : α) :
    (t.replace k a).find? = Function.update t.find? k (some a) := by
  funext k'
  by_cases hk : k' = k
  · rw [hk, Hashtbl.find?_replace_self, Function.update_self]
  · rw [Hashtbl.find?_replace_of_ne (Ne.symm hk), Function.update_of_ne hk]

/-- A file is opened and its descriptor given a connection that no descriptor has. -/
theorem Tracks.openNew (h : Tracks K ctx) (hv : K.Valid) {i : ℤ}
    (hnew : ∀ k, ctx.cFd.find? k ≠ some ⟨.genSym i⟩) (pid fd : ℤ) :
    Tracks (K.openAs (pid, fd) none) (setFdConn ctx pid fd ⟨.genSym i⟩) := by
  have hfd : (setFdConn ctx pid fd ⟨.genSym i⟩).cFd.find? =
      Function.update ctx.cFd.find? (pid, fd) (some ⟨.genSym i⟩) := find?_replace_eq_update ..
  rw [Tracks, hv.chan_openAs, hfd]
  refine Agrees.bind h (fun rdv => by simp) fun k _ => iff_of_false (hnew k) ?_
  intro hk
  obtain ⟨d, hd, hchan⟩ := Option.map_eq_some_iff.1 hk
  obtain ⟨-, rfl⟩ := Kernel.chanOf_eq_file.1 hchan
  exact absurd (hv k _ hd) (Nat.lt_irrefl _)

theorem Tracks.accept (h : Tracks K ctx) (hv : K.Valid) (pid fd : ℤ) (rdv : List Byte) :
    Tracks (K.openAs (pid, fd) (some rdv)) (setFdConn ctx pid fd ⟨.hostPort rdv⟩) := by
  have hfd : (setFdConn ctx pid fd ⟨.hostPort rdv⟩).cFd.find? =
      Function.update ctx.cFd.find? (pid, fd) (some ⟨.hostPort rdv⟩) := find?_replace_eq_update ..
  rw [Tracks, hv.chan_openAs, hfd]
  exact Agrees.bind h (fun rdv' => by simp) fun k hk => h.named k rdv hk

theorem Tracks.pipe (h : Tracks K j.ctx) (hv : K.Valid) (hb : Bounded j.gensymCt j.ctx) (ev : Event)
    (fi fo : ℤ) : Tracks ((K.openAs (ev.pid, fi) none).openAs (ev.pid, fo) none)
      (joinPipe j ev fi fo).ctx := by
  have hfi : Tracks (K.openAs (ev.pid, fi) none)
      (setFdConn j.ctx ev.pid fi ⟨.genSym (j.gensymCt + 1 + 1)⟩) :=
    h.openNew hv (fun k hk => absurd (hb.le_of_find? hk) (by omega)) ev.pid fi
  refine Tracks.of_eq (hfi.openNew (hv.openAs _ _) (i := j.gensymCt + 1) ?_ ev.pid fo) fun k => rfl
  intro k hk
  -- the first of the two connections is not the second
  rw [setFdConn, Hashtbl.find?_replace] at hk
  split_ifs at hk with hkey
  · simp at hk
  · exact absurd (hb.le_of_find? hk) (by omega)

theorem Tracks.dup (h : Tracks K j.ctx) (ev : Event) (oldfd newfd : ℤ) :
    Tracks (K.step ⟨.dup oldfd newfd, ev⟩)
      (setFdConn j.ctx ev.pid newfd (connOfFd j.ctx j.gensymCt ev.pid oldfd).1) := by
  refine h.pull fun k hk => ?_
  by_cases hkey : k = (ev.pid, newfd)
  · subst hkey
    have hchan : (K.step ⟨.dup oldfd newfd, ev⟩).chan (ev.pid, newfd) = K.chan (ev.pid, oldfd) := by
      simp only [Kernel.chan, Kernel.step, Function.update_self]
      rfl
    refine ⟨(ev.pid, oldfd), hchan, ?_⟩
    rw [hchan] at hk
    obtain ⟨c, hc⟩ := Option.isSome_iff_exists.1 (Agrees.tagged h _ hk)
    rw [hc, connOfFd_of hc]
    exact Hashtbl.find?_replace_self
  · refine ⟨k, ?_, Hashtbl.find?_replace_of_ne (Ne.symm hkey)⟩
    simp only [Kernel.chan, Kernel.step, Function.update_of_ne hkey]
    rfl

theorem Tracks.fork (h : Tracks K ctx) (o : Orders) (ev : Event) (ppid ptid : ℤ) :
    Tracks (K.step ⟨.fork ppid ptid, ev⟩) (handleFork o ctx ⟨ptid, ppid⟩ ⟨ev.tid, ev.pid⟩) := by
  refine h.pull fun k hk => ⟨if k.1 = ev.pid then (ppid, k.2) else k, rfl, ?_⟩
  obtain ⟨p, f⟩ := k
  by_cases hp : p = ev.pid
  · subst hp
    rw [if_pos rfl]
    have hchan : (K.step ⟨.fork ppid ptid, ev⟩).chan (ev.pid, f) = K.chan (ppid, f) := by
      simp only [Kernel.chan, Kernel.step, if_true]
      rfl
    rw [hchan] at hk
    exact handleFork_find? o (Agrees.tagged h _ hk) _
  · rw [if_neg hp, Hashtbl.find?_eq, handleFork_stack, if_neg hp, Hashtbl.find?_eq]

/-! ## Connecting -/

theorem Tracks.tagged (h : Tracks K ctx) {k : ℤ × ℤ} (hk : (K.table k).isSome) :
    ∃ c, ctx.cFd.find? k = some c := by
  refine Option.isSome_iff_exists.1 (Agrees.tagged h k ?_)
  rw [Kernel.chan, Option.isSome_map]
  exact hk

/-- The socket is connected, and its connection renamed, which no other open descriptor has. -/
theorem Tracks.connect (h : Tracks K ctx) {k : ℤ × ℤ} {d : ℕ} {c : Conn} {rdv : List Byte}
    (hd : K.table k = some d) (hc : ctx.cFd.find? k = some c)
    (hr : Renamed ctx c ⟨.hostPort rdv⟩ ctx')
    (hun : ∀ k', K.chan k' = some (K.chanOf d) → K.table k' ≠ some d → K.chanOf d = .named rdv) :
    Tracks (K.connect d rdv) ctx' := by
  have hk : K.chan k = some (K.chanOf d) := by rw [Kernel.chan, hd, Option.map_some]
  have hrename := Agrees.rename h (fun _ _ => Chan.named.inj)
    (fun _ _ heq => ConnId.hostPort.inj (Conn.mk.inj heq)) hk hc rdv
  refine Agrees.pull hrename fun k' _ => ⟨k', ?_, hr.fd k'⟩
  rw [Kernel.chan_connect]
  by_cases hk' : K.table k' = some d
  · rw [if_pos hk', if_pos (by rw [Kernel.chan, hk', Option.map_some])]
  · rw [if_neg hk']
    split_ifs with hsame
    · rw [hsame, hun k' hsame hk']
    · rfl

theorem Tracks.joinConnect (h : Tracks K j.ctx) (hb : Bounded j.gensymCt j.ctx) {ev : Event}
    {fd : ℤ} {rdv : List Byte} (hj : joinRename o j ev fd (fun _ => ⟨.hostPort rdv⟩) = .ok j') :
    Tracks (K.step ⟨.connect fd rdv, ev⟩) j'.ctx ↔ Unshared K j.ctx ⟨.connect fd rdv, ev⟩ := by
  obtain ⟨j₁, hj₁, hrenamed, -⟩ := joinRename_spec o j ev fd fun _ => ⟨.hostPort rdv⟩
  cases hj₁.symm.trans hj
  set c := (connOfFd j.ctx j.gensymCt ev.pid fd).1 with hcdef
  -- a connection that is made up here is no descriptor's
  have hhas : ∀ k, j.ctx.cFd.find? k = some c → j.ctx.cFd.find? (ev.pid, fd) = some c := by
    intro k hk
    rcases connOfFd_cases j.ctx j.gensymCt ev.pid fd with ⟨hfind, -⟩ | ⟨hnew, -⟩
    · exact hfind
    · rw [hcdef, hnew] at hk
      exact absurd (hb.le_of_find? hk) (by omega)
  constructor
  · intro h' k hk hsame hname
    obtain ⟨c', hc'⟩ := h.tagged hk
    have hcc : c' = c := by
      rw [hcdef, connOfFd_of (hsame.symm.trans hc')]
    by_contra hne
    have hchan : (K.step ⟨.connect fd rdv, ev⟩).chan k = K.chan k := by
      rcases hd : K.table (ev.pid, fd) with _ | d
      · simp only [Kernel.step, hd]
      · simp only [Kernel.step, hd]
        rw [Kernel.chan_connect, if_neg fun heq => hne (heq.trans hd.symm)]
    have hopen : (K.chan k).isSome := by rwa [Kernel.chan, Option.isSome_map]
    have hfd : j'.ctx.cFd.find? k = some ⟨.hostPort rdv⟩ := by
      rw [hrenamed.fd, if_pos (hcc ▸ hc')]
    have hnamed := (Agrees.named h' k rdv (by rwa [hchan])).1 hfd
    rw [hchan] at hnamed
    exact hname ((Agrees.named h k rdv hopen).2 hnamed)
  · intro hun
    rcases hd : K.table (ev.pid, fd) with _ | d
    · -- no open descriptor is renamed
      have hstep : K.step ⟨.connect fd rdv, ev⟩ = K := by simp only [Kernel.step, hd]
      rw [hstep]
      refine h.pull fun k hk => ⟨k, rfl, ?_⟩
      rw [Kernel.chan, Option.isSome_map] at hk
      rw [hrenamed.fd]
      split_ifs with hc
      · by_contra hname
        rw [hun k hk (hc.trans (hhas k hc).symm) (Ne.symm hname), hd] at hk
        cases hk
      · rfl
    · have hstep : K.step ⟨.connect fd rdv, ev⟩ = K.connect d rdv := by
        simp only [Kernel.step, hd]
      obtain ⟨c', hc'⟩ := h.tagged (k := (ev.pid, fd)) (by rw [hd]; rfl)
      have hcc : c' = c := by rw [hcdef, connOfFd_of hc']
      rw [hcc] at hc'
      have hfdchan : K.chan (ev.pid, fd) = some (K.chanOf d) := by
        rw [Kernel.chan, hd, Option.map_some]
      rw [hstep]
      refine h.connect hd hc' hrenamed fun k hk hne => ?_
      have hopen : (K.chan k).isSome := by rw [hk]; rfl
      have hsame : j.ctx.cFd.find? k = j.ctx.cFd.find? (ev.pid, fd) :=
        (Agrees.same h k _ hopen (by rw [hfdchan]; rfl)).2 (hk.trans hfdchan.symm)
      by_contra hname
      refine hne ((hun k (by rwa [Kernel.chan, Option.isSome_map] at hopen) hsame ?_).trans hd)
      intro hrdv
      have hknamed := (Agrees.named h k rdv hopen).1 hrdv
      exact hname (Option.some_inj.1 (hk.symm.trans hknamed))

/-! ## Runs -/

theorem Tracks.start : Tracks Kernel.start Ctx.empty where
  tagged _ h := by cases h
  named _ _ h := by cases h
  same _ _ h := by cases h

/-- **One event.** The join tracks the kernel after it exactly when it is no `Connect` that renames
what it should not. -/
theorem tracks_streamJoin (h : Tracks K j.ctx) (hv : K.Valid) (hb : Bounded j.gensymCt j.ctx)
    {e : Stream} (hj : streamJoin o port j e = .ok j') :
    Tracks (K.step e) j'.ctx ↔ Unshared K j.ctx e := by
  have hnew : ∀ k, j.ctx.cFd.find? k ≠ some ⟨.genSym (j.gensymCt + 1)⟩ := fun k hk =>
    absurd (hb.le_of_find? hk) (by omega)
  obtain ⟨type, ev⟩ := e
  unfold streamJoin at hj
  cases type with
  | connect fd rdv => exact h.joinConnect hb hj
  | protocolInit fd =>
    obtain ⟨j₁, hj₁, hrenamed, -⟩ := joinRename_spec o j ev fd fun conn => ⟨conn.id⟩
    cases hj₁.symm.trans hj
    refine iff_of_true (h.of_eq fun k => ?_) trivial
    rw [hrenamed.fd]
    split_ifs with hc
    · exact hc.symm
    · rfl
  | «open» fd =>
    cases hj
    exact iff_of_true (h.openNew hv hnew ev.pid fd) trivial
  | socket fd =>
    cases hj
    exact iff_of_true (h.openNew hv hnew ev.pid fd) trivial
  | pipe fi fo =>
    cases hj
    exact iff_of_true (h.pipe hv hb ev fi fo) trivial
  | accept fd rdv =>
    cases hj
    exact iff_of_true (h.accept hv ev.pid fd rdv) trivial
  | dup oldfd newfd =>
    cases hj
    exact iff_of_true (h.dup ev oldfd newfd) trivial
  | fork ppid ptid =>
    cases hj
    exact iff_of_true (h.fork o ev ppid ptid) trivial
  | close fd =>
    cases hj
    exact iff_of_true (h.close _) trivial
  | poll timedOut fd =>
    cases timedOut <;> cases hj <;> exact iff_of_true (h.of_eq fun k => rfl) trivial
  | read fd =>
    cases hj
    refine iff_of_true (h.of_eq fun k => ?_) trivial
    rw [apply_ite Ctx.cFd]
    exact congrArg (Hashtbl.find? · k) (ite_self _)
  | messageRecv prot fd msgid =>
    cases hj
    obtain ⟨g, arid, msg, -, hctx, -⟩ := joinRecv_eq port j ev prot fd msgid
    refine iff_of_true (h.of_eq fun k => ?_) trivial
    rw [hctx]
    rfl
  | unknown => cases hj
  | _ =>
    cases hj
    exact iff_of_true (h.of_eq fun k => rfl) trivial

/-- The invariant of the runs that does not depend on what is connected. -/
structure World.Valid (w : World) : Prop where
  kernel : w.kernel.Valid
  joiner : Bounded w.joiner.gensymCt w.joiner.ctx

/-- What a run of both has to meet at each step. -/
def World.Unshared (w : World) : Happening → Prop
  | .event e => Agg.Unshared w.kernel w.joiner.ctx e
  | .closed _ => True

/-- **The join tracks the kernel.** In all states of a run the open descriptors are on the same
connection in `cFd` if and only if they are in the kernel, exactly when each `Connect` of the run
finds the connection it renames at no open descriptor of another socket. -/
theorem join_tracks_iff (o : Orders) (port : ℤ) (hs : List Happening) :
    Always (World.step o port) .start hs (fun w => Tracks w.kernel w.joiner.ctx) ↔
      Along (World.step o port) .start hs World.Unshared := by
  have hvalid : World.start.Valid := ⟨(fun _ _ hd => nomatch hd), bounded_start⟩
  refine always_iff_along hvalid Tracks.start fun w a w' hw ht ha => ?_
  cases a with
  | event e =>
    obtain ⟨j, hj, hok⟩ := bind_eq_ok ha
    cases hok
    have hstep := tracks_streamJoin (j := { w.joiner with ctx := clearFlags w.joiner.ctx })
      ht hw.kernel (hw.joiner.congr rfl rfl) hj
    exact ⟨⟨hw.kernel.step e, hw.joiner.joinStep hj⟩, hstep⟩
  | closed P =>
    cases ha
    exact ⟨⟨hw.kernel.close P, hw.joiner⟩, iff_of_true (ht.close P) trivial⟩

end BorderPatrol.Agg
