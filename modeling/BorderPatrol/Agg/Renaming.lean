import BorderPatrol.Agg.Join
import BorderPatrol.Foundations.Runs

/-!
# Renaming a connection

`replace_all_conn` gives a connection another name: the descriptors that have it get the new one,
and the entries of its messages are moved to the new name, one after the other. What it does to the
bindings of each message is in `Renamed`: those of the old name are put in front of those of the new
one in the opposite order. So the entry found afterwards is the oldest one of the old name, and a
`Connect` is a renaming exactly when for every message that is the one found before
(`connect_renames_iff`).
-/

namespace BorderPatrol.Agg

open Foundations

variable {o : Orders} {port : ℤ} {ctx ctx' : Ctx} {conn conn' : Conn}

/-! ## Moving the entries -/

theorem count_htKeylist {κ α : Type} [BEq κ] [LawfulBEq κ] [DecidableEq κ]
    (v : Hashtbl.Traversal κ α) (t : Hashtbl κ α) (k : κ) :
    (htKeylist v t).count k = (t.stack k).length := by
  have hfold : ∀ (l : List (κ × α)) (acc : List κ),
      l.foldl (fun acc b => b.1 :: acc) acc = (l.map Prod.fst).reverse ++ acc := by
    intro l
    induction l with
    | nil => exact fun _ => rfl
    | cons b l ih =>
      intro acc
      rw [List.foldl_cons, ih, List.map_cons, List.reverse_cons, List.append_assoc]
      rfl
  rw [htKeylist, hfold, List.append_nil, List.count_reverse, Hashtbl.count_keys, v.stackOf_visit]

theorem mem_htKeylist {κ α : Type} [DecidableEq κ] (v : Hashtbl.Traversal κ α)
    (t : Hashtbl κ α) (k : κ) : k ∈ htKeylist v t ↔ t.stack k ≠ [] := by
  rw [← List.count_pos_iff, count_htKeylist, List.length_pos_iff]

/-- The bindings of the messages of `conn` are moved in front of those of `conn'`, as many as the
list says. -/
theorem renameMsgs_stack (hne : conn ≠ conn') {cms : List (Conn × ℤ)}
    (hconn : ∀ cm ∈ cms, cm.1 = conn) (t : Hashtbl (Conn × ℤ) ℤ)
    (hcount : ∀ m, cms.count (conn, m) ≤ (t.stack (conn, m)).length) :
    ∃ t', cms.foldlM (renameMsg conn') t = .ok t' ∧ ∀ c m, t'.stack (c, m) =
      if c = conn then (t.stack (c, m)).drop (cms.count (conn, m))
      else if c = conn' then
        ((t.stack (conn, m)).take (cms.count (conn, m))).reverse ++ t.stack (c, m)
      else t.stack (c, m) := by
  induction cms generalizing t with
  | nil => exact ⟨t, rfl, fun c m => by simp⟩
  | cons cm cms ih =>
    obtain ⟨hcm, hcms⟩ := List.forall_mem_cons.1 hconn
    obtain ⟨c₀, m₀⟩ := cm
    obtain rfl : c₀ = conn := hcm
    have hstack : t.stack (c₀, m₀) ≠ [] := by
      intro hnil
      have h := hcount m₀
      rw [hnil, List.count_cons_self] at h
      cases h
    obtain ⟨r, rest, hr⟩ := List.exists_cons_of_ne_nil hstack
    have hstep : renameMsg conn' t (c₀, m₀) = .ok ((t.remove (c₀, m₀)).add (conn', m₀) r) := by
      rw [renameMsg, Hashtbl.find?_eq, hr]
      rfl
    set t₁ := (t.remove (c₀, m₀)).add (conn', m₀) r with ht₁
    have hold : ∀ m, t₁.stack (c₀, m) = if m = m₀ then rest else t.stack (c₀, m) := by
      intro m
      have hkey : ((conn', m₀) : Conn × ℤ) ≠ (c₀, m) := fun h => hne (Prod.ext_iff.1 h).1.symm
      rw [ht₁, Hashtbl.stack_add, if_neg hkey, Hashtbl.stack_remove]
      by_cases hm : m = m₀
      · subst hm
        rw [if_pos rfl, if_pos rfl, hr]
        rfl
      · rw [if_neg (fun h => hm (Prod.ext_iff.1 h).2.symm), if_neg hm]
    have hnew : ∀ m, t₁.stack (conn', m) =
        if m = m₀ then r :: t.stack (conn', m) else t.stack (conn', m) := by
      intro m
      have hkey : ((c₀, m₀) : Conn × ℤ) ≠ (conn', m) := fun h => hne (Prod.ext_iff.1 h).1
      rw [ht₁, Hashtbl.stack_add, Hashtbl.stack_remove, if_neg hkey]
      by_cases hm : m = m₀
      · subst hm
        rw [if_pos rfl, if_pos rfl]
      · rw [if_neg (fun h => hm (Prod.ext_iff.1 h).2.symm), if_neg hm]
    have hother : ∀ c m, c ≠ c₀ → c ≠ conn' → t₁.stack (c, m) = t.stack (c, m) := by
      intro c m hc hc'
      rw [ht₁, Hashtbl.stack_add, if_neg (fun h => hc' (Prod.ext_iff.1 h).1.symm),
        Hashtbl.stack_remove, if_neg (fun h => hc (Prod.ext_iff.1 h).1.symm)]
    have hcount₁ : ∀ m, cms.count (c₀, m) ≤ (t₁.stack (c₀, m)).length := by
      intro m
      have h := hcount m
      rw [hold]
      by_cases hm : m = m₀
      · subst hm
        rw [List.count_cons_self, hr, List.length_cons] at h
        rw [if_pos rfl]
        omega
      · rw [if_neg hm]
        rw [List.count_cons_of_ne (fun h => hm (Prod.ext_iff.1 h).2.symm)] at h
        exact h
    obtain ⟨t', ht', hstack'⟩ := ih hcms t₁ hcount₁
    refine ⟨t', by rw [List.foldlM_cons, hstep, ok_bind, ht'], fun c m => ?_⟩
    rw [hstack']
    by_cases hc : c = c₀
    · subst hc
      rw [if_pos rfl, if_pos rfl, hold]
      by_cases hm : m = m₀
      · subst hm
        rw [if_pos rfl, List.count_cons_self, hr, List.drop_succ_cons]
      · rw [if_neg hm, List.count_cons_of_ne fun h => hm (Prod.ext_iff.1 h).2.symm]
    · rw [if_neg hc, if_neg hc]
      by_cases hc' : c = conn'
      · subst hc'
        rw [if_pos rfl, if_pos rfl, hold, hnew]
        by_cases hm : m = m₀
        · subst hm
          rw [if_pos rfl, if_pos rfl, List.count_cons_self, hr, List.take_succ_cons,
            List.reverse_cons, List.append_assoc]
          rfl
        · rw [if_neg hm, if_neg hm, List.count_cons_of_ne fun h => hm (Prod.ext_iff.1 h).2.symm]
      · rw [if_neg hc', if_neg hc', hother c m hc hc']

/-- Entries that are moved to the name they have stay where they are. -/
theorem renameMsgs_self {cms : List (Conn × ℤ)} (hconn : ∀ cm ∈ cms, cm.1 = conn)
    (t : Hashtbl (Conn × ℤ) ℤ) (hne : ∀ cm ∈ cms, t.stack cm ≠ []) :
    ∃ t', cms.foldlM (renameMsg conn) t = .ok t' ∧ ∀ k, t'.stack k = t.stack k := by
  induction cms generalizing t with
  | nil => exact ⟨t, rfl, fun _ => rfl⟩
  | cons cm cms ih =>
    obtain ⟨hcm, hcms⟩ := List.forall_mem_cons.1 hconn
    obtain ⟨r, rest, hr⟩ := List.exists_cons_of_ne_nil (hne cm List.mem_cons_self)
    have hstep : renameMsg conn t cm = .ok ((t.remove cm).add cm r) := by
      rw [renameMsg, Hashtbl.find?_eq, hr, ← hcm]
      rfl
    have hsame : ∀ k, ((t.remove cm).add cm r).stack k = t.stack k := by
      intro k
      rw [Hashtbl.stack_add, Hashtbl.stack_remove]
      by_cases hk : cm = k
      · rw [if_pos hk, if_pos hk, ← hk, hr]
        rfl
      · rw [if_neg hk, if_neg hk]
    obtain ⟨t', ht', hstack⟩ := ih hcms ((t.remove cm).add cm r) fun cm' h => by
      rw [hsame]
      exact hne cm' (List.mem_cons_of_mem _ h)
    refine ⟨t', by rw [List.foldlM_cons, hstep, ok_bind, ht'], fun k => ?_⟩
    rw [hstack, hsame]

/-! ## The whole table -/

/-- `ctx'` is `ctx` with `conn` named `conn'`. -/
structure Renamed (ctx : Ctx) (conn conn' : Conn) (ctx' : Ctx) : Prop where
  dgn : ctx'.cDgn = ctx.cDgn
  msgs : ctx'.cMsgs = ctx.cMsgs
  fd : ∀ k, ctx'.cFd.find? k =
    if ctx.cFd.find? k = some conn then some conn' else ctx.cFd.find? k
  entry : ∀ c m, ctx'.cConn.stack (c, m) =
    if conn = conn' then ctx.cConn.stack (c, m)
    else if c = conn then []
    else if c = conn' then (ctx.cConn.stack (conn, m)).reverse ++ ctx.cConn.stack (c, m)
    else ctx.cConn.stack (c, m)

/-- The descriptors whose visible binding is replaced have the new one, the others what they had. -/
theorem find?_foldl_replace {κ α : Type} [DecidableEq κ] (ks : List κ) (t : Hashtbl κ α) (a : α)
    (k : κ) : (ks.foldl (fun t k => t.replace k a) t).find? k =
      if k ∈ ks then some a else t.find? k := by
  induction ks generalizing t with
  | nil => simp
  | cons k' ks ih =>
    rw [List.foldl_cons, ih, Hashtbl.find?_replace]
    by_cases hk : k ∈ ks
    · rw [if_pos hk, if_pos (List.mem_cons_of_mem _ hk)]
    · by_cases hkk : k' = k
      · rw [if_neg hk, if_pos hkk, if_pos (by simp [hkk])]
      · rw [if_neg hk, if_neg hkk, if_neg (by simp [hk, Ne.symm hkk])]

/-- The descriptors on a connection, as `replace_all_conn` lists them. -/
def fdsOnConn (o : Orders) (ctx : Ctx) (conn : Conn) : List (ℤ × ℤ) :=
  (htKeylist o.fd ctx.cFd).filter fun pf =>
    match ctx.cFd.find? pf with
    | some c => connEq c conn
    | none => false

theorem mem_fdsOnConn {o : Orders} {k : ℤ × ℤ} :
    k ∈ fdsOnConn o ctx conn ↔ ctx.cFd.find? k = some conn := by
  rw [fdsOnConn, List.mem_filter, mem_htKeylist, Hashtbl.find?_eq]
  rcases ctx.cFd.stack k with _ | ⟨c, l⟩
  · simp
  · simp [connEq_iff]

/-- **Renaming** raises no exception. -/
theorem replaceAllConn_spec (o : Orders) (ctx : Ctx) (conn conn' : Conn) :
    ∃ ctx', replaceAllConn o ctx conn conn' = .ok ctx' ∧ Renamed ctx conn conn' ctx' := by
  set cms := (htKeylist o.conn ctx.cConn).filter fun cm => connEq cm.1 conn with hcms
  have hconn : ∀ cm ∈ cms, cm.1 = conn := fun cm h =>
    connEq_iff.1 (List.mem_filter.1 h).2
  have hcount : ∀ m, cms.count (conn, m) = (ctx.cConn.stack (conn, m)).length := by
    intro m
    rw [hcms, List.count_filter (by simp [connEq_iff]), count_htKeylist]
  have hentries : ∃ t', cms.foldlM (renameMsg conn') ctx.cConn = .ok t' ∧ ∀ c m, t'.stack (c, m) =
      if conn = conn' then ctx.cConn.stack (c, m)
      else if c = conn then []
      else if c = conn' then (ctx.cConn.stack (conn, m)).reverse ++ ctx.cConn.stack (c, m)
      else ctx.cConn.stack (c, m) := by
    by_cases hne : conn = conn'
    · subst hne
      obtain ⟨t', ht', hstack⟩ := renameMsgs_self hconn ctx.cConn fun cm h =>
        (mem_htKeylist o.conn ctx.cConn cm).1 (List.mem_of_mem_filter h)
      exact ⟨t', ht', fun c m => by rw [if_pos rfl, hstack]⟩
    · obtain ⟨t', ht', hstack⟩ := renameMsgs_stack hne hconn ctx.cConn fun m => (hcount m).le
      refine ⟨t', ht', fun c m => ?_⟩
      rw [hstack, if_neg hne, hcount, List.take_length]
      by_cases hc : c = conn
      · rw [if_pos hc, if_pos hc, hc, List.drop_length]
      · rw [if_neg hc, if_neg hc]
  obtain ⟨t', ht', hstack⟩ := hentries
  have hok : replaceAllConn o ctx conn conn' = .ok { ctx with
      cFd := (fdsOnConn o ctx conn).foldl (fun t pf => t.replace pf conn') ctx.cFd
      cConn := t' } := by
    change (cms.foldlM (renameMsg conn') ctx.cConn >>= fun cConn => _) = _
    rw [ht']
    rfl
  refine ⟨_, hok, rfl, rfl, fun k => ?_, hstack⟩
  rw [find?_foldl_replace]
  by_cases hk : ctx.cFd.find? k = some conn
  · rw [if_pos (mem_fdsOnConn.2 hk), if_pos hk]
  · rw [if_neg (mt mem_fdsOnConn.1 hk), if_neg hk]

/-! ## Connect -/

theorem Renamed.find?_entry (h : Renamed ctx conn conn' ctx') (hne : conn ≠ conn') (m : ℤ) :
    ctx'.cConn.find? (conn', m) =
      ((ctx.cConn.stack (conn, m)).getLast?).or (ctx.cConn.find? (conn', m)) := by
  rw [Hashtbl.find?_eq, Hashtbl.find?_eq, h.entry, if_neg hne, if_neg (Ne.symm hne), if_pos rfl,
    List.head?_append, List.head?_reverse]

/-- What `joinRename` does: the connection of the descriptor is renamed. -/
theorem joinRename_spec (o : Orders) (j : Joiner) (ev : Event) (fd : ℤ) (name : Conn → Conn) :
    ∃ j', joinRename o j ev fd name = .ok j' ∧
      Renamed j.ctx (connOfFd j.ctx j.gensymCt ev.pid fd).1
        (name (connOfFd j.ctx j.gensymCt ev.pid fd).1) j'.ctx ∧
      j'.gensymCt = (connOfFd j.ctx j.gensymCt ev.pid fd).2 ∧ j'.genridCt = j.genridCt := by
  rcases hconn : connOfFd j.ctx j.gensymCt ev.pid fd with ⟨conn, g⟩
  obtain ⟨ctx', hctx, hrenamed⟩ := replaceAllConn_spec o j.ctx conn (name conn)
  refine ⟨{ j with ctx := ctx', gensymCt := g }, ?_, hrenamed, rfl, rfl⟩
  simp only [joinRename, hconn, hctx, ok_bind]

/-- From `j` to `j'` the connection of descriptor `fd` of process `pid` is renamed to the name
`rdv`: who has it has it under the new name, and so have its messages. -/
structure ConnectRenames (j j' : Joiner) (pid fd : ℤ) (rdv : List Byte) : Prop where
  self : (connOfFd j'.ctx j'.gensymCt pid fd).1 = ⟨.hostPort rdv⟩
  holders : ∀ p f, j.ctx.cFd.find? (p, f) = some (connOfFd j.ctx j.gensymCt pid fd).1 →
    j'.ctx.cFd.find? (p, f) = some ⟨.hostPort rdv⟩
  others : ∀ p f, (p, f) ≠ (pid, fd) →
    j.ctx.cFd.find? (p, f) ≠ some (connOfFd j.ctx j.gensymCt pid fd).1 →
      j'.ctx.cFd.find? (p, f) = j.ctx.cFd.find? (p, f)
  messages : ∀ m, j'.ctx.cConn.find? (⟨.hostPort rdv⟩, m) =
    (j.ctx.cConn.find? ((connOfFd j.ctx j.gensymCt pid fd).1, m)).or
      (j.ctx.cConn.find? (⟨.hostPort rdv⟩, m))
  elsewhere : ∀ c m, c ≠ (connOfFd j.ctx j.gensymCt pid fd).1 → c ≠ ⟨.hostPort rdv⟩ →
    j'.ctx.cConn.find? (c, m) = j.ctx.cConn.find? (c, m)

/-- The descriptor has a connection, and unless that has the name already the entry found for each
of its messages is the oldest one that the message has. -/
def Renameable (ctx : Ctx) (pid fd : ℤ) (rdv : List Byte) : Prop :=
  ∃ conn, ctx.cFd.find? (pid, fd) = some conn ∧ (conn = ⟨.hostPort rdv⟩ ∨
    ∀ m, ctx.cConn.find? (conn, m) = (ctx.cConn.stack (conn, m)).getLast?)

variable {j j' : Joiner} {pid fd : ℤ} {rdv : List Byte}

/-- What is true of any renaming of a connection that the descriptor has. -/
theorem Renamed.connectRenames (hfd : j.ctx.cFd.find? (pid, fd) = some conn)
    (h : Renamed j.ctx conn ⟨.hostPort rdv⟩ j'.ctx)
    (hmsg : ∀ m, j'.ctx.cConn.find? (⟨.hostPort rdv⟩, m) =
      (j.ctx.cConn.find? (conn, m)).or (j.ctx.cConn.find? (⟨.hostPort rdv⟩, m))) :
    ConnectRenames j j' pid fd rdv := by
  have hconn : (connOfFd j.ctx j.gensymCt pid fd).1 = conn := by
    rw [connOfFd, hfd]
  have hfd' : j'.ctx.cFd.find? (pid, fd) = some ⟨.hostPort rdv⟩ := by
    rw [h.fd, if_pos hfd]
  refine ⟨by rw [connOfFd, hfd'], ?_, ?_, ?_, ?_⟩ <;> rw [hconn]
  · intro p f hpf
    rw [h.fd, if_pos hpf]
  · intro p f _ hpf
    rw [h.fd, if_neg hpf]
  · exact hmsg
  · intro c m hc hc'
    rw [Hashtbl.find?_eq, Hashtbl.find?_eq, h.entry, if_neg hc, if_neg hc', ite_self]

/-- **A `Connect` is a renaming** exactly when the descriptor has a connection and the entries found
for its messages are the oldest ones, or the connection has the name already. -/
theorem connect_renames_iff (o : Orders) (port : ℤ) (j : Joiner) (ev : Event) (fd : ℤ)
    (rdv : List Byte) : ∃ j', streamJoin o port j ⟨.connect fd rdv, ev⟩ = .ok j' ∧
      (ConnectRenames j j' ev.pid fd rdv ↔ Renameable j.ctx ev.pid fd rdv) := by
  obtain ⟨j', hj', hrenamed, hgensym, -⟩ := joinRename_spec o j ev fd fun _ => ⟨.hostPort rdv⟩
  refine ⟨j', hj', ?_⟩
  rcases hfd : j.ctx.cFd.find? (ev.pid, fd) with _ | conn
  · -- the descriptor has none, and has none afterwards
    refine iff_of_false (fun h => ?_) ?_
    · have hself := h.self
      rw [connOfFd, hrenamed.fd, hfd, if_neg (by simp)] at hself
      cases hself
    · rintro ⟨conn, hconn, -⟩
      rw [hfd] at hconn
      cases hconn
  · have hconn : (connOfFd j.ctx j.gensymCt ev.pid fd).1 = conn := by
      rw [connOfFd, hfd]
    rw [hconn] at hrenamed
    by_cases hname : conn = ⟨.hostPort rdv⟩
    · refine iff_of_true (hrenamed.connectRenames hfd fun m => ?_) ⟨conn, hfd, .inl hname⟩
      rw [Hashtbl.find?_eq, hrenamed.entry, if_pos hname, ← Hashtbl.find?_eq, hname,
        Option.or_self]
    · constructor
      · intro h
        refine ⟨conn, hfd, .inr fun m => ?_⟩
        have hmsg := h.messages m
        rw [hconn, hrenamed.find?_entry hname] at hmsg
        simp only [Hashtbl.find?_eq] at hmsg ⊢
        generalize j.ctx.cConn.stack (conn, m) = l at hmsg ⊢
        cases l with
        | nil => rfl
        | cons r l => simpa [List.getLast?_cons] using hmsg.symm
      · rintro ⟨conn₁, hconn₁, hold⟩
        obtain rfl : conn₁ = conn := Option.some_inj.1 (hconn₁.symm.trans hfd)
        refine hrenamed.connectRenames hfd fun m => ?_
        rw [hrenamed.find?_entry hname, hold.resolve_left hname m]

/-- A process uses one rendezvous for two connections, the second while it works on a request. -/
def nameReused : List Stream :=
  [eventOf 10 1 (.socket 5), eventOf 10 1 (.connect 5 (ascii "/tmp/a")),
    eventOf 10 1 (.accept 4 (ascii "10.0.0.9:1000->10.0.0.1:80")),
    eventOf 10 1 (.messageRecv (ascii "PP_HTTPS") 4 0),
    eventOf 10 1 (.socket 5), eventOf 10 1 (.connect 5 (ascii "/tmp/a"))]

/-- Under the next name the entry of the first connection is found, which is older. -/
theorem nameReused_not_renamed : ∃ j j', runSteps (joinStep .listed 80) .start nameReused = .ok j ∧
    joinStep .listed 80 j (eventOf 10 1 (.connect 5 (ascii "/tmp/b"))) = .ok j' ∧
      ¬ ConnectRenames { j with ctx := clearFlags j.ctx } j' 10 5 (ascii "/tmp/b") := by
  refine ⟨_, _, rfl, rfl, fun h => ?_⟩
  have hmsg := h.messages fakeMsgId
  revert hmsg
  decide +kernel

end BorderPatrol.Agg
