import BorderPatrol.Agg.Attribution
import BorderPatrol.Agg.Frame
import BorderPatrol.Agg.Paths

/-!
# Conversations

Two processes talk over a connection, and number the messages that they send and those that they
receive. When a side sends only after it has received all that the other side has sent, the messages
of the two sides are never on their way together. Then every message that is received gives the
receiver the request that its sender was working on when it sent this very message, as long as no
two messages on their way have one number (`conversation_attributed`). This is so among any other
events, if they leave the connection to its two sides.
-/

namespace BorderPatrol.Agg

open Foundations

/-! ## What the sides say -/

/-- A side has sent a message with the number `k`, or has received one. -/
inductive Said
  | sent (x : Side) (k : ℤ)
  | received (x : Side) (k : ℤ)
  deriving DecidableEq, Repr

/-- The numbers of the messages that each side has sent and received. -/
structure Talk where
  sent : Side → List ℤ
  received : Side → List ℤ

def Talk.start : Talk := ⟨fun _ => [], fun _ => []⟩

def Talk.next (t : Talk) : Said → Talk
  | .sent x k => { t with sent := Function.update t.sent x (t.sent x ++ [k]) }
  | .received x k => { t with received := Function.update t.received x (t.received x ++ [k]) }

def talkOf (l : List Said) : Talk := l.foldl Talk.next .start

/-- The numbers of the messages of a side that are on their way. -/
def Talk.onWay (t : Talk) (x : Side) : List ℤ := (t.sent x).drop (t.received x.other).length

/-- A side sends when it has received everything, and receives what was sent, in order. -/
def Talk.Allows (t : Talk) : Said → Prop
  | .sent x _ => t.received x = t.sent x.other
  | .received x k => t.received x ++ [k] <+: t.sent x.other

/-- No message is sent with a number of one on its way, or with `fake_msg_id`. -/
def Talk.Fresh (t : Talk) : Said → Prop
  | .sent x k => k ∉ t.onWay x ∧ k ≠ fakeMsgId
  | .received _ _ => True

/-- `P` holds of each thing said, and what was said before it. -/
def AtEach (P : Talk → Said → Prop) (l : List Said) : Prop :=
  ∀ pre a, pre ++ [a] <+: l → P (talkOf pre) a

/-- The two sides take turns. -/
def HalfDuplex : List Said → Prop := AtEach Talk.Allows

/-- The numbers of the messages on their way differ. -/
def FreshNumbers : List Said → Prop := AtEach Talk.Fresh

theorem talkOf_concat (l : List Said) (a : Said) : talkOf (l ++ [a]) = (talkOf l).next a := by
  rw [talkOf, List.foldl_append]
  rfl

theorem atEach_nil {P : Talk → Said → Prop} : AtEach P [] := by
  intro pre a hpre
  have hne : pre ++ [a] ≠ [] := List.append_ne_nil_of_right_ne_nil _ (List.cons_ne_nil _ _)
  exact absurd (List.prefix_nil.1 hpre) hne

/-- One thing more is said. -/
theorem atEach_concat {P : Talk → Said → Prop} {l : List Said} {a : Said} :
    AtEach P (l ++ [a]) ↔ AtEach P l ∧ P (talkOf l) a := by
  constructor
  · intro h
    exact ⟨fun pre b hpre => h pre b (hpre.trans (List.prefix_append l [a])), h l a
      (List.prefix_refl _)⟩
  · rintro ⟨h, ha⟩ pre b hpre
    rcases List.prefix_concat_iff.1 hpre with heq | hpre
    · obtain ⟨rfl, hb⟩ := List.append_inj' heq rfl
      cases hb
      exact ha
    · exact h pre b hpre

theorem Side.other_other (x : Side) : x.other.other = x := by
  cases x <;> rfl

theorem Side.other_ne (x : Side) : x.other ≠ x := by
  cases x <;> exact Side.noConfusion

/-- A side that has received everything sends messages. -/
theorem halfDuplex_sent {l : List Said} {x : Side} (h : HalfDuplex l)
    (hall : (talkOf l).received x = (talkOf l).sent x.other) (ks : List ℤ) :
    HalfDuplex (l ++ ks.map (.sent x)) ∧ talkOf (l ++ ks.map (.sent x)) =
      { talkOf l with sent := Function.update (talkOf l).sent x ((talkOf l).sent x ++ ks) } := by
  induction ks using List.reverseRecOn with
  | nil => simpa using h
  | append_singleton ks k ih =>
    obtain ⟨hks, htalk⟩ := ih
    rw [List.map_append, List.map_singleton, ← List.append_assoc]
    refine ⟨atEach_concat.2 ⟨hks, ?_⟩, ?_⟩
    · rw [htalk]
      simp only [Talk.Allows, Function.update_of_ne (Side.other_ne x)]
      exact hall
    · rw [talkOf_concat, htalk]
      simp [Talk.next]

/-- A side receives messages that were sent. -/
theorem halfDuplex_received {l : List Said} {x : Side} (h : HalfDuplex l) {ks : List ℤ}
    (hks : (talkOf l).received x ++ ks <+: (talkOf l).sent x.other) :
    HalfDuplex (l ++ ks.map (.received x)) ∧ talkOf (l ++ ks.map (.received x)) =
      { talkOf l with
        received := Function.update (talkOf l).received x ((talkOf l).received x ++ ks) } := by
  induction ks using List.reverseRecOn with
  | nil => simpa using h
  | append_singleton ks k ih =>
    rw [← List.append_assoc] at hks
    obtain ⟨hduplex, htalk⟩ := ih ((List.prefix_append _ [k]).trans hks)
    rw [List.map_append, List.map_singleton, ← List.append_assoc]
    refine ⟨atEach_concat.2 ⟨hduplex, ?_⟩, ?_⟩
    · rw [htalk]
      simp only [Talk.Allows, Function.update_self]
      exact hks
    · rw [talkOf_concat, htalk]
      simp [Talk.next]

theorem sent_mono {pre l : List Said} (h : pre <+: l) (x : Side) :
    (talkOf pre).sent x <+: (talkOf l).sent x := by
  obtain ⟨t, rfl⟩ := h
  induction t using List.reverseRecOn with
  | nil => simp only [List.append_nil, List.prefix_rfl]
  | append_singleton t a ih =>
    apply ih.trans
    rw [← List.append_assoc, talkOf_concat]
    cases a with
    | sent y k =>
      rcases eq_or_ne x y with rfl | hne
      · simp only [Talk.next, Function.update_self, List.prefix_append]
      · simp only [Talk.next, Function.update_of_ne hne, List.prefix_refl]
    | received y k => exact List.prefix_refl _

/-- The numbers on the way differ when all numbers do. -/
theorem freshNumbers_of_nodup {l : List Said}
    (h : ∀ x, ((talkOf l).sent x).Nodup ∧ fakeMsgId ∉ (talkOf l).sent x) : FreshNumbers l := by
  intro pre a hpre
  cases a with
  | received x k => trivial
  | sent x k =>
    have hsent : (talkOf pre).sent x ++ [k] <+: (talkOf l).sent x := by
      have hmono := sent_mono hpre x
      rw [talkOf_concat] at hmono
      simpa only [Talk.next, Function.update_self] using hmono
    constructor
    · intro hmem
      have hnodup := (h x).1.sublist hsent.sublist
      exact (List.nodup_append.1 hnodup).2.2 k (List.mem_of_mem_drop hmem) k
        (List.mem_singleton_self k) rfl
    · rintro rfl
      exact (h x).2 (hsent.subset (List.mem_append_right _ (List.mem_singleton_self _)))

/-! ## Events at the ends -/

/-- The ends are two descriptors. -/
def Ends.Distinct (E : Ends) : Prop := ¬ (E.pid .a = E.pid .b ∧ E.fd .a = E.fd .b)

/-- The side that a descriptor is the end of. -/
def Ends.side (E : Ends) (pid fd : ℤ) : Option Side :=
  if pid = E.pid .a ∧ fd = E.fd .a then some .a
  else if pid = E.pid .b ∧ fd = E.fd .b then some .b
  else none

/-- What the event of a message says, if it is at one of the ends. -/
def said (E : Ends) (e : Stream) : Option Said :=
  match e.sType with
  | .messageSend _ fd k => (E.side e.sEv.pid fd).map (.sent · k)
  | .messageRecv _ fd k => (E.side e.sEv.pid fd).map (.received · k)
  | _ => none

/-- The event leaves the connection `c` to its two ends: it neither gives another connection to one
of them, nor renames `c` or another connection to it, nor is it of a message sent on `c` from
elsewhere. -/
def Apart (E : Ends) (c : Conn) (ctx : Ctx) (e : Stream) : Prop :=
  match e.sType with
  | .fork _ _ => ∀ x, e.sEv.pid ≠ E.pid x
  | .open fd | .socket fd | .accept fd _ | .dup _ fd => E.side e.sEv.pid fd = none
  | .pipe fi fo => E.side e.sEv.pid fi = none ∧ E.side e.sEv.pid fo = none
  | .connect fd rdv => ctx.cFd.find? (e.sEv.pid, fd) ≠ some c ∧ c ≠ ⟨.hostPort rdv⟩
  | .messageSend _ fd _ => ctx.cFd.find? (e.sEv.pid, fd) = some c → (E.side e.sEv.pid fd).isSome
  | _ => True

variable {E : Ends} {c : Conn} {o : Orders} {port : ℤ} {j j' : Joiner} {e : Stream} {x : Side}
  {k : ℤ}

theorem side_eq_some (hE : E.Distinct) {pid fd : ℤ} :
    E.side pid fd = some x ↔ pid = E.pid x ∧ fd = E.fd x := by
  unfold Ends.side
  constructor
  · intro h
    split_ifs at h with ha hb
    · cases h
      exact ha
    · cases h
      exact hb
  · rintro ⟨rfl, rfl⟩
    cases x with
    | a => exact if_pos ⟨rfl, rfl⟩
    | b => rw [if_neg fun h => hE ⟨h.1.symm, h.2.symm⟩, if_pos ⟨rfl, rfl⟩]

/-- A descriptor that is no end. -/
theorem key_ne_of_side (hE : E.Distinct) {pid fd : ℤ} (h : E.side pid fd = none) (x : Side) :
    (pid, fd) ≠ (E.pid x, E.fd x) := by
  intro heq
  rw [(side_eq_some hE).2 (Prod.mk.inj heq)] at h
  cases h

/-- The event of a message that is sent at an end. -/
theorem said_eq_sent (hE : E.Distinct) : said E e = some (.sent x k) ↔
    ∃ prot, e.sType = .messageSend prot (E.fd x) k ∧ e.sEv.pid = E.pid x := by
  obtain ⟨type, ev⟩ := e
  constructor
  · intro h
    cases type <;> simp only [said, Option.map_eq_some_iff, reduceCtorEq, Said.sent.injEq,
      and_false, exists_false] at h
    obtain ⟨y, hy, rfl, rfl⟩ := h
    obtain ⟨hpid, rfl⟩ := (side_eq_some hE).1 hy
    exact ⟨_, rfl, hpid⟩
  · rintro ⟨prot, rfl, hpid⟩
    simp only [said, (side_eq_some hE).2 ⟨hpid, rfl⟩, Option.map_some]

theorem said_eq_received (hE : E.Distinct) : said E e = some (.received x k) ↔
    ∃ prot, e.sType = .messageRecv prot (E.fd x) k ∧ e.sEv.pid = E.pid x := by
  obtain ⟨type, ev⟩ := e
  constructor
  · intro h
    cases type <;> simp only [said, Option.map_eq_some_iff, reduceCtorEq, Said.received.injEq,
      and_false, exists_false] at h
    obtain ⟨y, hy, rfl, rfl⟩ := h
    obtain ⟨hpid, rfl⟩ := (side_eq_some hE).1 hy
    exact ⟨_, rfl, hpid⟩
  · rintro ⟨prot, rfl, hpid⟩
    simp only [said, (side_eq_some hE).2 ⟨hpid, rfl⟩, Option.map_some]

/-! ## What an event leaves -/

/-- The ends have their connection, and its messages their entries. -/
structure Leaves (E : Ends) (c : Conn) (ctx ctx' : Ctx) : Prop where
  fd : ∀ x, ctx'.cFd.find? (E.pid x, E.fd x) = ctx.cFd.find? (E.pid x, E.fd x)
  entry : ∀ m, m ≠ fakeMsgId → ctx'.cConn.find? (c, m) = ctx.cConn.find? (c, m)

theorem leaves_of_eq {ctx ctx' : Ctx} (hfd : ctx'.cFd = ctx.cFd) (hconn : ctx'.cConn = ctx.cConn) :
    Leaves E c ctx ctx' :=
  ⟨fun _ => by rw [hfd], fun _ _ => by rw [hconn]⟩

/-- A descriptor that is no end is given a connection. -/
theorem leaves_setFdConn (hE : E.Distinct) {ctx : Ctx} {pid fd : ℤ} (h : E.side pid fd = none)
    (d : Conn) : Leaves E c ctx (setFdConn ctx pid fd d) :=
  ⟨fun x => Hashtbl.find?_replace_of_ne (key_ne_of_side hE h x), fun _ _ => rfl⟩

theorem Leaves.trans {ctx ctx₁ ctx₂ : Ctx} (h₁ : Leaves E c ctx ctx₁) (h₂ : Leaves E c ctx₁ ctx₂) :
    Leaves E c ctx ctx₂ :=
  ⟨fun x => (h₂.fd x).trans (h₁.fd x), fun m hm => (h₂.entry m hm).trans (h₁.entry m hm)⟩

/-- An entry is made that is not one of a message of `c`. -/
theorem leaves_store {ctx ctx' : Ctx} {d : Conn} {m rid : ℤ} (h : d ≠ c ∨ m = fakeMsgId)
    (hfd : ctx'.cFd = ctx.cFd) (hconn : ctx'.cConn = ctx.cConn.replace (d, m) rid) :
    Leaves E c ctx ctx' := by
  refine ⟨fun _ => by rw [hfd], fun m' hm' => ?_⟩
  rw [hconn]
  refine Hashtbl.find?_replace_of_ne fun heq => ?_
  obtain ⟨hd, rfl⟩ := Prod.mk.inj heq
  exact h.elim (fun h => h hd) hm'

/-- A connection is renamed, which neither was nor is then called `c`, or keeps its name. -/
theorem leaves_renamed {ctx ctx' : Ctx} {d d' : Conn} (hr : Renamed ctx d d' ctx')
    (h : d = d' ∨ d ≠ c ∧ d' ≠ c) (hfds : ∀ x, ctx.cFd.find? (E.pid x, E.fd x) = some c) :
    Leaves E c ctx ctx' := by
  rcases h with rfl | ⟨hd, hd'⟩
  · refine ⟨fun x => ?_, fun m _ => ?_⟩
    · rw [hr.fd]
      split_ifs with heq
      · exact heq.symm
      · rfl
    · rw [Hashtbl.find?_eq, hr.entry, if_pos rfl, Hashtbl.find?_eq]
  · refine ⟨fun x => ?_, fun m _ => ?_⟩
    · rw [hr.fd, hfds x, if_neg fun heq => hd (Option.some_inj.1 heq).symm]
    · rw [Hashtbl.find?_eq, hr.entry, if_neg (Ne.symm hd), if_neg (Ne.symm hd'), Hashtbl.find?_eq]
      split_ifs <;> rfl

theorem connOfFd_ne (hname : ∀ i, c ≠ ⟨.genSym i⟩) {ctx : Ctx} {g pid fd : ℤ}
    (h : ctx.cFd.find? (pid, fd) ≠ some c) : (connOfFd ctx g pid fd).1 ≠ c := by
  rcases connOfFd_cases ctx g pid fd with ⟨hfind, -⟩ | ⟨hnew, -⟩
  · exact fun heq => h (heq ▸ hfind)
  · rw [hnew]
    exact (hname _).symm

/-- **What is left alone.** An event that is apart, and does not send a message at an end. -/
theorem streamJoin_leaves (hE : E.Distinct) (hname : ∀ i, c ≠ ⟨.genSym i⟩)
    (hfds : ∀ x, j.ctx.cFd.find? (E.pid x, E.fd x) = some c) (ha : Apart E c j.ctx e)
    (hs : ∀ x k, said E e ≠ some (.sent x k)) (h : streamJoin o port j e = .ok j') :
    Leaves E c j.ctx j'.ctx := by
  obtain ⟨type, ev⟩ := e
  unfold streamJoin at h
  cases type with
  | fork ppid ptid =>
    cases h
    refine ⟨fun x => ?_, fun _ _ => rfl⟩
    rw [Hashtbl.find?_eq, handleFork_stack, if_neg (ha x).symm, Hashtbl.find?_eq]
  | «open» fd =>
    cases h
    exact (leaves_setFdConn hE ha _).trans (leaves_store (.inr rfl) rfl rfl)
  | socket fd =>
    cases h
    exact (leaves_setFdConn hE ha _).trans (leaves_store (.inr rfl) rfl rfl)
  | pipe fi fo =>
    cases h
    set ctx := setFdConn (setFdConn j.ctx ev.pid fi (newSimpleStream (j.gensymCt + 1)).1) ev.pid fo
      (newSimpleStream j.gensymCt).1
    set rid := dgnGet j.ctx ⟨ev.tid, ev.pid⟩
    have hin : Leaves E c ctx (setMsg ctx (j.gensymCt + 1 + 1) ev.pid fi fakeMsgId rid).1 :=
      leaves_store (.inr rfl) rfl rfl
    exact (((leaves_setFdConn hE ha.1 _).trans (leaves_setFdConn hE ha.2 _)).trans hin).trans
      (leaves_store (.inr rfl) rfl rfl)
  | dup oldfd newfd =>
    cases h
    exact leaves_setFdConn hE ha _
  | accept fd rdv =>
    cases h
    exact leaves_setFdConn hE ha _
  | connect fd rdv =>
    obtain ⟨j₁, hj₁, hrenamed, -⟩ := joinRename_spec o j ev fd fun _ => ⟨.hostPort rdv⟩
    cases hj₁.symm.trans h
    exact leaves_renamed hrenamed (.inr ⟨connOfFd_ne hname ha.1, ha.2.symm⟩) hfds
  | protocolInit fd =>
    obtain ⟨j₁, hj₁, hrenamed, -⟩ := joinRename_spec o j ev fd fun conn => ⟨conn.id⟩
    cases hj₁.symm.trans h
    exact leaves_renamed hrenamed (.inl rfl) hfds
  | messageSend prot fd k =>
    cases h
    have hne : j.ctx.cFd.find? (ev.pid, fd) ≠ some c := by
      intro hfd
      obtain ⟨x, hx⟩ := Option.isSome_iff_exists.1 (ha hfd)
      exact hs x k (by simp only [said, hx, Option.map_some])
    exact leaves_store (.inl (connOfFd_ne hname hne)) rfl rfl
  | messageRecv prot fd k =>
    cases h
    obtain ⟨g, arid, msg, -, hctx, -⟩ := joinRecv_eq port j ev prot fd k
    rw [hctx]
    exact leaves_store (.inr rfl) rfl rfl
  | read fd =>
    cases h
    refine leaves_of_eq ?_ ?_
    · exact (apply_ite Ctx.cFd ..).trans (ite_self _)
    · exact (apply_ite Ctx.cConn ..).trans (ite_self _)
  | poll timedOut fd => cases timedOut <;> cases h <;> exact leaves_of_eq rfl rfl
  | unknown => cases h
  | _ =>
    cases h
    exact leaves_of_eq rfl rfl

/-! ## The messages on their way -/

/-- What was said before step `i`. -/
def talkBefore (E : Ends) (l : List (Made Joiner Stream)) (i : ℕ) : Talk :=
  talkOf ((l.take i).filterMap fun m => said E m.event)

/-- The ends have the connection `c`, and each message that is on its way has its entry: what the
thread that sent it was working on. The steps `l` have been made, in which `t` was said. -/
structure Conversing (E : Ends) (c : Conn) (l : List (Made Joiner Stream)) (t : Talk)
    (j : Joiner) : Prop where
  fds : ∀ x, j.ctx.cFd.find? (E.pid x, E.fd x) = some c
  onWay : ∀ x r k, (t.received x.other).length ≤ r → (t.sent x)[r]? = some k →
    k ≠ fakeMsgId ∧ ∃ (i : ℕ) (n : Made Joiner Stream), l[i]? = some n ∧
      said E n.event = some (.sent x k) ∧ (talkBefore E l i).sent x = (t.sent x).take r ∧
        j.ctx.cConn.find? (c, k) = some (dgnGet n.before.ctx n.event.mid)

variable {l : List (Made Joiner Stream)} {t : Talk}

theorem talkBefore_append {i : ℕ} {n : Made Joiner Stream} (h : l[i]? = some n)
    (l' : List (Made Joiner Stream)) : talkBefore E (l ++ l') i = talkBefore E l i := by
  obtain ⟨hi, -⟩ := List.getElem?_eq_some_iff.1 h
  rw [talkBefore, talkBefore, List.take_append_of_le_length hi.le]

/-- A step after which the entries are as before. -/
theorem Conversing.leaves (h : Conversing E c l t j) (hl : Leaves E c j.ctx j'.ctx)
    (m : Made Joiner Stream) : Conversing E c (l ++ [m]) t j' where
  fds x := (hl.fd x).trans (h.fds x)
  onWay x r k hr hk := by
    obtain ⟨hfake, i, n, hn, hsaid, hbefore, hfind⟩ := h.onWay x r k hr hk
    refine ⟨hfake, i, n, getElem?_append_of_eq_some hn _, hsaid, ?_, ?_⟩
    · rw [talkBefore_append hn, hbefore]
    · rw [hl.entry k hfake, hfind]

/-- A message that was received is not on its way any more. -/
theorem Conversing.received (h : Conversing E c l t j) (x : Side) (k : ℤ) :
    Conversing E c l (t.next (.received x k)) j := by
  refine ⟨h.fds, fun y r k' hr hk' => h.onWay y r k' (Nat.le_trans ?_ hr) hk'⟩
  by_cases hy : y.other = x
  · rw [hy]
    simp only [Talk.next, Function.update_self, List.length_append]
    omega
  · simp only [Talk.next, Function.update_of_ne hy]
    exact Nat.le_refl _

/-- A message is sent, when no message of the other side is on its way. -/
theorem Conversing.sent (hE : E.Distinct) (h : Conversing E c l t j)
    (ht : t = talkBefore E l l.length) (hsaid : said E e = some (.sent x k))
    (hall : t.received x = t.sent x.other) (hfresh : k ∉ t.onWay x) (hfake : k ≠ fakeMsgId)
    (hj : joinStep o port j e = .ok j') :
    Conversing E c (l ++ [⟨j, e, j'⟩]) (t.next (.sent x k)) j' := by
  obtain ⟨prot, htype, hpid⟩ := (said_eq_sent hE).1 hsaid
  obtain ⟨type, ev⟩ := e
  obtain rfl : type = .messageSend prot (E.fd x) k := htype
  have hfd : (clearFlags j.ctx).cFd.find? (ev.pid, E.fd x) = some c := by
    rw [show ev.pid = E.pid x from hpid]
    exact h.fds x
  obtain ⟨hcFd, hcConn⟩ := joinSend_ctx (j := { j with ctx := clearFlags j.ctx }) ev hfd prot k
  cases hj
  refine ⟨fun y => ?_, fun y r k' hr hk' => ?_⟩
  · rw [hcFd]
    exact h.fds y
  rw [hcConn]
  rcases x.eq_or_eq_other y with rfl | rfl
  · change (t.received y.other).length ≤ r at hr
    simp only [Talk.next, Function.update_self] at hk' ⊢
    rw [List.getElem?_append] at hk'
    split_ifs at hk' with hlt
    · obtain ⟨hfake', i, n, hn, hsent, hbefore, hfind⟩ := h.onWay y r k' hr hk'
      refine ⟨hfake', i, n, getElem?_append_of_eq_some hn _, hsent, ?_, ?_⟩
      · rw [talkBefore_append hn, hbefore, List.take_append_of_le_length hlt.le]
      · rw [Hashtbl.find?_replace_of_ne]
        · exact hfind
        · rintro heq
          obtain rfl : k = k' := by simpa using heq
          have hway : (t.onWay y)[r - (t.received y.other).length]? = some k := by
            rw [Talk.onWay, List.getElem?_drop, Nat.add_sub_cancel' hr, hk']
          exact hfresh (List.mem_of_getElem? hway)
    · -- the message just sent
      obtain ⟨hlen, rfl⟩ : r = (t.sent y).length ∧ k = k' := by
        rw [List.getElem?_singleton] at hk'
        split_ifs at hk' with hzero
        exact ⟨by omega, Option.some_inj.1 hk'⟩
      refine ⟨hfake, l.length, _, List.getElem?_concat_length, hsaid, ?_, ?_⟩
      · rw [talkBefore, List.take_left, hlen, List.take_left, ht, talkBefore, List.take_length]
      · rw [Hashtbl.find?_replace_self]
        exact congrArg some (dgnGet_clearFlags ..)
  · -- nothing of the other side is on its way
    simp only [Talk.next, Side.other_other, Function.update_of_ne (Side.other_ne x)] at hr hk'
    obtain ⟨hlt, -⟩ := List.getElem?_eq_some_iff.1 hk'
    rw [hall] at hr
    omega

/-- An event, after which `a` is said if it is of a message at an end. -/
theorem Conversing.step (hE : E.Distinct) (hname : ∀ i, c ≠ ⟨.genSym i⟩)
    (h : Conversing E c l t j) (ht : t = talkBefore E l l.length) (ha : Apart E c j.ctx e)
    (hall : ∀ a, said E e = some a → t.Allows a)
    (hfresh : ∀ a, said E e = some a → t.Fresh a)
    (hj : joinStep o port j e = .ok j') :
    Conversing E c (l ++ [⟨j, e, j'⟩]) ((said E e).elim t t.next) j' := by
  have hclear : Leaves E c j.ctx (clearFlags j.ctx) := leaves_of_eq rfl rfl
  have hleaves : (∀ x k, said E e ≠ some (.sent x k)) → Leaves E c j.ctx j'.ctx := fun hs =>
    hclear.trans
      (streamJoin_leaves (j := { j with ctx := clearFlags j.ctx }) hE hname h.fds ha hs hj)
  rcases hsaid : said E e with _ | ⟨x, k⟩ | ⟨x, k⟩
  · refine h.leaves (hleaves fun _ _ => ?_) _
    simp [hsaid]
  · obtain ⟨hnew, hfake⟩ := hfresh _ hsaid
    exact h.sent hE ht hsaid (hall _ hsaid) hnew hfake hj
  · refine (h.leaves (hleaves fun _ _ => ?_) _).received x k
    simp [hsaid]

/-- What is said in the events of a prefix. -/
theorem prefix_filterMap {pre es : List Stream} (hpre : pre ++ [e] <+: es) {a : Said}
    (hsaid : said E e = some a) :
    pre.filterMap (said E) ++ [a] <+: es.filterMap (said E) := by
  have := hpre.filterMap (said E)
  rwa [List.filterMap_append, List.filterMap_cons_some hsaid, List.filterMap_nil] at this

/-- What is said in the steps that a run makes. -/
theorem talkBefore_madeSteps {j₀ : Joiner} {es : List Stream}
    (hrun : runSteps (joinStep o port) j₀ es = .ok j) :
    talkBefore E (madeSteps (joinStep o port) j₀ es)
      (madeSteps (joinStep o port) j₀ es).length = talkOf (es.filterMap (said E)) := by
  rw [talkBefore, List.take_length]
  congr 1
  induction es generalizing j₀ with
  | nil => rfl
  | cons e es ih =>
    obtain ⟨j₁, hj, hrun'⟩ := bind_eq_ok hrun
    rw [madeSteps_of_ok hj, List.filterMap_cons, List.filterMap_cons, ih hrun']

/-- The invariant of a conversation. -/
theorem conversing {j₀ : Joiner} (hE : E.Distinct) (hname : ∀ i, c ≠ ⟨.genSym i⟩)
    (hfds : ∀ x, j₀.ctx.cFd.find? (E.pid x, E.fd x) = some c) {es : List Stream}
    (ht : HalfDuplex (es.filterMap (said E))) (hf : FreshNumbers (es.filterMap (said E)))
    (ha : Along (joinStep o port) j₀ es fun j e => Apart E c j.ctx e) {pre : List Stream}
    (hpre : pre <+: es) (hrun : runSteps (joinStep o port) j₀ pre = .ok j) :
    Conversing E c (madeSteps (joinStep o port) j₀ pre) (talkOf (pre.filterMap (said E))) j := by
  induction pre using List.reverseRecOn generalizing j with
  | nil =>
    cases hrun
    refine ⟨hfds, fun x r k _ hk => ?_⟩
    cases hk
  | append_singleton pre e ih =>
    obtain ⟨j₁, hrun₁, hj⟩ := runSteps_concat_eq_ok hrun
    have hstep := (ih ((List.prefix_append pre [e]).trans hpre) hrun₁).step hE hname
      (talkBefore_madeSteps hrun₁).symm (ha pre e hpre j₁ j hrun₁ hj)
      (fun a hsaid => ht _ a (prefix_filterMap hpre hsaid))
      (fun a hsaid => hf _ a (prefix_filterMap hpre hsaid)) hj
    rw [madeSteps_concat hrun₁ hj, List.filterMap_append]
    rcases hsaid : said E e with _ | a
    · rw [hsaid] at hstep
      rw [List.filterMap_cons_none hsaid, List.filterMap_nil, List.append_nil]
      exact hstep
    · rw [hsaid] at hstep
      rw [List.filterMap_cons_some hsaid, List.filterMap_nil, talkOf_concat]
      exact hstep

/-- A message that is received on a connection that is not distinguished. -/
theorem dgn_of_received (hE : E.Distinct) (hc : distinguishedConn port c = false)
    (hfds : ∀ x, j.ctx.cFd.find? (E.pid x, E.fd x) = some c)
    (hsaid : said E e = some (.received x k)) (hj : joinStep o port j e = .ok j') :
    dgnGet j'.ctx e.mid = (j.ctx.cConn.find? (c, k)).getD (-1) := by
  obtain ⟨prot, htype, hpid⟩ := (said_eq_received hE).1 hsaid
  obtain ⟨type, ev⟩ := e
  obtain rfl : type = .messageRecv prot (E.fd x) k := htype
  have hfd : (clearFlags j.ctx).cFd.find? (ev.pid, E.fd x) = some c := by
    rw [show ev.pid = E.pid x from hpid]
    exact hfds x
  obtain ⟨-, -, hdgn⟩ := joinRecv_ctx (j := { j with ctx := clearFlags j.ctx }) ev hc hfd prot k
  cases hj
  exact hdgn

/-- In the steps `l` each message received by a side is one that the other side sent, the next after
those received before, and gives the receiver the request its sender was working on. -/
def AllAttributed (E : Ends) (l : List (Made Joiner Stream)) : Prop :=
  ∀ (i : ℕ) (m : Made Joiner Stream) (x : Side) (k : ℤ), l[i]? = some m →
    said E m.event = some (.received x k) →
      ∃ (i' : ℕ) (n : Made Joiner Stream), i' < i ∧ l[i']? = some n ∧
        said E n.event = some (.sent x.other k) ∧
          (talkBefore E l i').sent x.other = (talkBefore E l i).received x ∧
            dgnGet m.after.ctx m.event.mid = dgnGet n.before.ctx n.event.mid

/-- **Attribution of a conversation.** When the two sides of a connection that is not distinguished
take turns, the numbers of the messages on their way differ and all other events leave the
connection to its sides, all messages are attributed to the requests they were sent for. -/
theorem conversation_attributed (hE : E.Distinct) (hname : ∀ i, c ≠ ⟨.genSym i⟩)
    (hc : distinguishedConn port c = false)
    (hfds : ∀ x, j.ctx.cFd.find? (E.pid x, E.fd x) = some c) {es : List Stream}
    (ht : HalfDuplex (es.filterMap (said E))) (hf : FreshNumbers (es.filterMap (said E)))
    (ha : Along (joinStep o port) j es fun j e => Apart E c j.ctx e) :
    AllAttributed E (madeSteps (joinStep o port) j es) := by
  intro i m x k hm hsaid
  obtain ⟨pre, hpre, hrun, hstep, hmade⟩ := madeSteps_get hm
  have hconv := conversing hE hname hfds ht hf ha ((List.prefix_append pre _).trans hpre) hrun
  obtain ⟨rest, hrest⟩ := ht _ _ (prefix_filterMap hpre hsaid)
  have hbefore : talkBefore E (madeSteps (joinStep o port) j es) i =
      talkOf (pre.filterMap (said E)) := by
    rw [← talkBefore_madeSteps hrun, hmade, talkBefore, talkBefore, List.take_length]
  obtain ⟨-, i', n, hn, hsent, htalk, hfind⟩ :=
    hconv.onWay x.other ((talkOf (pre.filterMap (said E))).received x).length k
      (by rw [Side.other_other]) (by rw [← hrest]; simp)
  rw [hmade, List.getElem?_take] at hn
  split_ifs at hn with hi
  refine ⟨i', n, hi, hn, hsent, ?_, ?_⟩
  · rw [hmade, talkBefore, List.take_take, Nat.min_eq_left hi.le, ← hrest, List.append_assoc,
      List.take_left] at htalk
    rw [hbefore, ← htalk]
    rfl
  · rw [dgn_of_received hE hc hconv.fds hsaid hstep, hfind, Option.getD_some]

/-! ## A request and its answer -/

/-- A request is sent to a process, which opens a file and answers. -/
def answeredRequest : List Stream :=
  [⟨.messageSend (ascii "PP_PSQLC") 5 0, { turnEvent .a with pid := 10 }⟩,
    ⟨.messageRecv (ascii "PP_PSQLS") 6 0, { turnEvent .b with pid := 20 }⟩,
    ⟨.open 7, { turnEvent .b with pid := 20 }⟩,
    ⟨.messageSend (ascii "PP_PSQLS") 6 0, { turnEvent .b with pid := 20 }⟩,
    ⟨.messageRecv (ascii "PP_PSQLC") 5 0, { turnEvent .a with pid := 10 }⟩]

/-- What is said in it. -/
def answeredSaid : List Said := [] ++ [.sent .a 0] ++ [.received .b 0] ++ [.sent .b 0] ++
  [.received .a 0]

theorem said_answeredRequest : answeredRequest.filterMap (said connectedEnds) = answeredSaid := by
  decide

theorem halfDuplex_answeredSaid : HalfDuplex answeredSaid := by
  simp only [answeredSaid, HalfDuplex, atEach_concat]
  exact ⟨⟨⟨⟨atEach_nil, rfl⟩, List.prefix_refl _⟩, rfl⟩, List.prefix_refl _⟩

theorem freshNumbers_answeredSaid : FreshNumbers answeredSaid := by
  simp only [answeredSaid, FreshNumbers, atEach_concat]
  exact ⟨⟨⟨⟨atEach_nil, List.not_mem_nil, by decide⟩, trivial⟩, List.not_mem_nil, by decide⟩,
    trivial⟩

theorem apart_answeredRequest : Along (joinStep .listed 80) connected answeredRequest
    fun j e => Apart connectedEnds connectedConn j.ctx e := by
  refine along_cons.2 fun j₁ _ => ⟨fun _ => rfl, along_cons.2 fun j₂ _ => ⟨trivial, ?_⟩⟩
  refine along_cons.2 fun j₃ _ => ⟨rfl, along_cons.2 fun j₄ _ => ⟨fun _ => rfl, ?_⟩⟩
  exact along_cons.2 fun j₅ _ => ⟨trivial, along_nil⟩

theorem conversation_attributed_answeredRequest :
    AllAttributed connectedEnds (madeSteps (joinStep .listed 80) connected answeredRequest) := by
  refine conversation_attributed (c := connectedConn) (fun h => absurd h.1 (by decide))
    (fun i => by simp [connectedConn]) (by decide +kernel) connected_fds ?_ ?_ apart_answeredRequest
  · rw [said_answeredRequest]
    exact halfDuplex_answeredSaid
  · rw [said_answeredRequest]
    exact freshNumbers_answeredSaid

end BorderPatrol.Agg
