import BorderPatrol.Agg.Join
import BorderPatrol.Foundations.Runs

/-!
# Where request ids come from

The ids a context holds, in the designations of threads, in the entries of messages (hidden ones
too) and in the messages of the last event, are `-1` or were given out by `genrid` at the head of a
request on a distinguished connection. No event makes up an id: it moves ids that are there, or
writes `-1`, or writes the id it has been given out (`Within.streamJoin`).
-/

namespace BorderPatrol.Agg

open Foundations

/-- The ids a context holds. -/
def Ctx.rids (ctx : Ctx) : List ℤ :=
  ctx.cDgn.map Dgn.rid ++ ctx.cConn.vals ++ ctx.cMsgs.map Msg.rid

/-- What `genrid` gives out at an event: an id at a `MessageRecv` whose connection is
distinguished. -/
def begun (port : ℤ) (j : Joiner) (stream : Stream) : List ℤ :=
  match stream.sType with
  | .messageRecv _ fd _ =>
    if distinguishedConn port (connOfFd j.ctx j.gensymCt stream.sEv.pid fd).1 then
      [(genrid j.genridCt).1]
    else []
  | _ => []

/-- What it gives out along a run. -/
def issued (o : Orders) (port : ℤ) : Joiner → List Stream → List ℤ
  | _, [] => []
  | j, e :: es => begun port j e ++ match joinStep o port j e with
    | .ok j => issued o port j es
    | .error _ => []

variable {o : Orders} {port : ℤ} {S : Set ℤ} {ctx : Ctx} {rid : ℤ}

/-! ## The context -/

theorem mem_rids {r : ℤ} : r ∈ ctx.rids ↔
    (∃ d ∈ ctx.cDgn, d.rid = r) ∨ r ∈ ctx.cConn.vals ∨ ∃ m ∈ ctx.cMsgs, m.rid = r := by
  simp only [Ctx.rids, List.mem_append, List.mem_map, or_assoc]

/-- All ids of the context are in `S`, which has `-1`. -/
structure Within (S : Set ℤ) (ctx : Ctx) : Prop where
  none : -1 ∈ S
  dgn : ∀ d ∈ ctx.cDgn, d.rid ∈ S
  conn : ∀ r ∈ ctx.cConn.vals, r ∈ S
  msgs : ∀ m ∈ ctx.cMsgs, m.rid ∈ S

theorem Within.mem (h : Within S ctx) {r : ℤ} (hr : r ∈ ctx.rids) : r ∈ S := by
  rcases mem_rids.1 hr with ⟨d, hd, rfl⟩ | hr | ⟨m, hm, rfl⟩
  · exact h.dgn d hd
  · exact h.conn r hr
  · exact h.msgs m hm

theorem Within.clearFlags (h : Within S ctx) : Within S (clearFlags ctx) where
  none := h.none
  dgn := by
    intro d hd
    obtain ⟨d', hd', rfl⟩ := List.mem_map.1 hd
    exact h.dgn d' hd'
  conn := h.conn
  msgs := fun _ hm => absurd hm (List.not_mem_nil)

theorem Within.dgnGet (h : Within S ctx) (mid : Mid) : dgnGet ctx mid ∈ S := by
  unfold Agg.dgnGet
  split
  · next d hd => exact h.dgn d (List.mem_of_find?_eq_some hd)
  · exact h.none

theorem Within.ridOfMsg (h : Within S ctx) (g pid fd msgid : ℤ) :
    (ridOfMsg ctx g pid fd msgid).1 ∈ S := by
  simp only [Agg.ridOfMsg]
  generalize (connOfFd ctx g pid fd).1 = conn
  rcases hfind : ctx.cConn.find? (conn, msgid) with _ | rid
  · exact h.none
  · exact h.conn rid (Hashtbl.mem_vals_of_find? hfind)

theorem Within.dgnSet (h : Within S ctx) (hrid : rid ∈ S) (mid : Mid) :
    Within S (dgnSet ctx mid rid) where
  none := h.none
  dgn := by
    intro d hd
    simp only [Agg.dgnSet] at hd
    split at hd
    · obtain ⟨d', hd', rfl⟩ := List.mem_map.1 hd
      split
      · exact hrid
      · exact h.dgn d' hd'
    · rcases List.mem_append.1 hd with hd | hd
      · exact h.dgn d hd
      · rw [List.mem_singleton.1 hd]
        exact hrid
  conn := h.conn
  msgs := h.msgs

theorem Within.setFdConn (h : Within S ctx) (pid fd : ℤ) (conn : Conn) :
    Within S (setFdConn ctx pid fd conn) := ⟨h.none, h.dgn, h.conn, h.msgs⟩

theorem Within.setMsg (h : Within S ctx) (hrid : rid ∈ S) (g pid fd msgid : ℤ) :
    Within S (setMsg ctx g pid fd msgid rid).1 where
  none := h.none
  dgn := h.dgn
  conn := by
    intro r hr
    rcases Hashtbl.mem_vals_replace hr with rfl | hr
    · exact hrid
    · exact h.conn r hr
  msgs := h.msgs

theorem Within.addMsg (h : Within S ctx) {msg : Msg} (hrid : msg.rid ∈ S) :
    Within S (addMsg ctx msg) where
  none := h.none
  dgn := h.dgn
  conn := h.conn
  msgs := by
    intro m hm
    rcases List.mem_append.1 hm with hm | hm
    · exact h.msgs m hm
    · rw [List.mem_singleton.1 hm]
      exact hrid

/-- Renaming a connection moves the ids of its messages, hidden ones too. -/
theorem vals_renameMsg {conn' : Conn} {t t' : Hashtbl (Conn × ℤ) ℤ} {cm : Conn × ℤ}
    (h : renameMsg conn' t cm = .ok t') {r : ℤ} (hr : r ∈ t'.vals) : r ∈ t.vals := by
  unfold renameMsg at h
  split at h
  · next rid hfind =>
    cases h
    rw [Hashtbl.vals_add] at hr
    rcases List.mem_cons.1 hr with rfl | hr
    · exact Hashtbl.mem_vals_of_find? hfind
    · exact Hashtbl.mem_vals_remove hr
  · cases h

theorem vals_renameMsgs {conn' : Conn} {cms : List (Conn × ℤ)} {t t' : Hashtbl (Conn × ℤ) ℤ}
    (h : cms.foldlM (renameMsg conn') t = .ok t') {r : ℤ} (hr : r ∈ t'.vals) : r ∈ t.vals := by
  induction cms generalizing t with
  | nil =>
    cases h
    exact hr
  | cons cm cms ih =>
    rw [List.foldlM_cons] at h
    rcases h₁ : renameMsg conn' t cm with e | t₁
    · rw [h₁] at h
      cases h
    · rw [h₁, ok_bind] at h
      exact vals_renameMsg h₁ (ih h)

theorem Within.replaceAllConn (h : Within S ctx) {conn conn' : Conn} {ctx' : Ctx}
    (hr : replaceAllConn o ctx conn conn' = .ok ctx') : Within S ctx' := by
  unfold Agg.replaceAllConn at hr
  rcases hfold : List.foldlM (renameMsg conn') ctx.cConn
      ((htKeylist o.conn ctx.cConn).filter fun cm => connEq cm.1 conn) with e | cConn
  · simp only [hfold, error_bind] at hr
    cases hr
  · simp only [hfold, ok_bind] at hr
    cases hr
    exact ⟨h.none, h.dgn, fun r hr => h.conn r (vals_renameMsgs hfold hr), h.msgs⟩

/-! ## The events -/

variable {j j' : Joiner} {stream : Stream}

theorem Within.joinOpen (h : Within S j.ctx) (ev : Event) (fd : ℤ) :
    Within S (joinOpen j ev fd).ctx :=
  (h.setFdConn ..).setMsg (h.dgnGet _) ..

theorem Within.joinPipe (h : Within S j.ctx) (ev : Event) (fi fo : ℤ) :
    Within S (joinPipe j ev fi fo).ctx :=
  (((h.setFdConn ..).setFdConn ..).setMsg (h.dgnGet _) ..).setMsg (h.dgnGet _) ..

theorem Within.joinSend (h : Within S j.ctx) (ev : Event) (prot : List Byte) (fd msgid : ℤ) :
    Within S (joinSend j ev prot fd msgid).ctx :=
  (h.setMsg (h.dgnGet _) ..).addMsg (h.dgnGet _)

theorem Within.joinRecv (h : Within S j.ctx) {ev : Event} {prot : List Byte} {fd msgid : ℤ}
    (hb : ∀ r ∈ begun port j ⟨.messageRecv prot fd msgid, ev⟩, r ∈ S) :
    Within S (joinRecv port j ev prot fd msgid).ctx ∧
      (Agg.joinRecv port j ev prot fd msgid).genridCt =
        j.genridCt + (begun port j ⟨.messageRecv prot fd msgid, ev⟩).length := by
  simp only [begun] at hb ⊢
  unfold Agg.joinRecv
  by_cases hd : distinguishedConn port (connOfFd j.ctx j.gensymCt ev.pid fd).1 = true
  · simp only [hd, if_true] at hb ⊢
    have harid := hb _ (List.mem_singleton_self _)
    exact ⟨((h.dgnSet harid _).setMsg harid ..).addMsg (h.ridOfMsg ..), rfl⟩
  · simp only [hd]
    have harid := h.ridOfMsg (connOfFd j.ctx j.gensymCt ev.pid fd).2 ev.pid fd msgid
    exact ⟨((h.dgnSet harid _).setMsg harid ..).addMsg (h.ridOfMsg ..), (Int.add_zero _).symm⟩

theorem Within.joinRename (h : Within S j.ctx) {ev : Event} {fd : ℤ} {name : Conn → Conn}
    (hr : joinRename o j ev fd name = .ok j') : Within S j'.ctx ∧ j'.genridCt = j.genridCt := by
  unfold Agg.joinRename at hr
  simp only at hr
  rcases hctx : Agg.replaceAllConn o j.ctx (connOfFd j.ctx j.gensymCt ev.pid fd).1
      (name (connOfFd j.ctx j.gensymCt ev.pid fd).1) with e | ctx
  · rw [hctx] at hr
    cases hr
  · rw [hctx, ok_bind] at hr
    cases hr
    exact ⟨h.replaceAllConn hctx, rfl⟩

theorem Within.handleFork (h : Within S ctx) (pmid mid : Mid) :
    Within S (handleFork o ctx pmid mid) := by
  have h' : ∀ cFd, Within S { ctx with cFd := cFd } := fun _ => ⟨h.none, h.dgn, h.conn, h.msgs⟩
  exact (h' _).dgnSet (h.dgnGet _) _

/-- **An event makes up no id**: it writes ids the context has, `-1`, or the id it is given out. -/
theorem Within.streamJoin (h : Within S j.ctx) (hb : ∀ r ∈ begun port j stream, r ∈ S)
    (hj : streamJoin o port j stream = .ok j') :
    Within S j'.ctx ∧ j'.genridCt = j.genridCt + (begun port j stream).length := by
  obtain ⟨type, ev⟩ := stream
  have hnone : ∀ g : ℤ, g = g + ([] : List ℤ).length := fun g => (Int.add_zero g).symm
  unfold Agg.streamJoin at hj
  cases type with
  | fork pid tid =>
    cases hj
    exact ⟨h.handleFork .., hnone _⟩
  | exec tid =>
    cases hj
    refine ⟨⟨h.none, fun d hd => ?_, h.conn, h.msgs⟩, hnone _⟩
    obtain ⟨d', hd', rfl⟩ := List.mem_map.1 hd
    split <;> exact h.dgn d' hd'
  | poll timedOut fd =>
    cases timedOut <;> cases hj
    · exact ⟨h.dgnSet (h.ridOfMsg ..) _, hnone _⟩
    · exact ⟨h, hnone _⟩
  | «open» fd =>
    cases hj
    exact ⟨h.joinOpen .., hnone _⟩
  | socket fd =>
    cases hj
    exact ⟨h.joinOpen .., hnone _⟩
  | pipe fi fo =>
    cases hj
    exact ⟨h.joinPipe .., hnone _⟩
  | dup oldfd newfd =>
    cases hj
    exact ⟨h.setFdConn .., hnone _⟩
  | accept fd rdv =>
    cases hj
    exact ⟨h.setFdConn .., hnone _⟩
  | connect fd rdv =>
    obtain ⟨h', hg⟩ := h.joinRename hj
    exact ⟨h', hg.trans (hnone _)⟩
  | protocolInit fd =>
    obtain ⟨h', hg⟩ := h.joinRename hj
    exact ⟨h', hg.trans (hnone _)⟩
  | read fd =>
    cases hj
    have hset : ∀ r ∈ S,
        Within S (if r = -1 then j.ctx else Agg.dgnSet j.ctx ⟨ev.tid, ev.pid⟩ r) := by
      intro r hr
      split
      · exact h
      · exact h.dgnSet hr _
    exact ⟨hset _ (h.ridOfMsg ..), hnone _⟩
  | messageSend prot fd msgid =>
    cases hj
    exact ⟨h.joinSend .., hnone _⟩
  | messageRecv prot fd msgid =>
    cases hj
    exact h.joinRecv hb
  | exit =>
    cases hj
    exact ⟨h.dgnSet h.none _, hnone _⟩
  | abort =>
    cases hj
    exact ⟨h.dgnSet h.none _, hnone _⟩
  | shutdown =>
    cases hj
    exact ⟨h.dgnSet h.none _, hnone _⟩
  | unknown => cases hj
  | _ =>
    cases hj
    exact ⟨h, hnone _⟩

/-! ## Runs -/

/-- An event gives out the next id, or none. -/
theorem begun_cases (port : ℤ) (j : Joiner) (stream : Stream) :
    begun port j stream = [] ∨ begun port j stream = [j.genridCt + 1] := by
  unfold begun
  split
  · split
    · exact Or.inr rfl
    · exact Or.inl rfl
  · exact Or.inl rfl

theorem joinStep_ok {e : Stream} (h : joinStep o port j e = .ok j') :
    j'.genridCt = j.genridCt + (begun port j e).length :=
  (Within.streamJoin (S := Set.univ) (j := { j with ctx := clearFlags j.ctx })
    ⟨trivial, fun _ _ => trivial, fun _ _ => trivial, fun _ _ => trivial⟩ (fun _ _ => trivial) h).2

/-- A run gives out ids in order, beyond where the counter was and up to where it is. -/
theorem issued_sorted {es : List Stream} (h : runSteps (joinStep o port) j es = .ok j') :
    j.genridCt ≤ j'.genridCt ∧ (issued o port j es).Pairwise (· < ·) ∧
      ∀ r ∈ issued o port j es, j.genridCt < r ∧ r ≤ j'.genridCt := by
  induction es generalizing j with
  | nil =>
    cases h
    exact ⟨Int.le_refl _, List.Pairwise.nil, fun _ hr => absurd hr (List.not_mem_nil)⟩
  | cons e es ih =>
    rcases hstep : joinStep o port j e with err | j₁
    · rw [runSteps, hstep] at h
      cases h
    rw [runSteps, hstep, ok_bind] at h
    obtain ⟨hle, hsorted, hbetween⟩ := ih h
    have hct := joinStep_ok hstep
    simp only [issued, hstep]
    rcases begun_cases port j e with hb | hb
    · rw [hb] at hct ⊢
      simp only [List.length_nil, Int.natCast_zero, Int.add_zero] at hct
      rw [List.nil_append]
      rw [hct] at hle hbetween
      exact ⟨hle, hsorted, hbetween⟩
    · rw [hb] at hct ⊢
      simp only [List.length_singleton, Int.natCast_one] at hct
      rw [List.singleton_append]
      refine ⟨by omega, List.pairwise_cons.2 ⟨fun r hr => ?_, hsorted⟩, fun r hr => ?_⟩
      · have := hbetween r hr
        omega
      · rcases List.mem_cons.1 hr with rfl | hr
        · omega
        · have := hbetween r hr
          omega

/-- The ids in the context after a run were there, or are `-1`, or were given out. -/
theorem within_run {es : List Stream} (hS : Within S j.ctx) (hi : ∀ r ∈ issued o port j es, r ∈ S)
    (h : runSteps (joinStep o port) j es = .ok j') : Within S j'.ctx := by
  induction es generalizing j with
  | nil =>
    cases h
    exact hS
  | cons e es ih =>
    rcases hstep : joinStep o port j e with err | j₁
    · rw [runSteps, hstep] at h
      cases h
    rw [runSteps, hstep, ok_bind] at h
    simp only [issued, hstep, List.mem_append] at hi
    have h₁ := (Within.streamJoin (j := { j with ctx := clearFlags j.ctx }) hS.clearFlags
      (fun r hr => hi r (Or.inl hr)) hstep).1
    exact ih h₁ (fun r hr => hi r (Or.inr hr)) h

/-- **Provenance of request ids.** After any events from the empty context every id in the context
is `-1` or was given out at one of the events, at the head of a request on a distinguished
connection. No two heads are given one id, and the ids given out lie between 1 and the counter. -/
theorem rids_have_provenance {es : List Stream} {j : Joiner}
    (h : runSteps (joinStep o port) .start es = .ok j) :
    (∀ r ∈ j.ctx.rids, r = -1 ∨ r ∈ issued o port .start es) ∧ (issued o port .start es).Nodup ∧
      ∀ r ∈ issued o port .start es, 1 ≤ r ∧ r ≤ j.genridCt := by
  obtain ⟨-, hsorted, hbetween⟩ := issued_sorted h
  have hempty : Within {r | r = -1 ∨ r ∈ issued o port .start es} Joiner.start.ctx :=
    ⟨Or.inl rfl, fun _ hd => absurd hd (List.not_mem_nil), fun _ hr => absurd hr (List.not_mem_nil),
      fun _ hm => absurd hm (List.not_mem_nil)⟩
  have hrun := within_run hempty (fun r hr => Or.inr hr) h
  refine ⟨fun r hr => hrun.mem hr, hsorted.imp fun hlt => hlt.ne, fun r hr => ?_⟩
  obtain ⟨hlt, hle⟩ := hbetween r hr
  have hzero : Joiner.start.genridCt = 0 := rfl
  exact ⟨by omega, hle⟩

/-- A request is received and its thread exits. -/
def oneRequest : List Stream :=
  [eventOf 10 1 (.accept 4 (ascii "10.0.0.9:1000->10.0.0.1:80")),
    eventOf 10 1 (.messageRecv (ascii "PP_HTTPS") 4 0), eventOf 10 1 .exit]

theorem rids_have_provenance_oneRequest :
    ∃ j, runSteps (joinStep .listed 80) .start oneRequest = .ok j ∧
      (∀ r ∈ j.ctx.rids, r = -1 ∨ r ∈ issued .listed 80 .start oneRequest) ∧
      (issued .listed 80 .start oneRequest).Nodup ∧
      ∀ r ∈ issued .listed 80 .start oneRequest, 1 ≤ r ∧ r ≤ j.genridCt :=
  ⟨_, rfl, rids_have_provenance rfl⟩

end BorderPatrol.Agg
