import BorderPatrol.Agg.Conversations
import BorderPatrol.Trace.Duplex
import BorderPatrol.Trace.Numbering

/-!
# Traced sessions

Two processes under the tracer have the ends of a connection, with processors that run the parsers
of one protocol (`Dialogue`). The kernel gives to each side what it has taken from the other, and a
side sends when its application has been given everything. Then all calls go through, in any order
and in any pieces, and what the processors report is a conversation in which the sides take turns
(`session_speaks`): each message reported as received was reported as sent, with the same number. A
call is one step here, so that a side receives what the other has sent and reported.
-/

namespace BorderPatrol.Agg

open Foundations Foundations.Resumable

/-! ## Sessions -/

/-- A call of a thread at one of the ends. -/
structure SessionCall where
  side : Side
  tid : UInt64
  call : Trace.IoCall

/-- A log call of a thread at one of the ends. -/
structure SessionLog where
  side : Side
  tid : UInt64
  call : Trace.LogCall

/-- What a log call says of a message. Its number is logged as an `int`. -/
def SessionLog.said (e : SessionLog) : Option Said :=
  match e.call.sc with
  | .ppMsgSend => some (.sent e.side (toInt (e.call.args.getD 2 0)))
  | .ppMsgRecv => some (.received e.side (toInt (e.call.args.getD 2 0)))
  | _ => none

variable {σ τ : Type}

/-- The processes of the two sides, what the kernel has taken from each side and returned to it,
what each application has been given, and the log calls of both in their order. -/
structure Session (σ : Type) where
  proc : Side → Trace.Process σ
  wrote : Side → List Byte
  got : Side → List Byte
  given : Side → List Byte
  log : List SessionLog

/-- What has been said. -/
def Session.said (s : Session σ) : List Said := s.log.filterMap SessionLog.said

/-- After a call of the side `x` that was answered with `q`. -/
def Session.record (s : Session σ) (a : SessionCall) (q : Trace.Reply σ) : Session σ where
  proc := Function.update s.proc a.side q.proc
  wrote := Function.update s.wrote a.side (s.wrote a.side ++ a.call.taken)
  got := Function.update s.got a.side (s.got a.side ++ Trace.kernelBytes q.trace)
  given := Function.update s.given a.side (s.given a.side ++ q.out)
  log := s.log ++ (Trace.logs q.trace).map (SessionLog.mk a.side a.tid)

/-- A call, where `fd` has the descriptors of the sides. -/
def sessionStep (fd : Side → ℤ) (s : Session σ) (a : SessionCall) :
    Except Fault (Session σ) :=
  a.call.run (s.proc a.side) (fd a.side) >>= fun q => .ok (s.record a q)

/-- A call that receives gets what comes next of what the other side has sent. -/
def ReceivesOrderly (s : Session σ) (x : Side) (c : Trace.RecvCall) : Prop :=
  c.len < 2 ^ 31 ∧ ∀ n, s.got x ++ (c.kernel 0 n).bytes <+: s.wrote x.other

/-- A call that sends the bytes `b`, of which the kernel takes `r`, has room for them beside those
that the processor has not consumed. When it sends anything, the application of the side has been
given all that the other has sent. -/
def SendsOrderly (fd : Side → ℤ) (s : Session σ) (x : Side) (b : List Byte) (r : ℤ) : Prop :=
  -1 ≤ r ∧ r ≤ b.length ∧ ((s.proc x).vfdTab (fd x)).wbuflen + r ≤ Trace.vbufsize ∧
    (0 < r → s.given x = s.wrote x.other)

/-- The call is made in order. -/
def Orderly (fd : Side → ℤ) (s : Session σ) (a : SessionCall) : Prop :=
  (∃ c, a.call.recvCall = some c ∧ ReceivesOrderly s a.side c) ∨
    ∃ b r, a.call.sent = some (b, r) ∧ SendsOrderly fd s a.side b r

/-! ## Dialogues -/

/-- Processors for the two sides of a connection. Their data has a part for each direction. What a
side writes is parsed by `step`, from the state `init` on, by both. -/
structure Dialogue (σ τ : Type) where
  pp : Side → Trace.PpDispatcher σ
  reading : σ → τ
  writing : σ → τ
  step : Side → Step τ Byte ℤ
  init : Side → τ
  role : Side → ℤ
  name : Side → List Byte
  lawful : ∀ x, Lawful (step x)
  writes : ∀ x s, Trace.Parses (fun d => (pp x).ppWrite d s) writing (step x)
    (Trace.reports .ppMsgSend (role x) s (name x))
  reads : ∀ x s, Trace.Parses (fun d => (pp x).ppRead d s) reading (step x.other)
    (Trace.reports .ppMsgRecv (role x) s (name x))
  keepsWriting : ∀ x s, Trace.KeepsPart (pp x).ppRead s writing Trace.LogCall.OfIo
  keepsReading : ∀ x s, Trace.KeepsPart (pp x).ppWrite s reading Trace.LogCall.OfIo
  writingInit : ∀ x s d, writing ((pp x).ppInit s d).1 = init x
  readingInit : ∀ x s d, reading ((pp x).ppInit s d).1 = init x.other

namespace Dialogue

variable (D : Dialogue σ τ)

/-- Where a parser of what the side `x` has written stands. -/
def parsed (x : Side) (b : List Byte) : Result τ Byte ℤ := drain (D.step x) (D.init x) b

/-- The numbers of the messages in what `x` has written, as they are logged. -/
def spoken (x : Side) (b : List Byte) : List ℤ := (D.parsed x b).out.map toInt

/-- The side `x` has written the bytes `b` to the descriptor `v`, with messages `ks`. -/
structure Writing (x : Side) (v : Trace.Vfd σ) (b : List Byte) (ks : List ℤ) : Prop where
  unwritten : Trace.Unwritten (D.pp x) v (D.parsed x b).rest
  state : D.writing v.ppData = (D.parsed x b).state
  numbers : ks = D.spoken x b

/-- The side `x` has received the bytes `got` from the descriptor `v`, which is `s`, with messages
`ks`, and its application has been given the bytes `given`. -/
def Reading (x : Side) (s : ℤ) (v : Trace.Vfd σ) (got given : List Byte) (ks : List ℤ) : Prop :=
  ∃ f l, Trace.Tracks (D.pp x) (Trace.Following (D.step x.other) D.reading
      (Trace.reports .ppMsgRecv (D.role x) s (D.name x)) (D.init x.other)) v f l ∧
    f.seen = got ∧ f.seen.take f.given = given ∧ ks = (Trace.msgIds .ppMsgRecv l).map toInt

/-- A log call of a message, or a quiet one. -/
def Reported (fd : Side → ℤ) (e : SessionLog) : Prop :=
  (∃ sc i, (sc = .ppMsgSend ∨ sc = .ppMsgRecv) ∧
      e.call = Trace.reports sc (D.role e.side) (fd e.side) (D.name e.side) i) ∨
    e.call.sc.quiet = true

variable {D} {x : Side} {v v' : Trace.Vfd σ} {b c got given sent : List Byte} {ks : List ℤ} {s : ℤ}

theorem parsed_append (x : Side) (b c : List Byte) : D.parsed x (b ++ c) =
    (drain (D.step x) (D.parsed x b).state ((D.parsed x b).rest ++ c)).after (D.parsed x b).out :=
  drain_append (D.lawful x) (D.init x) b c

theorem spoken_append (x : Side) (b c : List Byte) : D.spoken x (b ++ c) = D.spoken x b ++
    (drain (D.step x) (D.parsed x b).state ((D.parsed x b).rest ++ c)).out.map toInt := by
  rw [spoken, parsed_append, Result.after_out, List.map_append, spoken]

theorem spoken_mono (x : Side) (h : b <+: c) : D.spoken x b <+: D.spoken x c := by
  obtain ⟨t, rfl⟩ := h
  rw [spoken_append]
  exact List.prefix_append ..

/-! ### One side -/

theorem Writing.same (h : D.Writing x v b ks) (hs : Trace.SameWriting D.writing v v') :
    D.Writing x v' b ks :=
  ⟨h.unwritten.same hs, hs.data.trans h.state, h.numbers⟩

theorem Reading.same (h : D.Reading x s v got given ks) (hs : Trace.SameReading D.reading v v') :
    D.Reading x s v' got given ks := by
  obtain ⟨f, l, htracks, hrest⟩ := h
  exact ⟨f, l, htracks.same hs, hrest⟩

/-- The messages received are of those sent. -/
theorem Reading.heard (h : D.Reading x s v got given ks) : ks <+: D.spoken x.other got := by
  obtain ⟨f, l, htracks, rfl, -, rfl⟩ := h
  obtain ⟨out, hagrees, hmsg, -⟩ := htracks.obs
  rw [Trace.msgIds_eq (.inr rfl) hmsg]
  refine List.IsPrefix.map _ ?_
  rw [parsed, show drain _ _ _ = _ from hagrees]
  exact List.prefix_append ..

/-- Once the application has been given everything, all messages have been received. -/
theorem Reading.heard_all (h : D.Reading x s v got given ks) (hgot : got <+: sent)
    (hall : given = sent) : ks = D.spoken x.other sent := by
  obtain ⟨f, l, htracks, rfl, rfl, rfl⟩ := h
  have hlen : f.seen.length ≤ f.given := by
    have hle := hgot.length_le
    rw [← hall, List.length_take] at hle
    omega
  have hseen : f.seen = sent := by rw [← hall, List.take_of_length_le hlen]
  rw [Trace.msgIds_eq (.inr rfl) (htracks.drained hlen), hseen]
  rfl

/-- **A side receives.** -/
theorem Reading.receive (h : D.Reading x s v got given ks) {rc : Trace.RecvCall}
    (hl : rc.len < 2 ^ 31) : ∃ g, ∃ ids : List ℤ, Trace.recvOne v s rc = .ok g ∧
      D.Reading x s g.vfd (got ++ Trace.kernelBytes g.trace) (given ++ g.out)
        (ks ++ ids.map toInt) ∧
      Trace.messages (Trace.logs g.trace) =
        ids.map (Trace.reports .ppMsgRecv (D.role x) s (D.name x)) := by
  obtain ⟨f, l, htracks, rfl, rfl, rfl⟩ := h
  have hserves := (D.reads x s).serves (D.lawful x.other) (D.init x.other)
  obtain ⟨g, hg, f', htracks', hmoves⟩ := (Trace.recvOne_spec hserves htracks hl).total
  obtain ⟨out', -, hmsg', -⟩ := htracks'.obs
  rw [Trace.messages_append] at hmsg'
  obtain ⟨out, ids, -, -, hids⟩ := List.append_eq_map_iff.1 hmsg'
  refine ⟨g, ids, hg, ⟨f', _, htracks', hmoves.seen, hmoves.out, ?_⟩, hids.symm⟩
  rw [Trace.msgIds_append, List.map_append, Trace.msgIds_eq (.inr rfl) hids.symm]

/-- **A side sends.** -/
theorem Writing.send (h : D.Writing x v b ks) {a : Trace.IoCall} {y : List Byte × ℤ}
    (hc : a.sent = some y) (hlow : -1 ≤ y.2) (hle : y.2 ≤ y.1.length)
    (hfit : v.wbuflen + y.2 ≤ Trace.vbufsize) :
    ∃ v' tr, ∃ ids : List ℤ, a.shown v s = .ok (v', tr) ∧
      D.Writing x v' (b ++ a.taken) (ks ++ ids.map toInt) ∧ (y.2 ≤ 0 → ids = []) ∧
      Trace.messages (Trace.logs tr) =
        ids.map (Trace.reports .ppMsgSend (D.role x) s (D.name x)) := by
  have hdrained := drain_drain (D.lawful x) (D.init x) b
  obtain ⟨v', tr, hshown, hunwritten, hstate, hmsg⟩ := Trace.IoCall.shown_drains (D.lawful x)
    (D.writes x s) h.unwritten (by rw [h.state]; exact hdrained) hc hlow hle hfit
  rw [h.state] at hunwritten hstate hmsg
  refine ⟨v', tr, _, hshown, ⟨?_, ?_, ?_⟩, fun hneg => ?_, hmsg⟩
  · rw [parsed_append]
    exact hunwritten
  · rw [parsed_append]
    exact hstate
  · rw [spoken_append, h.numbers]
  · have htaken : a.taken = [] := by
      rw [Trace.IoCall.taken, hc]
      change y.1.take y.2.toNat = []
      rw [Int.toNat_of_nonpos hneg, List.take_zero]
    rw [htaken, List.append_nil]
    exact congrArg Result.out hdrained

/-- The log calls of a processor that reports messages `ids`. -/
theorem reported_of_messages {fd : Side → ℤ} {sc : Trace.Sc} {l : List Trace.LogCall} {ids : List ℤ}
    (hsc : sc = .ppMsgSend ∨ sc = .ppMsgRecv) (hl : ∀ e ∈ l, e.OfIo)
    (h : Trace.messages l = ids.map (Trace.reports sc (D.role x) (fd x) (D.name x)))
    (tid : UInt64) : ∀ e ∈ l, D.Reported fd ⟨x, tid, e⟩ := by
  intro e he
  rcases hl e he with hmsg | hquiet
  · left
    have hmem : e ∈ Trace.messages l := List.mem_filter.2 ⟨he, by simpa using hmsg⟩
    rw [h] at hmem
    obtain ⟨i, -, hi⟩ := List.mem_map.1 hmem
    exact ⟨sc, i, hsc, hi.symm⟩
  · exact .inr hquiet

end Dialogue

/-! ## What is said in a session -/

variable {D : Dialogue σ τ} {fd : Side → ℤ} {s : Session σ} {a : SessionCall} {x : Side}

theorem said_of_not_message {e : SessionLog}
    (h : ¬ (e.call.sc = .ppMsgSend ∨ e.call.sc = .ppMsgRecv)) : e.said = none := by
  unfold SessionLog.said
  split
  · next hsc => exact absurd (.inl hsc) h
  · next hsc => exact absurd (.inr hsc) h
  · rfl

/-- Only messages are said. -/
theorem filterMap_said (x : Side) (tid : UInt64) (l : List Trace.LogCall) :
    (l.map (SessionLog.mk x tid)).filterMap SessionLog.said =
      (Trace.messages l).filterMap fun e => (SessionLog.mk x tid e).said := by
  rw [List.filterMap_map, Trace.messages, List.filterMap_filter]
  congr 1
  funext e
  by_cases h : e.sc = .ppMsgSend ∨ e.sc = .ppMsgRecv
  · simp [h]
  · simp [h, said_of_not_message (e := ⟨x, tid, e⟩) h]

theorem said_sends {l : List Trace.LogCall} {ids : List ℤ} {r s : ℤ} {n : List Byte} (tid : UInt64)
    (h : Trace.messages l = ids.map (Trace.reports .ppMsgSend r s n)) :
    (l.map (SessionLog.mk x tid)).filterMap SessionLog.said = (ids.map toInt).map (.sent x) := by
  rw [filterMap_said, h, List.filterMap_map, List.map_map]
  exact congrFun List.filterMap_eq_map ids

theorem said_receives {l : List Trace.LogCall} {ids : List ℤ} {r s : ℤ} {n : List Byte}
    (tid : UInt64) (h : Trace.messages l = ids.map (Trace.reports .ppMsgRecv r s n)) :
    (l.map (SessionLog.mk x tid)).filterMap SessionLog.said =
      (ids.map toInt).map (.received x) := by
  rw [filterMap_said, h, List.filterMap_map, List.map_map]
  exact congrFun List.filterMap_eq_map ids

/-- The log calls of a call: those of the wrapper, which are quiet, around those of the
processor. -/
theorem logs_wrapped (e e' : Trace.LogCall) (tr : List Trace.Event) :
    Trace.logs ([.log e] ++ tr ++ [.log e']) = [e] ++ Trace.logs tr ++ [e'] := by
  rw [Trace.logs_append, Trace.logs_append]
  rfl

theorem messages_quiet {e : Trace.LogCall} (he : e.sc.quiet = true) : Trace.messages [e] = [] := by
  apply List.filter_eq_nil_iff.2
  intro e₁ he₁
  obtain rfl := List.mem_singleton.1 he₁
  rw [decide_eq_true_iff]
  rintro (h | h) <;> rw [h] at he <;> cases he

/-- What a call reports, when its processor reports messages `ids`. -/
theorem reported_wrapped {sc : Trace.Sc} {c : Trace.IoCall} {ret : ℤ} {tr : List Trace.Event}
    {ids : List ℤ} (hsc : sc = .ppMsgSend ∨ sc = .ppMsgRecv) (hio : ∀ e ∈ Trace.logs tr, e.OfIo)
    (h : Trace.messages (Trace.logs tr) =
      ids.map (Trace.reports sc (D.role x) (fd x) (D.name x))) {l : List Trace.LogCall}
    (hl : l = [c.begun (fd x)] ++ Trace.logs tr ++ [c.logged (fd x) ret]) (tid : UInt64) :
    Trace.messages l = ids.map (Trace.reports sc (D.role x) (fd x) (D.name x)) ∧
      ∀ e ∈ l, D.Reported fd ⟨x, tid, e⟩ := by
  have hmsg : Trace.messages l = ids.map (Trace.reports sc (D.role x) (fd x) (D.name x)) := by
    rw [hl, Trace.messages_append, Trace.messages_append, messages_quiet (c.begun_quiet _),
      messages_quiet (c.logged_quiet _ _), List.nil_append, List.append_nil, h]
  refine ⟨hmsg, Dialogue.reported_of_messages hsc (fun e he => ?_) hmsg tid⟩
  rw [hl, List.mem_append, List.mem_append, List.mem_singleton, List.mem_singleton] at he
  rcases he with (rfl | he) | rfl
  · exact .inr (c.begun_quiet _)
  · exact hio e he
  · exact .inr (c.logged_quiet _ _)

/-! ## The invariant -/

/-- Both sides write and read, and what they report is a conversation in turns. -/
structure Speaking (D : Dialogue σ τ) (fd : Side → ℤ) (s : Session σ) : Prop where
  writing : ∀ x, D.Writing x ((s.proc x).vfdTab (fd x)) (s.wrote x) ((talkOf s.said).sent x)
  reading : ∀ x, D.Reading x (fd x) ((s.proc x).vfdTab (fd x)) (s.got x) (s.given x)
    ((talkOf s.said).received x)
  got : ∀ x, s.got x <+: s.wrote x.other
  duplex : HalfDuplex s.said
  log : ∀ e ∈ s.log, D.Reported fd e

/-- A call of one side leaves the other. -/
theorem Speaking.record (h : Speaking D fd s) {q : Trace.Reply σ} {v : Trace.Vfd σ}
    (hq : q.proc.vfdTab = Function.update (s.proc a.side).vfdTab (fd a.side) v)
    (hw : D.Writing a.side v (s.wrote a.side ++ a.call.taken)
      ((talkOf (s.record a q).said).sent a.side))
    (hr : D.Reading a.side (fd a.side) v (s.got a.side ++ Trace.kernelBytes q.trace)
      (s.given a.side ++ q.out) ((talkOf (s.record a q).said).received a.side))
    (hsent : (talkOf (s.record a q).said).sent a.side.other = (talkOf s.said).sent a.side.other)
    (hreceived : (talkOf (s.record a q).said).received a.side.other =
      (talkOf s.said).received a.side.other)
    (hgot : s.got a.side ++ Trace.kernelBytes q.trace <+: s.wrote a.side.other)
    (hduplex : HalfDuplex (s.record a q).said)
    (hlog : ∀ e ∈ Trace.logs q.trace, D.Reported fd ⟨a.side, a.tid, e⟩) :
    Speaking D fd (s.record a q) := by
  have hne : a.side.other ≠ a.side := Side.other_ne a.side
  refine ⟨fun y => ?_, fun y => ?_, fun y => ?_, hduplex, fun e he => ?_⟩
  · rcases a.side.eq_or_eq_other y with rfl | rfl
    · simpa only [Session.record, Function.update_self, hq] using hw
    · rw [hsent]
      simpa only [Session.record, Function.update_of_ne hne] using h.writing a.side.other
  · rcases a.side.eq_or_eq_other y with rfl | rfl
    · simpa only [Session.record, Function.update_self, hq] using hr
    · rw [hreceived]
      simpa only [Session.record, Function.update_of_ne hne] using h.reading a.side.other
  · rcases a.side.eq_or_eq_other y with rfl | rfl
    · simpa only [Session.record, Function.update_self, Function.update_of_ne hne] using hgot
    · have hother := h.got a.side.other
      rw [Side.other_other] at hother ⊢
      simp only [Session.record, Function.update_self, Function.update_of_ne hne]
      exact hother.trans (List.prefix_append ..)
  · rcases List.mem_append.1 he with he | he
    · exact h.log e he
    · obtain ⟨e', he', rfl⟩ := List.mem_map.1 he
      exact hlog e' he'

/-- **A call that receives.** -/
theorem Speaking.receive (h : Speaking D fd s) (hfd : ∀ x, 0 ≤ fd x ∧ fd x < Trace.maxFds)
    {rc : Trace.RecvCall} (hc : a.call.recvCall = some rc) (ha : ReceivesOrderly s a.side rc) :
    ∃ s', sessionStep fd s a = .ok s' ∧ Speaking D fd s' := by
  obtain ⟨side, tid, call⟩ := a
  have hread := h.reading side
  have hwrite := h.writing side
  have hdisp := hwrite.unwritten.disp
  obtain ⟨g, ids, hg, hreading, hmsg⟩ := hread.receive ha.1
  obtain ⟨hsame, hio⟩ := (Trace.recvOne_keeps (D.keepsWriting side (fd side))
    (fun _ _ => .inr rfl) hdisp rc).of_eq_ok hg
  obtain ⟨q, hq, htab, hout, htrace⟩ :=
    Trace.IoCall.run_receive (hfd side) (by rw [hdisp]; rfl) hc hg
  have hkernel : Trace.kernelBytes q.trace = Trace.kernelBytes g.trace := by
    rw [htrace, Trace.kernelBytes_append, Trace.kernelBytes_append]
    exact List.append_nil _
  have hgot : s.got side ++ Trace.kernelBytes g.trace <+: s.wrote side.other := by
    rw [Trace.callArrives_eq hg]
    rcases Trace.callArrives_cases ((s.proc side).vfdTab (fd side)) (fd side) rc
      with hnone | ⟨n, hn⟩
    · rw [hnone, List.append_nil]
      exact h.got side
    · rw [hn]
      exact ha.2 n
  have hlogs : Trace.logs q.trace = [call.begun (fd side)] ++ Trace.logs g.trace ++
      [call.logged (fd side) g.ret] := by
    rw [htrace, logs_wrapped]
  obtain ⟨hmsg', hlog⟩ := reported_wrapped (.inr rfl) hio hmsg hlogs tid
  have hsaid : (s.record ⟨side, tid, call⟩ q).said =
      s.said ++ (ids.map toInt).map (.received side) := by
    rw [Session.said, Session.record, List.filterMap_append, said_receives tid hmsg']
    rfl
  have hks : (talkOf s.said).received side ++ ids.map toInt <+:
      (talkOf s.said).sent side.other := by
    rw [(h.writing side.other).numbers]
    exact hreading.heard.trans (Dialogue.spoken_mono side.other hgot)
  obtain ⟨hduplex, htalk⟩ := halfDuplex_received h.duplex hks
  rw [← hsaid] at hduplex htalk
  refine ⟨_, by rw [sessionStep, hq, ok_bind], h.record htab ?_ ?_ ?_ ?_ ?_ hduplex hlog⟩
  · have htaken : call.taken = [] := by
      cases call <;> first | rfl | cases hc
    rw [htaken, List.append_nil, htalk]
    exact hwrite.same hsame
  · rw [hkernel, hout, htalk]
    simpa only [Function.update_self] using hreading
  · rw [htalk]
  · rw [htalk]
    exact Function.update_of_ne (Side.other_ne side) ..
  · rw [hkernel]
    exact hgot

/-- **A call that sends.** -/
theorem Speaking.send (h : Speaking D fd s) (hfd : ∀ x, 0 ≤ fd x ∧ fd x < Trace.maxFds)
    {b : List Byte} {r : ℤ} (hc : a.call.sent = some (b, r)) (ha : SendsOrderly fd s a.side b r) :
    ∃ s', sessionStep fd s a = .ok s' ∧ Speaking D fd s' := by
  obtain ⟨side, tid, call⟩ := a
  obtain ⟨hlow, hle, hfit, hturn⟩ := ha
  have hread := h.reading side
  have hwrite := h.writing side
  obtain ⟨v, tr, ids, hshown, hwriting, hnone, hmsg⟩ := hwrite.send hc hlow hle hfit
  have hkeeps := (Trace.IoCall.shown_keeps (D.keepsReading side (fd side)) hwrite.unwritten.disp
    call).of_eq_ok hshown
  obtain ⟨q, ret, hq, htab, hout, htrace⟩ :=
    Trace.IoCall.run_send (hfd side) (by rw [hc]; rfl) hshown
  have hkernel : Trace.kernelBytes q.trace = [] := by
    rw [htrace, Trace.kernelBytes_append, Trace.kernelBytes_append, hkeeps.kernel]
    rfl
  have hlogs : Trace.logs q.trace = [call.begun (fd side)] ++ Trace.logs tr ++
      [call.logged (fd side) ret] := by
    rw [htrace, logs_wrapped]
  obtain ⟨hmsg', hlog⟩ := reported_wrapped (.inl rfl) hkeeps.log hmsg hlogs tid
  have hsaid : (s.record ⟨side, tid, call⟩ q).said =
      s.said ++ (ids.map toInt).map (.sent side) := by
    rw [Session.said, Session.record, List.filterMap_append, said_sends tid hmsg']
    rfl
  obtain ⟨hduplex, htalk⟩ : HalfDuplex (s.said ++ (ids.map toInt).map (.sent side)) ∧
      talkOf (s.said ++ (ids.map toInt).map (.sent side)) = { talkOf s.said with
        sent := Function.update (talkOf s.said).sent side
          ((talkOf s.said).sent side ++ ids.map toInt) } := by
    rcases Int.lt_or_le 0 r with hpos | hneg
    · apply halfDuplex_sent h.duplex
      -- the application has been given everything that the other side has sent
      rw [(h.writing side.other).numbers]
      exact hread.heard_all (h.got side) (hturn hpos)
    · rw [hnone hneg]
      simpa using h.duplex
  rw [← hsaid] at hduplex htalk
  refine ⟨_, by rw [sessionStep, hq, ok_bind], h.record htab ?_ ?_ ?_ ?_ ?_ hduplex hlog⟩
  · rw [htalk]
    simpa only [Function.update_self] using hwriting
  · rw [hkernel, hout, htalk, List.append_nil, List.append_nil]
    exact hread.same hkeeps.same
  · rw [htalk]
    exact Function.update_of_ne (Side.other_ne side) ..
  · rw [htalk]
  · rw [hkernel, List.append_nil]
    exact h.got side

/-- Two processes whose descriptors have just been opened and given their processors. -/
structure Opened (D : Dialogue σ τ) (fd : Side → ℤ) (s : Session σ) : Prop where
  opened : ∀ x, ∃ v d type,
    (s.proc x).vfdTab (fd x) = { Trace.Vfd.accepted v (D.pp x) (fd x) d with type := type }
  wrote : ∀ x, s.wrote x = []
  got : ∀ x, s.got x = []
  given : ∀ x, s.given x = []
  log : s.log = []

theorem speaking_of_opened (h : Opened D fd s) : Speaking D fd s := by
  have hsaid : s.said = [] := by
    rw [Session.said, h.log, List.filterMap_nil]
  refine ⟨fun x => ?_, fun x => ?_, fun x => ?_, ?_, ?_⟩
  · obtain ⟨v, d, type, hv⟩ := h.opened x
    rw [hv, h.wrote, hsaid]
    have hw : D.Writing x (Trace.Vfd.accepted v (D.pp x) (fd x) d) [] [] :=
      ⟨Trace.unwritten_opened v (D.pp x) _, D.writingInit x (fd x) d, rfl⟩
    exact hw.same ⟨rfl, rfl, rfl, rfl, rfl⟩
  · obtain ⟨v, d, type, hv⟩ := h.opened x
    rw [hv, h.got, h.given, hsaid]
    have hr : D.Reading x (fd x) (Trace.Vfd.accepted v (D.pp x) (fd x) d) [] [] [] := by
      refine ⟨.start, [], Trace.tracks_opened v (D.pp x) ⟨[], ?_, rfl, fun h => absurd rfl h⟩, rfl,
        rfl, rfl⟩
      rw [D.readingInit]
      exact Agrees.init _
    exact hr.same ⟨rfl, rfl, rfl, rfl, rfl, rfl, rfl, rfl⟩
  · rw [h.got]
    exact List.nil_prefix
  · rw [hsaid]
    exact atEach_nil
  · rw [h.log]
    exact fun e he => absurd he List.not_mem_nil

/-- **Traced sessions.** From descriptors just opened, all calls that are made in order go through,
and what is reported is a conversation of the two sides in turns. -/
theorem session_speaks (hfd : ∀ x, 0 ≤ fd x ∧ fd x < Trace.maxFds) (hs : Opened D fd s)
    {as : List SessionCall} (has : Tried (sessionStep fd) s as (Orderly fd)) :
    ∃ s', runSteps (sessionStep fd) s as = .ok s' ∧ Speaking D fd s' := by
  have hpost := has.post (E := fun _ => False) (speaking_of_opened hs) fun s a hs ha => by
    obtain ⟨s', hs', hspeaking⟩ : ∃ s', sessionStep fd s a = .ok s' ∧ Speaking D fd s' := by
      rcases ha with ⟨rc, hc, ha⟩ | ⟨b, r, hc, ha⟩
      · exact hs.receive hfd hc ha
      · exact hs.send hfd hc ha
    exact Post.of_ok hs' hspeaking
  exact hpost.total

/-! ## PostgreSQL and MySQL -/

/-- A PostgreSQL client and its server. -/
def psqlDialogue : Dialogue Trace.PpPsqlState Trace.PpPsqlStateSide where
  pp
    | .a => Trace.ppPsqlc
    | .b => Trace.ppPsqls
  reading := Trace.PpPsqlState.read
  writing := Trace.PpPsqlState.write
  step
    | .a => Trace.psqlUnits 'Q'.toUInt8
    | .b => Trace.psqlUnits 'Z'.toUInt8
  init
    | .a => ⟨0, 0, 0, 0, 0⟩
    | .b => ⟨1, 0, 0, 0, 0⟩
  role
    | .a => Trace.PpId.psqlc.num
    | .b => Trace.PpId.psqls.num
  name
    | .a => ascii "psqlc"
    | .b => ascii "psqls"
  lawful
    | .a => Trace.psqlUnits_lawful _
    | .b => Trace.psqlUnits_lawful _
  writes
    | .a => Trace.psqlWrite_parses (.inl rfl)
    | .b => Trace.psqlWrite_parses (.inr rfl)
  reads
    | .a => Trace.psqlRead_parses (.inl rfl)
    | .b => Trace.psqlRead_parses (.inr rfl)
  keepsWriting
    | .a => Trace.psqlRead_keeps .psqlc
    | .b => Trace.psqlRead_keeps .psqls
  keepsReading
    | .a => Trace.psqlWrite_keeps .psqlc
    | .b => Trace.psqlWrite_keeps .psqls
  writingInit
    | .a => fun _ _ => rfl
    | .b => fun _ _ => rfl
  readingInit
    | .a => fun _ _ => rfl
    | .b => fun _ _ => rfl

/-- `speak_psql` counts the messages of a type. -/
theorem psqlUnits_counts (c : Byte) : Counts (Trace.psqlUnits c) Trace.PpPsqlStateSide.id
    fun i => toInt (i + 1) := by
  apply unitStep_counts
  · intro state k f b h
    unfold Trace.psqlWant at h
    split_ifs at h <;> cases h
    · exact .inl ⟨rfl, rfl⟩
    · exact .inl ⟨rfl, rfl⟩
    · unfold Trace.psqlHeader
      dsimp only
      split_ifs
      · exact .inr ⟨rfl, rfl⟩
      · exact .inl ⟨rfl, rfl⟩
  · intro state k f n h
    unfold Trace.psqlWant at h
    split_ifs at h
    cases h
    rfl

theorem toInt_toInt (i : ℤ) : toInt (toInt i) = toInt i := by
  rw [toInt, toInt, Int.bmod_bmod]

theorem iterate_toInt (m n : ℕ) : List.iterate (fun i => toInt (i + 1)) (toInt m) n =
    (List.range' m n).map fun i : ℕ => toInt i := by
  induction n generalizing m with
  | zero => rfl
  | succ n ih => rw [List.iterate, toInt_succ, ih, List.range'_succ, List.map_cons]

theorem psql_spoken (x : Side) (b : List Byte) :
    ∃ n, psqlDialogue.spoken x b = (List.range' 0 n).map fun i : ℕ => toInt i := by
  have hinit : (psqlDialogue.init x).id = toInt (0 : ℕ) := by
    rw [toInt_natCast_lt (by omega)]
    cases x <;> rfl
  obtain ⟨n, hn⟩ : ∃ n, (psqlDialogue.parsed x b).out =
      List.iterate (fun i => toInt (i + 1)) (psqlDialogue.init x).id n := by
    cases x with
    | a => exact (psqlUnits_counts _).drain_out (psqlDialogue.lawful .a) _ b
    | b => exact (psqlUnits_counts _).drain_out (psqlDialogue.lawful .b) _ b
  refine ⟨n, ?_⟩
  rw [Dialogue.spoken, hn, hinit, iterate_toInt, List.map_map]
  apply List.map_congr_left
  intro i _
  rw [Function.comp_apply, toInt_toInt]

/-- The numbers of up to 2147483648 messages each way differ. -/
theorem psql_freshNumbers {s : Session Trace.PpPsqlState} (h : Speaking psqlDialogue fd s)
    (hfew : ∀ x, ((talkOf s.said).sent x).length ≤ 2 ^ 31) : FreshNumbers s.said := by
  apply freshNumbers_of_nodup
  intro x
  obtain ⟨n, hn⟩ := psql_spoken x (s.wrote x)
  have hlen := hfew x
  rw [(h.writing x).numbers, hn] at hlen ⊢
  rw [List.length_map, List.length_range'] at hlen
  have hint : ∀ i ∈ List.range' 0 n, toInt i = i := by
    intro i hi
    rw [List.mem_range'_1] at hi
    exact toInt_natCast_lt (by omega)
  constructor
  · refine List.Nodup.map_on (fun i hi j hj heq => ?_) List.nodup_range'
    rw [hint i hi, hint j hj] at heq
    exact Int.ofNat_inj.1 heq
  · intro hmem
    obtain ⟨i, hi, heq⟩ := List.mem_map.1 hmem
    rw [hint i hi] at heq
    exact absurd heq (by rw [fakeMsgId]; omega)

/-- A MySQL client and its server. -/
def mysqlDialogue : Dialogue Trace.PpMysqlState Trace.PpMysqlStateSide where
  pp
    | .a => Trace.ppMysqlc
    | .b => Trace.ppMysqls
  reading := Trace.PpMysqlState.read
  writing := Trace.PpMysqlState.write
  step _ := Trace.mysqlUnits
  init _ := ⟨0, 0⟩
  role
    | .a => Trace.PpId.mysqlc.num
    | .b => Trace.PpId.mysqls.num
  name
    | .a => ascii "mysqlc"
    | .b => ascii "mysqls"
  lawful _ := Trace.mysqlUnits_lawful
  writes
    | .a => Trace.mysqlWrite_parses (.inl rfl)
    | .b => Trace.mysqlWrite_parses (.inr rfl)
  reads
    | .a => Trace.mysqlRead_parses (.inl rfl)
    | .b => Trace.mysqlRead_parses (.inr rfl)
  keepsWriting
    | .a => Trace.mysqlRead_keeps .mysqlc
    | .b => Trace.mysqlRead_keeps .mysqls
  keepsReading
    | .a => Trace.mysqlWrite_keeps .mysqlc
    | .b => Trace.mysqlWrite_keeps .mysqls
  writingInit
    | .a => fun _ _ => rfl
    | .b => fun _ _ => rfl
  readingInit
    | .a => fun _ _ => rfl
    | .b => fun _ _ => rfl

/-! ## A packet -/

/-- A MySQL client and its server, connected by descriptors 5 and 6. -/
def mysqlOpened : Session Trace.PpMysqlState where
  proc x := ⟨fun s => Trace.Vfd.accepted (Trace.Vfd.zero ⟨⟨0, 0⟩, ⟨0, 0⟩⟩) (mysqlDialogue.pp x) s
    ⟨⟨0, 0⟩, ⟨0, 0⟩⟩, Trace.FdSets.zero⟩
  wrote _ := []
  got _ := []
  given _ := []
  log := []

/-- The client sends a packet without a payload, and the server receives it. -/
def mysqlPing : List SessionCall :=
  [⟨.a, 1, .write [0, 0, 0, 0] 4⟩, ⟨.b, 2, .read 4 (.give [0, 0, 0, 0])⟩]

theorem opened_mysqlOpened : Opened mysqlDialogue connectedEnds.fd mysqlOpened :=
  ⟨fun _ => ⟨.zero ⟨⟨0, 0⟩, ⟨0, 0⟩⟩, ⟨⟨0, 0⟩, ⟨0, 0⟩⟩, .none, rfl⟩, fun _ => rfl, fun _ => rfl,
    fun _ => rfl, rfl⟩

theorem orderly_mysqlPing {s : Session Trace.PpMysqlState}
    (h : Opened mysqlDialogue connectedEnds.fd s) :
    Tried (sessionStep connectedEnds.fd) s mysqlPing (Orderly connectedEnds.fd) := by
  refine tried_cons.2 ⟨?_, fun s' hs => tried_cons.2 ⟨?_, fun _ _ => tried_nil⟩⟩
  · obtain ⟨v, d, type, hv⟩ := h.opened .a
    refine .inr ⟨_, _, rfl, by decide, by decide, ?_, fun _ => (h.given .a).trans (h.wrote .b).symm⟩
    rw [hv]
    change ((0 : ℕ) : ℤ) + 4 ≤ Trace.vbufsize
    decide
  · obtain ⟨q, -, hs⟩ := bind_eq_ok hs
    cases hs
    refine .inl ⟨_, rfl, by decide, fun n => ?_⟩
    change s.got .b ++ (Trace.Kernel.give [0, 0, 0, 0] 0 n).bytes <+: s.wrote .a ++ [0, 0, 0, 0]
    rw [h.got, h.wrote]
    unfold Trace.Kernel.give
    split
    · exact List.nil_prefix
    · exact List.take_prefix ..

/-- Its number is 0. -/
example : ∃ s, runSteps (sessionStep connectedEnds.fd) mysqlOpened mysqlPing = .ok s ∧
    (talkOf s.said).sent .a = [0] := by
  obtain ⟨s, hrun, hspeaking⟩ := session_speaks (fun x => by cases x <;> decide)
    opened_mysqlOpened (orderly_mysqlPing opened_mysqlOpened)
  refine ⟨s, hrun, ?_⟩
  rw [(hspeaking.writing .a).numbers]
  obtain ⟨s₁, hs₁, hrun⟩ := bind_eq_ok hrun
  obtain ⟨s₂, hs₂, hrun⟩ := bind_eq_ok hrun
  obtain ⟨q₁, -, hs₁⟩ := bind_eq_ok hs₁
  obtain ⟨q₂, -, hs₂⟩ := bind_eq_ok hs₂
  cases hs₁
  cases hs₂
  cases hrun
  change mysqlDialogue.spoken .a [0, 0, 0, 0] = [0]
  decide

end BorderPatrol.Agg
