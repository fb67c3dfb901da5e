import BorderPatrol.Trace.HttpsStatus
import BorderPatrol.Trace.Writes
import Mathlib.Data.List.Infix

/-!
# The framing of HTTP responses

When `pp_https_write` has read the length of a body and the body is not empty, it counts the bytes
of the body and awaits the next status behind them. Otherwise it never does: it is silent from
there on, or takes bytes of the body for a status, or counts past the end of the body. Writes of a
sequence of responses are framed, with one message for each response and the processor back where
it began behind each of them, if and only if every response announces its body, no end of a status
is found in bytes left in the buffer, and the numbers of the messages do not run over
(`responses_framed_iff`).
-/

namespace BorderPatrol.Trace

open Foundations

/-! ## Calls -/

section Cases

variable {d : PpHttpState} {s : ℤ} {m : List Byte} {len : ℤ}

theorem ppHttpsWrite_done (hd : d.write.done ≠ 0) : ppHttpsWrite d s m len = .ok (len, d, []) := by
  rw [ppHttpsWrite]
  dsimp only
  rw [if_pos hd]
  rfl

/-- The data after bytes of a body. -/
def PpHttpState.countDown (d : PpHttpState) (n : ℤ) : PpHttpState :=
  { d with write := { d.write with
      toread := toInt (d.write.toread - n)
      awaitStatus := if toInt (d.write.toread - n) = 0 then 1 else d.write.awaitStatus } }

theorem ppHttpsWrite_body (hd : d.write.done = 0) (ht : d.write.toread ≠ 0) :
    ppHttpsWrite d s m len =
      .ok (min d.write.toread len, d.countDown (min d.write.toread len), []) := by
  have hmin : (if d.write.toread < len then d.write.toread else len) = min d.write.toread len := by
    split <;> omega
  rw [ppHttpsWrite]
  dsimp only
  rw [if_neg (not_not.2 hd), if_pos ht, hmin]
  rfl

theorem ppHttpsWrite_silent (hd : d.write.done = 0) (ht : d.write.toread = 0)
    (ha : d.write.awaitStatus = 0) : ppHttpsWrite d s m len = .ok (len, d, []) := by
  rw [ppHttpsWrite]
  dsimp only
  rw [if_neg (not_not.2 hd), if_neg (not_not.2 ht), if_neg (not_not.2 ha)]
  rfl

theorem ppHttpsWrite_none (hd : d.write.done = 0) (ht : d.write.toread = 0)
    (ha : d.write.awaitStatus ≠ 0) (hm : strstr headerEnd m = none) :
    ppHttpsWrite d s m len = .ok (-1, d, []) := by
  rw [ppHttpsWrite]
  dsimp only
  rw [if_neg (not_not.2 hd), if_neg (not_not.2 ht), if_pos ha, hm]
  rfl

theorem ppHttpsWrite_some (hd : d.write.done = 0) (ht : d.write.toread = 0)
    (ha : d.write.awaitStatus ≠ 0) {i : ℕ} (hm : strstr headerEnd m = some i) :
    ppHttpsWrite d s m len = httpsStatus d.write s m >>=
      fun q => .ok ((i : ℤ) + 4, { d with write := q.1 }, q.2) := by
  rw [ppHttpsWrite]
  dsimp only
  rw [if_neg (not_not.2 hd), if_neg (not_not.2 ht), if_pos ha, hm]
  rfl

end Cases

/-- When a status is awaited, the end of one that `strstr` finds lies within the bytes given. -/
def StatusWithin (p : Presentation PpHttpState) : Prop :=
  p.data.write.done ≠ 0 ∨ p.data.write.toread ≠ 0 ∨ p.data.write.awaitStatus = 0 ∨
    ∀ i, strstr headerEnd p.mem = some i → i + 4 ≤ p.len

/-- The processor awaits a status. -/
structure Awaits (st : PpHttpStateWrite) : Prop where
  done : st.done = 0
  awaitStatus : st.awaitStatus = 1
  toread : st.toread = 0

/-! ## Streams of responses -/

/-- What is written for a sequence of responses. -/
def responseStream (rs : List Response) : List Byte := rs.flatMap Response.message

/-- Where the first `k` responses end. -/
def endOf (rs : List Response) (k : ℕ) : ℕ := (responseStream (rs.take k)).length

/-- One of the calls brings the consumed bytes to the end of response `k` and leaves the processor
awaiting a status, when the messages reported are as `msgs` says. -/
def Returns (rs : List Response) (k : ℕ) (h : List (PpCall PpHttpState))
    (msgs : List LogCall → Prop) : Prop :=
  ∃ pre c, pre ++ [c] <+: h ∧ msgs (messages (callLogs (pre ++ [c]))) ∧
    consumed (pre ++ [c]) = endOf rs (k + 1) ∧
    ∃ a d l, c.result = .ok (a, d, l) ∧ 0 < a ∧ Awaits d.write

/-- **A run of writes is framed**: it goes through, reports one message for each response, numbered
from zero, and when the bytes of the first `k + 1` responses have been consumed it has reported the
messages `0` to `k` and awaits a status. -/
structure Framed (s : ℤ) (rs : List Response) (v : Vfd PpHttpState) (cs : List (List Byte)) :
    Prop where
  run : ∃ v' tr, writeRun s v cs = .ok (v', tr) ∧
    messages (logs tr) = (List.range rs.length).map fun k : ℕ => sent s k
  each : ∀ k < rs.length, Returns rs k (runCalls s v cs)
    (· = (List.range (k + 1)).map fun i : ℕ => sent s i)

section Streams

variable {rs : List Response} {k : ℕ} {r : Response}

theorem responseStream_eq (rs : List Response) (k : ℕ) :
    responseStream rs = responseStream (rs.take k) ++ responseStream (rs.drop k) := by
  rw [responseStream, responseStream, responseStream, ← List.flatMap_append, List.take_append_drop]

theorem endOf_succ (hr : rs[k]? = some r) : endOf rs (k + 1) = endOf rs k + r.message.length := by
  simp [endOf, responseStream, List.take_add_one, hr]

theorem drop_endOf (rs : List Response) (k : ℕ) :
    (responseStream rs).drop (endOf rs k) = responseStream (rs.drop k) := by
  rw [responseStream_eq rs k, endOf, List.drop_left]

theorem endOf_le (rs : List Response) (k : ℕ) : endOf rs k ≤ (responseStream rs).length := by
  rw [responseStream_eq rs k, List.length_append]
  exact Nat.le_add_right ..

theorem endOf_length (rs : List Response) : endOf rs rs.length = (responseStream rs).length := by
  rw [endOf, List.take_length]

theorem responseStream_drop (hr : rs[k]? = some r) :
    responseStream (rs.drop k) = r.header ++ (r.body ++ responseStream (rs.drop (k + 1))) := by
  obtain ⟨hk, rfl⟩ := List.getElem?_eq_some_iff.1 hr
  rw [List.drop_eq_getElem_cons hk, responseStream, List.flatMap_cons, Response.message,
    List.append_assoc, responseStream]

end Streams

/-! ## What holds over the calls -/

/-- The messages `0` to `n - 1`, with the numbers the processor gives them. -/
def numbered (s : ℤ) (n : ℕ) : List LogCall := (List.range n).map fun i : ℕ => sent s (toInt i)

@[simp] theorem length_numbered (s : ℤ) (n : ℕ) : (numbered s n).length = n := by simp [numbered]

theorem numbered_succ (s : ℤ) (n : ℕ) :
    numbered s (n + 1) = numbered s n ++ [sent s (toInt n)] := by
  simp [numbered, List.range_succ]

theorem numbered_eq {s : ℤ} {n : ℕ} (hn : n ≤ 2 ^ 31) :
    numbered s n = (List.range n).map fun i : ℕ => sent s i := by
  refine List.map_congr_left fun i hi => ?_
  rw [List.mem_range] at hi
  rw [toInt_natCast_lt (by omega)]

/-- After the status of the first `k` responses, with `t` bytes of a body to come: all of them
announce their bodies and are reported, and those that have ended are returned from. -/
structure Framing (s : ℤ) (rs : List Response) (k t taken : ℕ) (d : PpHttpState)
    (h : List (PpCall PpHttpState)) : Prop where
  le : k ≤ rs.length
  announced : ∀ r ∈ rs.take k, r.Announced
  taken_add : taken + t = endOf rs k
  small : t < 2 ^ 31
  state : d.write = ⟨0, if t = 0 then 1 else 0, t, toInt k⟩
  sent : messages (callLogs h) = numbered s k
  returned : ∀ i < k, (i + 1 = k → t = 0) → Returns rs i h (· = numbered s (i + 1))

/-- After the status of a response that does not announce its body there is no call that returns
from it: more messages are reported already, or the processor does not come to its end by counting.
-/
structure Derailed (s : ℤ) (rs : List Response) (k taken : ℕ) (d : PpHttpState)
    (h : List (PpCall PpHttpState)) : Prop where
  unannounced : ∃ r, rs[k]? = some r ∧ ¬ r.Announced
  never : ¬ Returns rs k h (·.length = k + 1)
  off : k + 2 ≤ (messages (callLogs h)).length ∨ (messages (callLogs h)).length = k + 1 ∧
    (d.write.done = 0 → 0 < d.write.toread → taken + d.write.toread ≠ endOf rs (k + 1))
  range : -2 ^ 31 ≤ d.write.toread ∧ d.write.toread < 2 ^ 31
  sent : ∃ m : ℕ, messages (callLogs h) = numbered s m ∧ d.write.seqno = toInt m

section Steps

variable {rs : List Response} {s : ℤ} {k t taken : ℕ} {d d' : PpHttpState}
  {h : List (PpCall PpHttpState)} {c : PpCall PpHttpState} {msgs : List LogCall → Prop} {a : ℤ}
  {l : List LogCall}

theorem Returns.append (hr : Returns rs k h msgs) (c : PpCall PpHttpState) :
    Returns rs k (h ++ [c]) msgs := by
  obtain ⟨pre, c', hpre, hret⟩ := hr
  exact ⟨pre, c', hpre.trans (List.prefix_append ..), hret⟩

theorem Returns.of_concat (hr : Returns rs k (h ++ [c]) msgs) : Returns rs k h msgs ∨
    msgs (messages (callLogs (h ++ [c]))) ∧ consumed (h ++ [c]) = endOf rs (k + 1) ∧
      ∃ a d l, c.result = .ok (a, d, l) ∧ 0 < a ∧ Awaits d.write := by
  obtain ⟨pre, c', hpre, hmsgs, htaken, hret⟩ := hr
  rcases List.prefix_concat_iff.1 hpre with heq | hpre
  · right
    obtain ⟨rfl, hc⟩ := List.append_inj' heq rfl
    obtain rfl := List.singleton_inj.1 hc
    exact ⟨hmsgs, htaken, hret⟩
  · exact Or.inl ⟨pre, c', hpre, hmsgs, htaken, hret⟩

/-- What no call of a lost processor does, whatever it does. -/
theorem Derailed.step (hL : Derailed s rs k taken d h) (ht : consumed h = taken)
    (hc : c.result = .ok (a, d', l))
    (hmsg : messages l = [] ∧ d'.write.seqno = d.write.seqno ∨
      messages l = [Trace.sent s d.write.seqno] ∧ d'.write.seqno = toInt (d.write.seqno + 1))
    (hrange : -2 ^ 31 ≤ d'.write.toread ∧ d'.write.toread < 2 ^ 31)
    (hoff : messages l = [] → d'.write.done = 0 → 0 < d'.write.toread →
      d.write.done = 0 ∧ 0 < d.write.toread ∧ a.toNat + d'.write.toread = d.write.toread)
    (hret : messages l = [] → 0 < a → Awaits d'.write →
      d.write.done = 0 ∧ 0 < d.write.toread ∧ a = d.write.toread) :
    Derailed s rs k (taken + a.toNat) d' (h ++ [c]) := by
  have hlog : c.log = l := by rw [PpCall.log, hc]
  have hcret : c.ret = a := by rw [PpCall.ret, hc]
  have hmsgs : messages (callLogs (h ++ [c])) = messages (callLogs h) ++ messages l := by
    rw [callLogs_append, messages_append, callLogs_singleton, hlog]
  have hlen := congrArg List.length hmsgs
  rw [List.length_append] at hlen
  refine ⟨hL.unannounced, fun hr => ?_, ?_, hrange, ?_⟩
  · rcases hr.of_concat with hr | ⟨hk, htaken, a', d₁, l', hc', ha, hw⟩
    · exact hL.never hr
    · rw [hc] at hc'
      obtain ⟨rfl, rfl, rfl⟩ : a = a' ∧ d' = d₁ ∧ l = l' := by simpa using hc'
      rw [consumed_append, consumed_singleton, hcret, ht] at htaken
      rw [hlen] at hk
      rcases hmsg with ⟨hnil, -⟩ | ⟨hone, -⟩
      · rw [hnil, List.length_nil] at hk
        rcases hL.off with hoff' | ⟨-, hoff'⟩
        · omega
        · obtain ⟨h₁, h₂, h₃⟩ := hret hnil ha hw
          have := hoff' h₁ h₂
          omega
      · rw [hone, List.length_singleton] at hk
        rcases hL.off with hoff' | ⟨hoff', -⟩ <;> omega
  · rw [hlen]
    rcases hmsg with ⟨hnil, -⟩ | ⟨hone, -⟩
    · rw [hnil, List.length_nil]
      rcases hL.off with hoff' | ⟨hk, hoff'⟩
      · exact Or.inl hoff'
      · refine Or.inr ⟨hk, fun h₁ h₂ => ?_⟩
        obtain ⟨h₃, h₄, h₅⟩ := hoff hnil h₁ h₂
        have := hoff' h₃ h₄
        push_cast
        omega
    · rw [hone, List.length_singleton]
      rcases hL.off with hoff' | ⟨hk, -⟩
      · exact Or.inl (by omega)
      · exact Or.inl (by omega)
  · obtain ⟨m, hm, hseq⟩ := hL.sent
    rw [hmsgs, hm]
    rcases hmsg with ⟨hnil, hseq'⟩ | ⟨hone, hseq'⟩
    · exact ⟨m, by rw [hnil, List.append_nil], by rw [hseq', hseq]⟩
    · exact ⟨m + 1, by rw [hone, hseq, numbered_succ], by rw [hseq', hseq, toInt_succ]⟩

/-- Bytes of a body are counted. -/
theorem Framing.body {n : ℕ} (hF : Framing s rs k t taken d h) (ht : consumed h = taken)
    (h₀ : 0 < t) (hn : 0 < n)
    (hc : c.result = .ok (min d.write.toread n, d.countDown (min d.write.toread n), [])) :
    Framing s rs k (t - min t n) (taken + min t n) (d.countDown (min d.write.toread n))
      (h ++ [c]) := by
  have hst := hF.state
  have hsmall := hF.small
  have hat := hF.taken_add
  have hread : d.write.toread = t := by rw [hst]
  have hmin : min d.write.toread (n : ℤ) = (min t n : ℕ) := by omega
  have hleft : toInt ((t : ℤ) - (min t n : ℕ)) = (t - min t n : ℕ) := by
    rw [toInt_of_lt (by omega) (by omega)]
    omega
  have hlog : callLogs (h ++ [c]) = callLogs h := by
    rw [callLogs_append, callLogs_singleton, PpCall.log, hc, List.append_nil]
  have hcount : (d.countDown (min d.write.toread n)).write =
      ⟨0, if t - min t n = 0 then 1 else 0, (t - min t n : ℕ), toInt k⟩ := by
    rw [hmin, PpHttpState.countDown]
    simp only [hst, hleft, if_neg h₀.ne']
    simp only [Nat.cast_eq_zero]
  refine ⟨hF.le, hF.announced, by omega, by omega, hcount, by rw [hlog]; exact hF.sent,
    fun i hi hlast => ?_⟩
  by_cases hik : i + 1 = k
  · -- the body has ended
    refine ⟨h, c, List.prefix_refl _, ?_, ?_, _, _, _, hc, by omega, ?_⟩
    · rw [hlog, hF.sent, hik]
    · rw [consumed_append, consumed_singleton, PpCall.ret, hc, ht, hmin, Int.toNat_natCast, hik]
      have := hlast hik
      omega
    · rw [hcount, if_pos (hlast hik), hlast hik]
      exact ⟨rfl, rfl, rfl⟩
  · exact (hF.returned i hi fun h => absurd h hik).append c

/-- The status of a response that announces its body. -/
theorem Framing.status {r : Response} (hF : Framing s rs k 0 taken d h) (hr : rs[k]? = some r)
    (ha : r.Announced) (hc : c.result = .ok (r.header.length, d', l))
    (hl : messages l = [Trace.sent s d.write.seqno])
    (hd : d'.write = { tell r.told { d.write with awaitStatus := 0 } with
      seqno := toInt (d.write.seqno + 1) }) :
    Framing s rs (k + 1) r.body.length (taken + r.header.length) d' (h ++ [c]) := by
  obtain ⟨hk, hrk⟩ := List.getElem?_eq_some_iff.1 hr
  have hst := hF.state
  have hat := hF.taken_add
  have hbody : 0 < r.body.length := List.length_pos_of_ne_nil ha.body_ne
  have hend := endOf_succ hr
  rw [Response.message, List.length_append] at hend
  have hsmall := (atoi_bounds (r.told.drop 17)).2
  rw [ha.value] at hsmall
  have hlog : messages (callLogs (h ++ [c])) = numbered s (k + 1) := by
    rw [callLogs_append, messages_append, callLogs_singleton, PpCall.log, hc]
    simp only [hl, hF.sent, hst, numbered_succ]
  refine ⟨hk, fun x hx => ?_, by omega, by omega, ?_, hlog, fun i hi hlast => ?_⟩
  · rw [List.take_add_one, hr, Option.toList_some, List.mem_append, List.mem_singleton] at hx
    rcases hx with hx | rfl
    · exact hF.announced x hx
    · exact ha
  · rw [hd, tell, if_pos ha.content, ha.value, if_neg hbody.ne', hst]
    simp only [toInt_succ]
  · have hik : i ≠ k := by
      rintro rfl
      exact hbody.ne' (hlast rfl)
    exact (hF.returned i (by omega) fun _ => rfl).append c

/-- The status of a response that does not. -/
theorem Framing.lost {r : Response} (hF : Framing s rs k 0 taken d h) (hr : rs[k]? = some r)
    (ha : ¬ r.Announced) (hcop : r.copied.length ≤ statusCopy)
    (hc : c.result = .ok (r.header.length, d', l))
    (hl : messages l = [Trace.sent s d.write.seqno])
    (hd : d'.write = { tell r.told { d.write with awaitStatus := 0 } with
      seqno := toInt (d.write.seqno + 1) }) :
    Derailed s rs k (taken + r.header.length) d' (h ++ [c]) := by
  have hst := hF.state
  have hat := hF.taken_add
  have hend := endOf_succ hr
  rw [Response.message, List.length_append] at hend
  have hlog : messages (callLogs (h ++ [c])) = numbered s (k + 1) := by
    rw [callLogs_append, messages_append, callLogs_singleton, PpCall.log, hc]
    simp only [hl, hF.sent, hst, numbered_succ]
  have hread : contains contentLength r.told ∧ d'.write.toread = atoi (r.told.drop 17) ∨
      d'.write.done = 1 ∧ d'.write.toread = 0 := by
    rw [hd, tell, hst]
    by_cases hcon : contains contentLength r.told
    · rw [if_pos hcon]
      exact Or.inl ⟨hcon, rfl⟩
    · rw [if_neg hcon]
      exact Or.inr ⟨rfl, rfl⟩
  have hawait : d'.write.awaitStatus = 0 := by
    rw [hd, tell]
    split <;> rfl
  refine ⟨⟨r, hr, ha⟩, fun hret => ?_, Or.inr ⟨?_, fun h₁ h₂ => ?_⟩, ?_, k + 1, hlog, ?_⟩
  · rcases hret.of_concat with ⟨pre, c', hpre, hlen, -⟩ | ⟨-, -, a', d₁, l', hc', -, hw⟩
    · -- only `k` messages were reported before
      obtain ⟨post, rfl⟩ := hpre
      have hsent := congrArg List.length hF.sent
      rw [callLogs_append, messages_append, List.length_append, hlen, length_numbered] at hsent
      omega
    · rw [hc] at hc'
      obtain ⟨-, rfl, -⟩ : (r.header.length : ℤ) = a' ∧ d' = d₁ ∧ l = l' := by simpa using hc'
      have := hw.awaitStatus
      omega
  · rw [hlog, length_numbered]
  · rcases hread with ⟨hcon, hval⟩ | ⟨hdone, -⟩
    · intro heq
      refine ha ⟨hcop, hcon, by rw [← hval]; push_cast at heq; omega, ?_⟩
      rintro hnil
      rw [hnil, List.length_nil] at hend
      push_cast at heq
      omega
    · omega
  · have := atoi_bounds (r.told.drop 17)
    rcases hread with ⟨-, hval⟩ | ⟨-, hval⟩ <;> omega
  · have hseq : d'.write.seqno = toInt (toInt k + 1) := by rw [hd, hst]
    rw [hseq, toInt_succ]

end Steps

/-- What holds while there is more to be consumed. -/
def Ongoing (s : ℤ) (rs : List Response) : Writing PpHttpState := fun seen taken d h =>
  seen <+: responseStream rs ∧ consumed h = taken ∧
    ((∃ k t, Framing s rs k t taken d h) ∨ ∃ k, Derailed s rs k taken d h)

/-- What holds between writes: all of a body is consumed, and there is no whole header. -/
def Paused (s : ℤ) (rs : List Response) : Writing PpHttpState := fun seen taken d h =>
  seen <+: responseStream rs ∧ consumed h = taken ∧
    ((∃ k t, Framing s rs k t taken d h ∧ (0 < t → taken = seen.length) ∧
      (t = 0 → ∀ r, rs[k]? = some r → ¬ r.header <+: seen.drop taken)) ∨
    ∃ k, Derailed s rs k taken d h)

section Run

variable {rs : List Response} {s : ℤ} {heap : ℤ → List Byte}

/-- The end of a header in memory that begins with bytes of a response. -/
theorem Response.header_of_strstr (r : Response) {m x : List Byte} {i n : ℕ}
    (hi : strstr headerEnd m = some i) (hin : i + 4 ≤ n) (hm : m.take n <+: r.header ++ x)
    (hn : n ≤ m.length) : i + 4 = r.header.length ∧ ∃ c, m = r.header ++ c := by
  have htake : (r.header ++ x).take n = m.take n := by
    have hlen : (m.take n).length = n := by rw [List.length_take]; omega
    rw [← hlen, ← List.prefix_iff_eq_take.1 hm, hlen]
  have h4 : headerEnd.length = 4 := rfl
  have hsame : strstr headerEnd (r.header ++ x) = some i := strstr_congr (by decide) hi (by
    have := congrArg (List.take (i + 4)) htake
    rwa [List.take_take, List.take_take, Nat.min_eq_left hin] at this)
  rw [r.strstr_header] at hsame
  have h₄ := r.four_le_length_header
  have hlen : i + 4 = r.header.length := by
    have := Option.some.inj hsame
    omega
  refine ⟨hlen, m.drop r.header.length, ?_⟩
  have hhead := congrArg (List.take r.header.length) htake
  rw [List.take_take, List.take_take, Nat.min_eq_left (by omega), List.take_left' rfl] at hhead
  conv_lhs => rw [← List.take_append_drop r.header.length m, ← hhead]

/-- A call when a status of a response is awaited. -/
theorem Framing.call {k taken n : ℕ} {d : PpHttpState} {h : List (PpCall PpHttpState)}
    {seen m : List Byte} (hF : Framing s rs k 0 taken d h) (hpre : seen <+: responseStream rs)
    (ht : consumed h = taken) (hn : 0 < n) (hlen : n = seen.length - taken)
    (hm : m.take n = seen.drop taken)
    (hK : StatusWithin ⟨d, m, n⟩) :
    Post (ppHttpsWrite d s m n) (fun q =>
      q.1 ≤ 0 ∧ Paused s rs seen taken q.2.1 (h ++ [⟨⟨d, m, n⟩, .ok q⟩]) ∨
      0 < q.1 ∧ q.1 ≤ n ∧
        Ongoing s rs seen (taken + q.1.toNat) q.2.1 (h ++ [⟨⟨d, m, n⟩, .ok q⟩]))
      fun _ => ∃ r ∈ rs, ¬ r.Announced := by
  have hst := hF.state
  have hat := hF.taken_add
  have hnm : n ≤ m.length := by
    have := congrArg List.length hm
    rw [List.length_take, List.length_drop] at this
    omega
  have hk : k < rs.length := by
    rcases Nat.lt_or_ge k rs.length with hk | hk
    · exact hk
    · have hle := hpre.length_le
      have hfull := endOf_length rs
      obtain rfl : k = rs.length := by
        have := hF.le
        omega
      omega
  have hr : rs[k]? = some rs[k] := List.getElem?_eq_getElem hk
  generalize rs[k] = r at hr
  have hpend : m.take n <+: r.header ++ (r.body ++ responseStream (rs.drop (k + 1))) := by
    rw [hm, ← responseStream_drop hr, ← drop_endOf, ← hat, Nat.add_zero]
    exact List.IsPrefix.drop hpre taken
  have hd : d.write.done = 0 := by rw [hst]
  have htoread : d.write.toread = 0 := by rw [hst]; rfl
  have hawait : d.write.awaitStatus ≠ 0 := by rw [hst]; simp
  rcases hstr : strstr headerEnd m with _ | i
  · rw [ppHttpsWrite_none hd htoread hawait hstr]
    left
    refine ⟨by simp only; omega, hpre, ?_,
      Or.inl ⟨k, 0, ?_, fun h => absurd h (Nat.lt_irrefl 0), ?_⟩⟩
    · rw [consumed_append, consumed_singleton, ht]
      rfl
    · refine ⟨hF.le, hF.announced, hat, hF.small, hst, ?_, fun i hi hlast =>
        (hF.returned i hi hlast).append _⟩
      rw [callLogs_append, callLogs_singleton]
      exact (congrArg messages (List.append_nil _)).trans hF.sent
    · -- a whole header would have been found
      rintro - r' hr' hhead
      obtain rfl : r = r' := by simpa [hr] using hr'
      rw [← hm] at hhead
      obtain ⟨c, hc⟩ := hhead.trans (List.take_prefix n m)
      rw [← hc, r.strstr_header] at hstr
      cases hstr
  · have hin : i + 4 ≤ n := by
      rcases hK with hK | hK | hK | hK
      · exact absurd hd hK
      · exact absurd htoread hK
      · exact absurd hK hawait
      · have := hK i hstr
        simp only at this
        omega
    obtain ⟨hi, c, rfl⟩ := r.header_of_strstr hstr hin hpend hnm
    have hspec := httpsStatus_spec d.write s r c
    rw [ppHttpsWrite_some hd htoread hawait hstr]
    by_cases hcop : r.copied.length ≤ statusCopy
    · rw [if_pos hcop] at hspec
      obtain ⟨l, hspec, hl⟩ := hspec
      rw [hspec, ok_bind, show (i : ℤ) + 4 = r.header.length by omega]
      right
      have hret : consumed (h ++ [⟨⟨d, r.header ++ c, n⟩, .ok ((r.header.length : ℤ),
          { d with write := { tell r.told { d.write with awaitStatus := 0 } with
            seqno := toInt (d.write.seqno + 1) } }, l)⟩]) = taken + r.header.length := by
        rw [consumed_append, consumed_singleton, ht]
        rfl
      refine ⟨by simp only; omega, by simp only; omega, hpre, hret, ?_⟩
      by_cases ha : r.Announced
      · exact Or.inl ⟨k + 1, r.body.length, hF.status hr ha rfl hl rfl⟩
      · exact Or.inr ⟨k, hF.lost hr ha hcop rfl hl rfl⟩
    · rw [if_neg hcop] at hspec
      rw [hspec]
      exact ⟨r, List.mem_of_getElem? hr, fun ha => hcop ha.copied_le⟩

/-- A call of a lost processor. -/
theorem Derailed.call {k taken n : ℕ} {d : PpHttpState} {h : List (PpCall PpHttpState)}
    {seen m : List Byte} (hL : Derailed s rs k taken d h) (hpre : seen <+: responseStream rs)
    (ht : consumed h = taken) (hn : 0 < n) (hK : StatusWithin ⟨d, m, n⟩) :
    Post (ppHttpsWrite d s m n) (fun q =>
      q.1 ≤ 0 ∧ Paused s rs seen taken q.2.1 (h ++ [⟨⟨d, m, n⟩, .ok q⟩]) ∨
      0 < q.1 ∧ q.1 ≤ n ∧
        Ongoing s rs seen (taken + q.1.toNat) q.2.1 (h ++ [⟨⟨d, m, n⟩, .ok q⟩]))
      fun _ => ∃ r ∈ rs, ¬ r.Announced := by
  have hE : ∃ r ∈ rs, ¬ r.Announced := by
    obtain ⟨r, hr, ha⟩ := hL.unannounced
    exact ⟨r, List.mem_of_getElem? hr, ha⟩
  have hgo : ∀ q : ℤ × PpHttpState × List LogCall, q.1 ≤ n →
      Derailed s rs k (taken + q.1.toNat) q.2.1 (h ++ [⟨⟨d, m, n⟩, .ok q⟩]) →
      q.1 ≤ 0 ∧ Paused s rs seen taken q.2.1 (h ++ [⟨⟨d, m, n⟩, .ok q⟩]) ∨
      0 < q.1 ∧ q.1 ≤ n ∧
        Ongoing s rs seen (taken + q.1.toNat) q.2.1 (h ++ [⟨⟨d, m, n⟩, .ok q⟩]) := by
    rintro ⟨a, d', l⟩ ha hL'
    have htaken : consumed (h ++ [⟨⟨d, m, n⟩, .ok (a, d', l)⟩]) = taken + a.toNat := by
      rw [consumed_append, consumed_singleton, ht]
      rfl
    simp only at ha hL' ⊢
    by_cases ha₀ : a ≤ 0
    · rw [Int.toNat_eq_zero.2 ha₀, Nat.add_zero] at hL' htaken
      exact Or.inl ⟨ha₀, hpre, htaken, Or.inr ⟨k, hL'⟩⟩
    · exact Or.inr ⟨by omega, ha, hpre, htaken, Or.inr ⟨k, hL'⟩⟩
  have hrange := hL.range
  by_cases hd : d.write.done = 0
  · by_cases hread : d.write.toread = 0
    · by_cases hawait : d.write.awaitStatus = 0
      · rw [ppHttpsWrite_silent hd hread hawait]
        refine hgo _ (Int.le_refl _) (hL.step ht rfl (Or.inl ⟨rfl, rfl⟩) hrange ?_ ?_)
        · intro _ _ hpos
          exact absurd hread hpos.ne'
        · intro _ _ hw
          exact absurd (hw.awaitStatus.symm.trans hawait) (by decide)
      · rcases hstr : strstr headerEnd m with _ | i
        · rw [ppHttpsWrite_none hd hread hawait hstr]
          refine hgo _ (by simp only; omega) (hL.step ht rfl (Or.inl ⟨rfl, rfl⟩) hrange ?_ ?_)
          · intro _ _ hpos
            exact absurd hread hpos.ne'
          · intro _ hpos
            simp only at hpos
            omega
        · have hin : (i : ℤ) + 4 ≤ n := by
            rcases hK with hK | hK | hK | hK
            · exact absurd hd hK
            · exact absurd hread hK
            · exact absurd hK hawait
            · exact hK i hstr
          rw [ppHttpsWrite_some hd hread hawait hstr]
          refine ((httpsStatus_post m).mono_error fun _ _ => hE).bind ?_
          rintro ⟨st, l⟩ ⟨hmsg, hseq, -, hrange'⟩
          simp only at hmsg hseq hrange'
          refine hgo _ hin (hL.step ht rfl (Or.inr ⟨hmsg, hseq⟩) ?_ ?_ ?_)
          · simp only
            omega
          · intro hnil
            rw [hmsg] at hnil
            cases hnil
          · intro hnil
            rw [hmsg] at hnil
            cases hnil
    · rw [ppHttpsWrite_body hd hread]
      have hleft : toInt (d.write.toread - min d.write.toread n) =
          d.write.toread - min d.write.toread n := toInt_of_lt (by omega) (by omega)
      have hcount : (d.countDown (min d.write.toread n)).write.toread =
          d.write.toread - min d.write.toread n := hleft
      refine hgo _ (by simp only; omega) (hL.step ht rfl (Or.inl ⟨rfl, rfl⟩) ?_ ?_ ?_)
      · rw [hcount]
        omega
      · intro _ _ hpos
        rw [hcount] at hpos ⊢
        exact ⟨hd, by omega, by omega⟩
      · intro _ hpos hw
        have := hw.toread
        rw [hcount] at this
        exact ⟨hd, by omega, by omega⟩
  · rw [ppHttpsWrite_done hd]
    refine hgo _ (Int.le_refl _) (hL.step ht rfl (Or.inl ⟨rfl, rfl⟩) hrange ?_ ?_)
    · intro _ h₀
      exact absurd h₀ hd
    · intro _ _ hw
      exact absurd hw.done hd

/-- **The calls of a run of responses**, when ends of a status are found in the bytes given. -/
theorem https_writes : Writes (ppHttps heap ppHttpsWrite) s (responseStream rs) (Ongoing s rs)
    (Paused s rs) (fun c => StatusWithin c.before) (fun _ => ∃ r ∈ rs, ¬ r.Announced) where
  arrive := by
    rintro seen taken d h c hpre ⟨-, ht, ⟨k, t, hF, -⟩ | hL⟩
    · exact ⟨hpre, ht, Or.inl ⟨k, t, hF⟩⟩
    · exact ⟨hpre, ht, Or.inr hL⟩
  rest := by
    rintro seen d h ⟨hpre, ht, ⟨k, t, hF⟩ | hL⟩
    · refine ⟨hpre, ht, Or.inl ⟨k, t, hF, fun _ => rfl, fun _ r _ hhead => ?_⟩⟩
      rw [List.drop_length, List.prefix_nil] at hhead
      have := r.four_le_length_header
      rw [hhead, List.length_nil] at this
      omega
    · exact ⟨hpre, ht, Or.inr hL⟩
  call := by
    rintro seen taken d h m n ⟨hpre, ht, ⟨k, t, hF⟩ | ⟨k, hL⟩⟩ hn hlen hm hK
    · rcases Nat.eq_zero_or_pos t with rfl | hpos
      · exact (hF.call hpre ht hn hlen hm hK).mono fun q hq => hq.imp_right Or.inl
      · -- bytes of a body
        have hst := hF.state
        have hd : d.write.done = 0 := by rw [hst]
        have hread : d.write.toread = t := by rw [hst]
        have hmin : min d.write.toread (n : ℤ) = (min t n : ℕ) := by omega
        change Post (ppHttpsWrite d s m n) _ _
        rw [ppHttpsWrite_body hd (by omega)]
        have hbody := hF.body ht hpos hn (c := ⟨⟨d, m, n⟩, .ok (min d.write.toread n,
          d.countDown (min d.write.toread n), [])⟩) rfl
        refine Or.inr (Or.inl ⟨by simp only; omega, by simp only; omega, hpre, ?_,
          Or.inl ⟨k, t - min t n, ?_⟩⟩)
        · rw [consumed_append, consumed_singleton, ht]
          rfl
        · rw [show (min d.write.toread (n : ℤ)).toNat = min t n by omega]
          exact hbody
    · exact (hL.call hpre ht hn hK).mono fun q hq => hq.imp_right Or.inl

/-- A run that goes through never takes more than it is given for a status. -/
theorem https_writes_within (s : ℤ) (rs : List Response) :
    Writes (ppHttps heap ppHttpsWrite) s (responseStream rs)
      (fun _ _ _ h => ∀ c ∈ h, StatusWithin c.before)
      (fun _ _ _ h => ∀ c ∈ h, StatusWithin c.before)
      (fun _ => True) AnyFault where
  arrive := fun _ _ h => h
  rest := fun h => h
  call := by
    rintro seen taken d h m n hJ hn - - -
    have hgo : ∀ q : Except Fault (ℤ × PpHttpState × List LogCall), StatusWithin ⟨d, m, n⟩ →
        ∀ c ∈ h ++ [⟨⟨d, m, n⟩, q⟩], StatusWithin c.before := by
      intro q hw c hc
      rcases List.mem_append.1 hc with hc | hc
      · exact hJ c hc
      · obtain rfl := List.mem_singleton.1 hc
        exact hw
    change Post (ppHttpsWrite d s m n) _ _
    by_cases hd : d.write.done = 0
    · by_cases hread : d.write.toread = 0
      · by_cases hawait : d.write.awaitStatus = 0
        · rw [ppHttpsWrite_silent hd hread hawait]
          exact Or.inr (Or.inl ⟨by simp only; omega, Int.le_refl _,
            hgo _ (Or.inr (Or.inr (Or.inl hawait)))⟩)
        · rcases hstr : strstr headerEnd m with _ | i
          · rw [ppHttpsWrite_none hd hread hawait hstr]
            refine Or.inl ⟨by simp only; omega, hgo _ (Or.inr (Or.inr (Or.inr ?_)))⟩
            intro j hj
            rw [hstr] at hj
            cases hj
          · rw [ppHttpsWrite_some hd hread hawait hstr]
            refine (anyFault_post _).bind fun q _ => ?_
            by_cases hin : (i : ℤ) + 4 ≤ n
            · refine Or.inr (Or.inl ⟨by simp only; omega, hin,
                hgo _ (Or.inr (Or.inr (Or.inr ?_)))⟩)
              intro j hj
              obtain rfl : i = j := Option.some.inj (hstr.symm.trans hj)
              exact hin
            · exact Or.inr (Or.inr ⟨by simp only; omega, fun _ => trivial⟩)
      · rw [ppHttpsWrite_body hd hread]
        have hw : StatusWithin ⟨d, m, n⟩ := Or.inr (Or.inl hread)
        by_cases hpos : 0 < min d.write.toread (n : ℤ)
        · exact Or.inr (Or.inl ⟨hpos, by simp only; omega, hgo _ hw⟩)
        · exact Or.inl ⟨by simp only; omega, hgo _ hw⟩
    · rw [ppHttpsWrite_done hd]
      exact Or.inr (Or.inl ⟨by simp only; omega, Int.le_refl _, hgo _ (Or.inl hd)⟩)

end Run

/-! ## The exact condition -/

section Exact

variable {rs : List Response} {s : ℤ} {heap : ℤ → List Byte} {x : PpHttpState}
  {v₀ : Vfd PpHttpState} {cs : List (List Byte)}

theorem Returns.mono {k : ℕ} {h : List (PpCall PpHttpState)} {p q : List LogCall → Prop}
    (hr : Returns rs k h p) (hpq : ∀ l, p l → q l) : Returns rs k h q := by
  obtain ⟨pre, c, hpre, hmsgs, hret⟩ := hr
  exact ⟨pre, c, hpre, hpq _ hmsgs, hret⟩

theorem paused_start (heap : ℤ → List Byte) (rs : List Response) (s : ℤ) (x : PpHttpState) :
    Paused s rs [] 0 ((ppHttps heap ppHttpsWrite).ppInit s x).1 [] := by
  refine ⟨List.nil_prefix, rfl, Or.inl ⟨0, 0, ?_, fun h => absurd h (Nat.lt_irrefl 0),
    fun _ r _ hhead => ?_⟩⟩
  · exact ⟨Nat.zero_le _, by simp, rfl, by decide, rfl, rfl, fun i hi => absurd hi (by omega)⟩
  · have h₄ := r.four_le_length_header
    rw [List.drop_nil, List.prefix_nil] at hhead
    rw [hhead, List.length_nil] at h₄
    omega

/-- When the whole stream is written, all responses are over. -/
theorem Framing.finished {k t taken : ℕ} {d : PpHttpState} {h : List (PpCall PpHttpState)}
    (hF : Framing s rs k t taken d h) (hbody : 0 < t → taken = (responseStream rs).length)
    (hhead : t = 0 → ∀ r, rs[k]? = some r → ¬ r.header <+: (responseStream rs).drop taken) :
    k = rs.length ∧ t = 0 := by
  have hat := hF.taken_add
  have hle := endOf_le rs k
  obtain rfl : t = 0 := by
    by_contra ht
    have := hbody (by omega)
    omega
  refine ⟨?_, rfl⟩
  by_contra hk
  have hlt : k < rs.length := by
    have := hF.le
    omega
  refine hhead rfl rs[k] (List.getElem?_eq_getElem hlt) ?_
  rw [show taken = endOf rs k by omega, drop_endOf,
    responseStream_drop (List.getElem?_eq_getElem hlt)]
  exact List.prefix_append ..

/-- The run of a stream of responses, when ends of a status are found in the bytes given. -/
theorem responses_run (hcs : cs.flatten = responseStream rs)
    (hfit : WriteFits s (v₀.accepted (ppHttps heap ppHttpsWrite) s x) cs)
    (hw : ∀ c ∈ runCalls s (v₀.accepted (ppHttps heap ppHttpsWrite) s x) cs,
      StatusWithin c.before) :
    Post (writeRun s (v₀.accepted (ppHttps heap ppHttpsWrite) s x) cs)
      (fun q => ∃ taken, logs q.2 =
          callLogs (runCalls s (v₀.accepted (ppHttps heap ppHttpsWrite) s x) cs) ∧
        (Framing s rs rs.length 0 taken q.1.ppData
            (runCalls s (v₀.accepted (ppHttps heap ppHttpsWrite) s x) cs) ∨
          ∃ k, Derailed s rs k taken q.1.ppData
            (runCalls s (v₀.accepted (ppHttps heap ppHttpsWrite) s x) cs)))
      (fun _ => ∃ r ∈ rs, ¬ r.Announced) := by
  have hrun := writeRun_rule https_writes (held_opened v₀ (ppHttps heap ppHttpsWrite) _) rfl
    (paused_start heap rs s x) (by rw [List.nil_append, hcs]) hfit hw
  refine hrun.mono ?_
  rintro ⟨v, tr⟩ ⟨taken, -, ⟨-, -, hcase⟩, hlogs⟩
  rw [List.nil_append] at hcase
  refine ⟨taken, hlogs, ?_⟩
  rcases hcase with ⟨k, t, hF, hbody, hhead⟩ | hL
  · rw [List.nil_append, hcs] at hbody hhead
    obtain ⟨rfl, rfl⟩ := hF.finished hbody hhead
    exact Or.inl hF
  · exact Or.inr hL

/-- Responses that announce their bodies are framed. -/
theorem framed_of_announced (hcs : cs.flatten = responseStream rs)
    (hfit : WriteFits s (v₀.accepted (ppHttps heap ppHttpsWrite) s x) cs)
    (ha : ∀ r ∈ rs, r.Announced)
    (hw : ∀ c ∈ runCalls s (v₀.accepted (ppHttps heap ppHttpsWrite) s x) cs,
      StatusWithin c.before)
    (hn : rs.length ≤ 2 ^ 31) :
    Framed s rs (v₀.accepted (ppHttps heap ppHttpsWrite) s x) cs := by
  have hno : ¬ ∃ r ∈ rs, ¬ r.Announced := fun ⟨r, hr, hna⟩ => hna (ha r hr)
  obtain ⟨⟨v, tr⟩, hrun, taken, hlogs, hF | ⟨k, hL⟩⟩ :=
    ((responses_run hcs hfit hw).mono_error fun _ => hno).total
  · refine ⟨⟨v, tr, hrun, ?_⟩, fun k hk => ?_⟩
    · simp only at hlogs
      rw [hlogs, hF.sent, numbered_eq hn]
    · refine (hF.returned k hk fun _ => rfl).mono fun l hl => ?_
      rw [hl, numbered_eq (by omega)]
  · obtain ⟨r, hr, hna⟩ := hL.unannounced
    exact absurd (ha r (List.mem_of_getElem? hr)) hna

theorem toInt_lt (z : ℤ) : toInt z < 2 ^ 31 := Int.bmod_lt (by decide)

/-- What is framed meets the condition. -/
theorem announced_of_framed (hcs : cs.flatten = responseStream rs)
    (hfit : WriteFits s (v₀.accepted (ppHttps heap ppHttpsWrite) s x) cs)
    (h : Framed s rs (v₀.accepted (ppHttps heap ppHttpsWrite) s x) cs) :
    (∀ r ∈ rs, r.Announced) ∧
      (∀ c ∈ runCalls s (v₀.accepted (ppHttps heap ppHttpsWrite) s x) cs,
        StatusWithin c.before) ∧ rs.length ≤ 2 ^ 31 := by
  obtain ⟨⟨v, tr, hrun, hmsgs⟩, heach⟩ := h
  have hw : ∀ c ∈ runCalls s (v₀.accepted (ppHttps heap ppHttpsWrite) s x) cs,
      StatusWithin c.before := by
    have hrule := writeRun_rule (https_writes_within s rs) (h := [])
      (held_opened v₀ (ppHttps heap ppHttpsWrite) ((ppHttps heap ppHttpsWrite).ppInit s x).1) rfl
      (fun _ hc => absurd hc List.not_mem_nil) (by rw [List.nil_append, hcs]) hfit
      fun _ _ => trivial
    obtain ⟨-, -, hw, -⟩ := hrule.of_eq_ok hrun
    rwa [List.nil_append] at hw
  obtain ⟨taken, hlogs, hF | ⟨k, hL⟩⟩ := (responses_run hcs hfit hw).of_eq_ok hrun
  · have hall := hF.announced
    rw [List.take_length] at hall
    refine ⟨hall, hw, ?_⟩
    simp only at hlogs
    rw [hlogs, hF.sent] at hmsgs
    by_contra hgt
    -- the last number has run over
    have hlast := congrArg (·[rs.length - 1]?) hmsgs
    simp only [numbered, List.getElem?_map, List.getElem?_range (show rs.length - 1 < rs.length by
      omega), Option.map_some, Option.some.injEq, sent, logbinIiis, LogCall.mk.injEq,
      List.cons.injEq, and_true, true_and] at hlast
    have := toInt_lt (rs.length - 1 : ℕ)
    omega
  · obtain ⟨r, hr, -⟩ := hL.unannounced
    have hk := (List.getElem?_eq_some_iff.1 hr).1
    exact absurd ((heach k hk).mono fun l hl => by rw [hl, List.length_map, List.length_range])
      hL.never

/-- **The framing of HTTP responses**: for every sequence of responses and every split of what is
written for them whose unconsumed bytes fit in the buffer, the run is framed if and only if all
responses announce their bodies, at every call that awaits a status the end of a status found lies
within the bytes given, and there are at most 2^31 responses. -/
theorem responses_framed_iff (heap : ℤ → List Byte) (s : ℤ) (x : PpHttpState)
    (v₀ : Vfd PpHttpState) (rs : List Response) (cs : List (List Byte))
    (hcs : cs.flatten = responseStream rs)
    (hfit : WriteFits s (v₀.accepted (ppHttps heap ppHttpsWrite) s x) cs) :
    Framed s rs (v₀.accepted (ppHttps heap ppHttpsWrite) s x) cs ↔
      (∀ r ∈ rs, r.Announced) ∧
        (∀ c ∈ runCalls s (v₀.accepted (ppHttps heap ppHttpsWrite) s x) cs,
          StatusWithin c.before) ∧ rs.length ≤ 2 ^ 31 :=
  ⟨announced_of_framed hcs hfit, fun ⟨ha, hw, hn⟩ => framed_of_announced hcs hfit ha hw hn⟩

theorem lineText_two : ∀ f ∈ [ascii "Content-Length: 2"], f ≠ [] ∧ LineText f := by decide

/-- A response with a body of two bytes. -/
def twoBytes : Response where
  status := ascii "200"
  reason := ascii "OK"
  fields := [ascii "Content-Length: 2"]
  body := ascii "hi"
  status_text := by decide
  reason_text := by decide
  fields_text := lineText_two
  length_field := ⟨ascii "2", by decide, List.all_eq_true.1 (by decide), by decide, by decide⟩

/-- A response with no body. -/
def noBytes : Response where
  status := ascii "200"
  reason := ascii "OK"
  fields := [ascii "Content-Length: 0"]
  body := []
  status_text := by decide
  reason_text := by decide
  fields_text := by decide
  length_field := ⟨ascii "0", by decide, List.all_eq_true.1 (by decide), by decide, by decide⟩

/-- A descriptor just accepted, in a process that has accepted none before. -/
def freshHttps (s : ℤ) : Vfd PpHttpState :=
  (Vfd.zero default).accepted (ppHttps (fun _ => []) ppHttpsWrite) s default

theorem responses_framed_iff_twoBytes :
    Framed 5 [twoBytes] (freshHttps 5) [twoBytes.message] ↔
      (∀ r ∈ [twoBytes], r.Announced) ∧
        (∀ c ∈ runCalls 5 (freshHttps 5) [twoBytes.message], StatusWithin c.before) ∧
        [twoBytes].length ≤ 2 ^ 31 :=
  responses_framed_iff (fun _ => []) 5 default (Vfd.zero default) [twoBytes] [twoBytes.message]
    (by decide) ⟨by decide, fun _ _ _ => trivial⟩

/-- Behind a response with no body the processor is silent. -/
theorem empty_body_silences :
    [responseStream [noBytes, twoBytes]].flatten = responseStream [noBytes, twoBytes] ∧
      WriteFits 5 (freshHttps 5) [responseStream [noBytes, twoBytes]] ∧
      ¬ Framed 5 [noBytes, twoBytes] (freshHttps 5) [responseStream [noBytes, twoBytes]] := by
  have hcs : [responseStream [noBytes, twoBytes]].flatten = responseStream [noBytes, twoBytes] := by
    decide
  have hfit : WriteFits 5 (freshHttps 5) [responseStream [noBytes, twoBytes]] :=
    ⟨by decide, fun _ _ _ => trivial⟩
  refine ⟨hcs, hfit, fun h => ?_⟩
  exact ((announced_of_framed hcs hfit h).1 noBytes List.mem_cons_self).body_ne rfl

end Exact

end BorderPatrol.Trace
