import BorderPatrol.Trace.Overrun

/-!
# Writing a vector

`writev` hands to `vwrite_req`, one after the other, the parts of its buffers that the kernel took:
all of some, nothing of those that are empty, and a piece of the last. Together they are the bytes
that were sent (`vecReqs_bytes`). A processor that runs a parser does not see where they were cut:
it ends with the data, the bytes not consumed and the messages that it has after one `write` of
them (`writev_is_write`).
-/

namespace BorderPatrol.Trace

open Foundations Foundations.Resumable

variable {σ τ : Type} {P : PpDispatcher σ} {s : ℤ} {get : σ → τ} {step : Step τ Byte ℤ}
  {mk : ℤ → LogCall}

/-! ## What is passed on -/

/-- The bytes end in this buffer. -/
theorem shown_of_le {n todo : ℕ} (h : todo ≤ n) :
    (if (todo : ℤ) < n then (todo : ℤ) else n) = todo := by
  split_ifs <;> omega

/-- All of this buffer is shown. -/
theorem shown_of_lt {n todo : ℕ} (h : n < todo) :
    (if (todo : ℤ) < n then (todo : ℤ) else n) = n :=
  if_neg (by omega)

/-- What is passed on of one buffer. -/
theorem taken_bytes {buf : List Byte} {todo : ℕ} {c : WriteCall} (hbuf : c.buf = buf)
    (hlen : c.len = if (todo : ℤ) < buf.length then (todo : ℤ) else buf.length) :
    c.bytes = buf.take todo := by
  rw [WriteCall.bytes, hbuf, hlen]
  split_ifs with hlt
  · rw [Int.toNat_natCast]
  · rw [Int.toNat_natCast, List.take_length, List.take_of_length_le (by omega)]

/-- **The bytes passed on** are the first `todo` of the vector. -/
theorem vecReqs_bytes {vec : List (List Byte)} {todo : ℕ} (hle : todo ≤ vec.flatten.length) :
    (SendCall.vecReqs vec todo).flatMap WriteCall.bytes = vec.flatten.take todo := by
  induction vec generalizing todo with
  | nil =>
    obtain rfl : todo = 0 := by simpa using hle
    rfl
  | cons buf vec ih =>
    rw [List.flatten_cons, List.length_append] at hle
    rw [SendCall.vecReqs, List.flatMap_cons, List.flatten_cons, List.take_append,
      taken_bytes rfl rfl]
    congr 1
    rcases le_or_gt todo buf.length with hend | hlt
    · simp only [shown_of_le hend, sub_self, if_true, List.flatMap_nil]
      rw [Nat.sub_eq_zero_of_le hend, List.take_zero]
    · have hleft : (todo : ℤ) - buf.length = (todo - buf.length : ℕ) := by omega
      simp only [shown_of_lt hlt, hleft]
      rw [if_neg (by omega), ih (by omega)]

/-! ## What the processor makes of it -/

/-- The loop of `writev` on a processor that runs a parser drains what was left and the bytes passed
on. -/
theorem writevReq_drains (hs : Lawful step) (hP : Parses (fun d => P.ppWrite d s) get step mk)
    {vec : List (List Byte)} {v : Vfd σ} {b : List Byte} {todo : ℕ} (h : Unwritten P v b)
    (hpos : 0 < todo) (hle : todo ≤ vec.flatten.length) (hfit : v.wbuflen + todo ≤ vbufsize) :
    ∃ v' tr, writevReq s v vec todo = .ok (v', tr) ∧
      Unwritten P v' (drain step (get v.ppData) (b ++ vec.flatten.take todo)).rest ∧
      get v'.ppData = (drain step (get v.ppData) (b ++ vec.flatten.take todo)).state ∧
      messages (logs tr) =
        (drain step (get v.ppData) (b ++ vec.flatten.take todo)).out.map mk := by
  induction vec generalizing v b todo with
  | nil =>
    rw [List.flatten_nil, List.length_nil] at hle
    omega
  | cons buf vec ih =>
    rw [List.flatten_cons, List.length_append] at hle
    rw [writevReq, List.flatten_cons, List.take_append]
    have hlen := h.len
    rcases le_or_gt todo buf.length with hend | hlt
    · have hne : buf.take todo ≠ [] := by
        apply List.ne_nil_of_length_pos
        rw [List.length_take]
        omega
      have hbytes := vwriteReq_bytes v s ⟨buf, todo, by omega⟩
      rw [WriteCall.bytes, Int.toNat_natCast] at hbytes
      obtain ⟨v', tr, hreq, hv'⟩ := vwriteReq_drains (s := s) hs hP h hne (by
        rw [List.length_take]
        omega)
      rw [shown_of_le hend, hbytes, hreq, Nat.sub_eq_zero_of_le hend, List.take_zero,
        List.append_nil]
      exact ⟨v', tr, if_pos (Int.sub_self _), hv'⟩
    · have hleft : (todo : ℤ) - buf.length = (todo - buf.length : ℕ) := by omega
      have hmore : ((todo - buf.length : ℕ) : ℤ) ≠ 0 := by omega
      rw [shown_of_lt hlt, List.take_of_length_le hlt.le]
      by_cases hbuf : buf = []
      · -- nothing of it is shown
        subst hbuf
        obtain ⟨v', tr, hrest, hv'⟩ := ih h hpos (by simpa using hle) hfit
        have hnone : vwriteReq v s [] 0 = .ok (v, []) := if_pos (.inr le_rfl)
        refine ⟨v', tr, ?_, hv'⟩
        simp only [List.length_nil, Int.natCast_zero, hnone, ok_bind, Int.sub_zero]
        rw [if_neg (by omega), hrest]
        rfl
      · obtain ⟨v₁, tr₁, hreq, hv₁, hst₁, hout₁⟩ :=
          vwriteReq_drains (s := s) hs hP h hbuf (by omega)
        have hsuf := (drain_suffix hs (get v.ppData) (b ++ buf)).length_le
        have hlen₁ := hv₁.len
        rw [List.length_append] at hsuf
        have hpos' : 0 < todo - buf.length := by omega
        obtain ⟨v', tr, hrest, hv', hst, hout⟩ := ih hv₁ hpos' (by omega) (by omega)
        rw [hst₁] at hv' hst hout
        rw [← List.append_assoc, drain_append hs]
        refine ⟨v', tr₁ ++ tr, ?_, hv', hst, ?_⟩
        · rw [hreq, ok_bind]
          simp only [hleft, if_neg hmore, hrest, ok_bind]
          rfl
        · rw [logs_append, messages_append, hout₁, hout, Result.after_out, List.map_append]

/-- A parser on a part of the data is one on the whole, when nothing else of the data changes. -/
theorem Parses.onPart {f : σ → List Byte → ℤ → Except Fault (ℤ × σ × List LogCall)}
    {set : σ → τ → σ} (hP : Parses f get step mk) (hself : ∀ d, set d (get d) = d)
    (hf : ∀ d m n a d' l, f d m n = .ok (a, d', l) → d' = set d (get d')) :
    Parses f id (onPart get set step) mk := by
  intro d m n hn hm hfit
  obtain ⟨a, d', l, hcall, h⟩ := hP d m n hn hm hfit
  refine ⟨a, d', l, hcall, ?_⟩
  have hd := hf d m n a d' l hcall
  rcases h with ⟨hneg, hnone, hget, hmsg⟩ | ⟨k, ids, hk, hsome, hmsg⟩
  · rw [hget, hself] at hd
    exact .inl ⟨hneg, onPart_of_none hnone, hd, hmsg⟩
  · refine .inr ⟨k, ids, hk, ?_, hmsg⟩
    rw [id, onPart_of_some hsome, ← hd]
    rfl

/-- The cursors of the write buffer as `vwrite_req` leaves them. -/
structure Vfd.AtRest (v : Vfd σ) : Prop where
  len : 0 ≤ v.wbuflen
  ofs : v.wbufofs = 0

theorem Vfd.opened_atRest (u : Vfd σ) (P : PpDispatcher σ) (d : σ) : (u.opened P d).AtRest :=
  ⟨le_rfl, rfl⟩

theorem Vfd.AtRest.vwriteReq {v v' : Vfd σ} (h : v.AtRest) {buf : List Byte} {len : ℤ}
    {tr : List Event} (hreq : vwriteReq v s buf len = .ok (v', tr)) : v'.AtRest := by
  unfold Trace.vwriteReq at hreq
  split at hreq
  · cases hreq
    exact h
  · obtain ⟨u, -, hreq⟩ := bind_eq_ok hreq
    obtain ⟨⟨v₁, tr₁⟩, -, hreq⟩ := bind_eq_ok hreq
    obtain ⟨u', hin, hreq⟩ := bind_eq_ok hreq
    cases hreq
    exact ⟨(of_inBounds hin).1, rfl⟩

/-- The bytes that the buffer holds. -/
def Vfd.leftover (v : Vfd σ) : List Byte := v.wbuf.slice 0 v.wbuflen.toNat

theorem Vfd.AtRest.unwritten {v : Vfd σ} (h : v.AtRest) (hd : v.ppDispatcher = some P)
    (hfit : v.wbuflen ≤ vbufsize) : Unwritten P v v.leftover := by
  have hlen : v.leftover.length = v.wbuflen.toNat := Mem.length_slice ..
  have h₀ := h.len
  refine ⟨hd, by omega, h.ofs, by omega, ?_⟩
  rw [hlen]
  rfl

/-- On descriptor `s` two calls have left the same data of the processor and the same bytes not
consumed, and have reported the same messages. -/
structure SameOutcome (s : ℤ) (q q' : Reply σ) : Prop where
  data : (q.proc.vfdTab s).ppData = (q'.proc.vfdTab s).ppData
  left : (q.proc.vfdTab s).leftover = (q'.proc.vfdTab s).leftover
  rest : (q.proc.vfdTab s).AtRest ∧ (q'.proc.vfdTab s).AtRest
  msgs : messages (logs q.trace) = messages (logs q'.trace)

/-- A `writev` of `r` bytes passes on the first `r` of its vector and, where they have room, has the
same outcome as a `write` of them. -/
def WritevIsWrite (P : PpDispatcher σ) : Prop :=
  ∀ (p : Process σ) (s : ℤ) (vec : List (List Byte)) (r : ℕ), 0 ≤ s ∧ s < maxFds →
    (p.vfdTab s).ppDispatcher = some P → (p.vfdTab s).AtRest → r ≤ vec.flatten.length →
    (p.vfdTab s).wbuflen + r ≤ vbufsize →
      (∀ sent, (SendCall.writev vec r sent).reqs.flatMap WriteCall.bytes = vec.flatten.take r) ∧
      ∃ q q', writev p s vec r = .ok q ∧ write p s (vec.flatten.take r) r = .ok q' ∧
        SameOutcome s q q'

theorem Unwritten.atRest {v : Vfd σ} {b : List Byte} (h : Unwritten P v b) :
    v.AtRest ∧ v.leftover = b := by
  have hlen := h.len
  refine ⟨⟨by omega, h.ofs⟩, ?_⟩
  rw [Vfd.leftover, show v.wbuflen.toNat = b.length by omega, h.bytes]

/-- What `writev` leaves on its descriptor, and what it reports. -/
theorem writev_of {p : Process σ} {vec : List (List Byte)} {r : ℤ} {v : Vfd σ} {tr : List Event}
    (hs : 0 ≤ s ∧ s < maxFds) (h : writevShown s (p.vfdTab s) vec (toInt r) = .ok (v, tr)) :
    ∃ q, writev p s vec r = .ok q ∧ q.proc.vfdTab s = v ∧
      messages (logs q.trace) = messages (logs tr) := by
  rw [writev, if_neg (by omega)]
  simp only [h, ok_bind]
  refine ⟨_, rfl, Function.update_self .., ?_⟩
  simp [logs, messages, logbinIi]

/-- The same of `write`. -/
theorem write_of {p : Process σ} {buf : List Byte} {r : ℤ} {v : Vfd σ} {tr : List Event}
    (hs : 0 ≤ s ∧ s < maxFds) (h : vwriteReq (p.vfdTab s) s buf (toInt r) = .ok (v, tr)) :
    ∃ q, write p s buf r = .ok q ∧ q.proc.vfdTab s = v ∧
      messages (logs q.trace) = messages (logs tr) := by
  rw [write, wrapSend, if_neg (by omega)]
  simp only [h, ok_bind]
  refine ⟨_, rfl, Function.update_self .., ?_⟩
  simp [logs, messages, logbinIi]

/-- **A processor that runs a parser** on all its data does not see how the bytes are cut. -/
theorem Parses.writevIsWrite {step : Step σ Byte ℤ} (hs : Lawful step)
    (hP : ∀ s, ∃ mk, Parses (fun d => P.ppWrite d s) id step mk) : WritevIsWrite P := by
  intro p s vec r hrange hd hrest hle hfit
  obtain ⟨mk, hparses⟩ := hP s
  have hlen := hrest.len
  have hv : vbufsize < 2 ^ 31 := by decide
  have hint : toInt r = r := toInt_natCast_lt (by omega)
  have hun := hrest.unwritten hd (by omega)
  rcases Nat.eq_zero_or_pos r with rfl | hpos
  · -- nothing was sent
    have hnone : vwriteReq (p.vfdTab s) s [] (toInt (0 : ℕ)) = .ok (p.vfdTab s, []) :=
      if_pos (.inr hint.le)
    have hshown : writevShown s (p.vfdTab s) vec (toInt (0 : ℕ)) = .ok (p.vfdTab s, []) := by
      rw [writevShown, hint, if_neg (fun h => lt_irrefl _ h.1)]
    obtain ⟨q, hq, hvq, hmq⟩ := writev_of hrange hshown
    obtain ⟨q', hq', hvq', hmq'⟩ := write_of hrange hnone
    refine ⟨fun sent => ?_, q, q', hq, hq', ?_⟩
    · rw [SendCall.reqs, hint, if_neg (by simp)]
      rfl
    · refine ⟨?_, ?_, ?_, hmq.trans hmq'.symm⟩ <;> rw [hvq, hvq']
      exact ⟨hrest, hrest⟩
  · have hne : vec.flatten.take r ≠ [] := by
      apply List.ne_nil_of_length_pos
      rw [List.length_take]
      omega
    have htake : (vec.flatten.take r).length = r := by
      rw [List.length_take]
      omega
    obtain ⟨v₁, tr₁, hreq₁, hv₁, hst₁, hout₁⟩ :=
      writevReq_drains (s := s) hs hparses hun hpos hle hfit
    obtain ⟨v₂, tr₂, hreq₂, hv₂, hst₂, hout₂⟩ := vwriteReq_drains (s := s) hs hparses hun hne (by
      rw [htake]
      omega)
    rw [htake, ← hint] at hreq₂
    have hshown : writevShown s (p.vfdTab s) vec (toInt r) = .ok (v₁, tr₁) := by
      rw [writevShown, if_pos ⟨by omega, by rw [hd]; rfl⟩, hint, hreq₁]
    obtain ⟨q, hq, rfl, hmq⟩ := writev_of hrange hshown
    obtain ⟨q', hq', rfl, hmq'⟩ := write_of hrange hreq₂
    refine ⟨fun sent => ?_, q, q', hq, hq', ?_⟩
    · rw [SendCall.reqs, hint, if_pos (by omega), vecReqs_bytes hle]
    · obtain ⟨hrest₁, hleft₁⟩ := hv₁.atRest
      obtain ⟨hrest₂, hleft₂⟩ := hv₂.atRest
      exact ⟨hst₁.trans hst₂.symm, hleft₁.trans hleft₂.symm, ⟨hrest₁, hrest₂⟩,
        (hmq.trans hout₁).trans (hmq'.trans hout₂).symm⟩

/-! ## PostgreSQL and MySQL -/

theorem psqlWrite_whole {role : PpId} (hr : role = .psqlc ∨ role = .psqls) (s : ℤ) :
    Parses (fun d => psqlWrite role d s) id
      (onPart PpPsqlState.write (fun d w => { d with write := w })
        (psqlUnits (psqlType role .write))) (psqlMsg role .write s) := by
  refine (psqlWrite_parses hr s).onPart (fun _ => rfl) ?_
  intro d m n a d' l h
  cases h
  rfl

theorem mysqlWrite_whole {role : PpId} (hr : role = .mysqlc ∨ role = .mysqls) (s : ℤ) :
    Parses (fun d => mysqlWrite role d s) id
      (onPart PpMysqlState.write (fun d w => { d with write := w }) mysqlUnits)
      (mysqlMsg role .write s) := by
  refine (mysqlWrite_parses hr s).onPart (fun _ => rfl) ?_
  intro d m n a d' l h
  cases h
  rfl

/-- **`writev` is `write` of the gathered bytes**, for the processors of PostgreSQL and MySQL. -/
theorem writev_is_write : WritevIsWrite ppPsqlc ∧ WritevIsWrite ppPsqls ∧
    WritevIsWrite ppMysqlc ∧ WritevIsWrite ppMysqls := by
  have hpsql : ∀ c, Lawful (onPart PpPsqlState.write (fun d w => { d with write := w })
      (psqlUnits c)) := fun c => (psqlUnits_lawful c).onPart (fun _ _ => rfl) fun _ _ _ => rfl
  have hmysql : Lawful (onPart PpMysqlState.write (fun d w => { d with write := w }) mysqlUnits) :=
    mysqlUnits_lawful.onPart (fun _ _ => rfl) fun _ _ _ => rfl
  refine ⟨?_, ?_, ?_, ?_⟩
  · exact Parses.writevIsWrite (hpsql _) fun s => ⟨_, psqlWrite_whole (.inl rfl) s⟩
  · exact Parses.writevIsWrite (hpsql _) fun s => ⟨_, psqlWrite_whole (.inr rfl) s⟩
  · exact Parses.writevIsWrite hmysql fun s => ⟨_, mysqlWrite_whole (.inl rfl) s⟩
  · exact Parses.writevIsWrite hmysql fun s => ⟨_, mysqlWrite_whole (.inr rfl) s⟩

/-- A client of MySQL whose descriptors were just opened. -/
def mysqlClient : Process PpMysqlState :=
  ⟨fun _ => (Vfd.zero ⟨⟨0, 0⟩, ⟨0, 0⟩⟩).opened ppMysqlc ⟨⟨0, 0⟩, ⟨0, 0⟩⟩, FdSets.zero⟩

/-- Five bytes of the seven of three buffers, of which one is empty: a packet and a part of one. -/
theorem writev_is_write_fiveBytes : ∃ q q',
    writev mysqlClient 5 [[0, 0, 0], [], [0, 1, 0, 0]] 5 = .ok q ∧
      write mysqlClient 5 [0, 0, 0, 0, 1] 5 = .ok q' ∧ SameOutcome 5 q q' :=
  (writev_is_write.2.2.1 mysqlClient 5 [[0, 0, 0], [], [0, 1, 0, 0]] 5 (by decide) rfl
    (Vfd.opened_atRest ..) (by decide) (by decide)).2

end BorderPatrol.Trace
