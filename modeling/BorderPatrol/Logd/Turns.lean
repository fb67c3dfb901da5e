import BorderPatrol.Foundations.Runs
import BorderPatrol.Logd.Relay

/-!
# The turns of `transfer_out`

The loop of `transfer_out` as a system that makes one turn after the other: `turn` is its body, and
the loop is a run of turns that ends when one of them returns or fails (`drained_succ`). A turn
looks at the header in front of the buffer; when the bytes it announces are there, it is a record of
at most three arguments, or the turn fails (`turn_of_front`, `turn_of_not_wf`).
-/

namespace BorderPatrol.Logd

open Foundations

/-- Where the loop of `transfer_out` is: the buffer, the slot, and what each write added to the log.
-/
structure Drain where
  buf : Mem Byte
  slot : Slot
  out : List (List Byte)

/-- How a turn ends the loop. -/
inductive Ended
  | returned (slot : Slot)
  | failed (fault : Fault)

namespace Drain

variable (d : Drain)

/-- `frozen` -/
def frozen : LogentryFrozen := thaw1 d.buf 0

/-- The slot when the time difference was recorded or found to be set. -/
def timed (env : RelayEnv) (k : ℕ) : Slot := d.slot.timed d.frozen (env.clock k)

/-- `size` -/
def size : ℕ := (frozenSize d.frozen % 2 ^ 32).toNat

/-- `buf`, which is given to `write`. -/
def stamped (env : RelayEnv) (k : ℕ) : Except Fault (List Byte) := do
  let logentry ← thaw2 d.buf frozenLen d.frozen (toInt ((d.size : ℤ) - frozenLen))
  let newtime := timeradd d.frozen.time (d.timed env k).timediff
  freeze { logentry with fz := logentry.fz.retime newtime } d.size

/-- What is done when `write` returns `t`. -/
def wrote (s : Slot) (buf : List Byte) (t : ℤ) : Except Fault Drain :=
  if t = -1 then .error (.exit 1)
  else if 0 < t then
    .ok {
      buf := d.buf.copyDown t.toNat (s.bEnd - d.size)
      slot := { s with bEnd := usub s.bEnd t.toNat, avail := s.avail + t.toNat }
      out := d.out ++ [buf.take t.toNat] }
  else .ok { d with slot := s }

end Drain

/-- A fault of a turn. -/
def orFailed {α : Type} : Except Fault α → Except Ended α
  | .ok a => .ok a
  | .error f => .error (.failed f)

/-- The body of the loop of `transfer_out`, in turn `k`. -/
def turn (env : RelayEnv) (d : Drain) (k : ℕ) : Except Ended Drain :=
  if d.slot.bEnd < frozenLen then .error (.returned d.slot)
  else if d.slot.bEnd < d.size then .error (.returned (d.timed env k))
  else orFailed (d.stamped env k >>= fun buf =>
    d.wrote (d.timed env k) buf (env.writes k d.size))

/-- The loop from turn `k` on, with what was written before. -/
def drained (env : RelayEnv) (n k : ℕ) (d : Drain) : Except Fault (Slot × List (List Byte)) :=
  transferOutLoop env n k d.buf d.slot >>= fun q => .ok (q.1, d.out ++ q.2)

/-- The loop when turn `k` has come to `x`. -/
def afterTurn (env : RelayEnv) (n k : ℕ) (d : Drain) :
    Except Ended Drain → Except Fault (Slot × List (List Byte))
  | .ok d' => drained env n (k + 1) d'
  | .error (.returned s) => .ok ({ s with relay := some d.buf }, d.out)
  | .error (.failed f) => .error f

variable {env : RelayEnv} {d : Drain} {b x : List Byte} {k : ℕ} {r : Record}

/-- **The loop** is a turn and the rest of the loop. -/
theorem drained_succ (env : RelayEnv) (n k : ℕ) (d : Drain) :
    drained env (n + 1) k d = afterTurn env n k d (turn env d k) := by
  rw [drained, transferOutLoop, turn]
  simp only [Drain.stamped, Drain.wrote, Drain.size, Drain.timed, Drain.frozen, Slot.timed_bEnd,
    Slot.timed_avail, bind_assoc]
  have hbEnd : (d.slot.timed (thaw1 d.buf 0) (env.clock k)).bEnd = d.slot.bEnd :=
    Slot.timed_bEnd ..
  have havail : (d.slot.timed (thaw1 d.buf 0) (env.clock k)).avail = d.slot.avail :=
    Slot.timed_avail ..
  generalize (frozenSize (thaw1 d.buf 0) % 2 ^ 32).toNat = size
  generalize d.slot.timed (thaw1 d.buf 0) (env.clock k) = s at hbEnd havail
  by_cases hlt : d.slot.bEnd < frozenLen
  · simp only [hlt, if_true, ok_bind, List.append_nil]
    rfl
  by_cases hsize : d.slot.bEnd < size
  · simp only [hlt, hsize, if_true, if_false, ok_bind, List.append_nil, afterTurn]
    rw [hbEnd, havail]
  simp only [hlt, hsize, if_false]
  rcases thaw2 d.buf frozenLen (thaw1 d.buf 0) (toInt ((size : ℤ) - frozenLen)) with f | le
  · rfl
  simp only [ok_bind]
  rcases freeze { le with
      fz := le.fz.retime (timeradd (thaw1 d.buf 0).time s.timediff) } size with f | buf
  · rfl
  simp only [ok_bind]
  by_cases hfail : env.writes k size = -1
  · simp only [hfail, if_true]
    rfl
  by_cases hpos : 0 < env.writes k size
  · simp only [hfail, hpos, if_true, if_false, orFailed, afterTurn, drained, bind_assoc,
      List.append_assoc, List.singleton_append]
    rfl
  · simp only [hfail, hpos, if_false, orFailed, afterTurn, drained]

/-- A loop that returns has made some turns, and returned in the next. -/
theorem exists_run_of_drained {n : ℕ} {q : Slot × List (List Byte)}
    (h : drained env n k d = .ok q) : ∃ j d' s,
      runSteps (turn env) d (List.range' k j) = .ok d' ∧
        turn env d' (k + j) = .error (.returned s) ∧
        q = ({ s with relay := some d'.buf }, d'.out) := by
  induction n generalizing k d with
  | zero => cases h
  | succ n ih =>
    rw [drained_succ] at h
    rcases hturn : turn env d k with e | d₁
    · rw [hturn] at h
      rcases e with s | f
      · cases h
        exact ⟨0, d, s, rfl, hturn, rfl⟩
      · cases h
    · rw [hturn] at h
      obtain ⟨j, d', s, hrun, hend, hq⟩ := ih h
      refine ⟨j + 1, d', s, ?_, ?_, hq⟩
      · rw [List.range'_succ, runSteps, hturn, ok_bind, hrun]
      · rwa [show k + (j + 1) = k + 1 + j by omega]

theorem transferOut_eq (env : RelayEnv) {s : Slot} {m : Mem Byte} (h : s.relay = some m) :
    transferOut env s = drained env (s.bEnd + 1) 0 ⟨m, s, []⟩ := by
  rw [transferOut, h, drained]
  change transferOutLoop env (s.bEnd + 1) 0 m s = _
  generalize transferOutLoop env (s.bEnd + 1) 0 m s = x
  cases x <;> rfl

/-! ## The header in front -/

/-- The header read from a buffer that begins with a record. -/
theorem thaw1_of_record {m : Mem Byte} {r : Record} {x : List Byte}
    (hm : m.slice 0 b.length = b) (hb : b = r.bytes ++ x) : thaw1 m 0 = r.fz := by
  rw [thaw1_eq_iff, ← Mem.take_slice m 0 (n := b.length), hm, hb, Record.bytes, List.append_assoc,
    List.take_left' r.fz.length_bytes]
  rw [hb, List.length_append, r.length_bytes]
  omega

/-- The size that `transfer_out` computes, when the bytes can be there. -/
theorem frozenSize_of_le {fz : LogentryFrozen}
    (h : (frozenSize fz % 2 ^ 32).toNat ≤ relayBuf) :
    0 ≤ frozenSize fz ∧ frozenSize fz % 2 ^ 32 = frozenSize fz ∧
      toInt (((frozenSize fz % 2 ^ 32).toNat : ℤ) - frozenLen) =
        fz.argLen.toInt * 4 + fz.strLen.toInt := by
  have h₁ := fz.argLen.le_toInt
  have h₂ := fz.argLen.toInt_lt
  have h₃ := fz.strLen.le_toInt
  have h₄ := fz.strLen.toInt_lt
  have hsize : frozenSize fz = 32 + fz.argLen.toInt * 4 + fz.strLen.toInt := by
    rw [frozenSize, predictSize, frozenLen, toInt_of_lt] <;> omega
  simp only [relayBuf, hsize] at h ⊢
  have hnonneg : 0 ≤ 32 + fz.argLen.toInt * 4 + fz.strLen.toInt := by omega
  have hmod : (32 + fz.argLen.toInt * 4 + fz.strLen.toInt) % 2 ^ 32 =
      32 + fz.argLen.toInt * 4 + fz.strLen.toInt := by omega
  refine ⟨hnonneg, hmod, ?_⟩
  rw [hmod, frozenLen, toInt_of_lt] <;> omega

/-- Thawing an entry, changing its time and freezing it gives the record at another time. -/
theorem freeze_retime (r : Record) (t : Timeval) :
    freeze { r.entry with fz := r.entry.fz.retime t } r.bytes.length =
      .ok (r.stamp (toUint32 t.sec) (toUint32 t.usec)).bytes := by
  have h := freeze_record (r.stamp (toUint32 t.sec) (toUint32 t.usec))
  rw [Record.length_bytes] at h ⊢
  exact h

/-- The loop has the bytes `b` in its buffer, and room for the rest. -/
structure Drain.Holds (d : Drain) (b : List Byte) : Prop where
  bytes : d.buf.slice 0 b.length = b
  bEnd : d.slot.bEnd = b.length
  avail : d.slot.bEnd + d.slot.avail = relayBuf

/-- The record at the time that the difference `diff` makes of its own. -/
def Record.shift (r : Record) (diff : Timeval) : Record :=
  r.stamp (toUint32 (timeradd r.fz.time diff).sec) (toUint32 (timeradd r.fz.time diff).usec)

namespace Drain.Holds

theorem frozen_eq (h : d.Holds (r.bytes ++ x)) : d.frozen = r.fz := thaw1_of_record h.bytes rfl

theorem size_eq (h : d.Holds (r.bytes ++ x)) : d.size = r.bytes.length := by
  have hsize := r.frozenSize_eq
  have hend := h.bEnd
  have havail := h.avail
  have hbuf : relayBuf < 2 ^ 32 := by decide
  rw [List.length_append] at hend
  rw [Drain.size, h.frozen_eq]
  omega

/-- A record in front is thawed and frozen at another time. -/
theorem stamped_eq (h : d.Holds (r.bytes ++ x)) (env : RelayEnv) (k : ℕ) :
    d.stamped env k = .ok (r.shift (d.timed env k).timediff).bytes := by
  have hlen := r.length_bytes
  have hlt := r.wf.restLen_lt
  have hfroz : frozenLen = 32 := rfl
  have hrest : d.buf.slice frozenLen r.fz.restLen = r.rest := by
    have hbytes := congrArg (fun l => (l.drop frozenLen).take r.fz.restLen) h.bytes
    rwa [Mem.drop_slice _ _ (by rw [List.length_append]; omega),
      Mem.take_slice _ _ (by rw [List.length_append]; omega), Nat.zero_add, Record.bytes,
      List.append_assoc, List.drop_left' r.fz.length_bytes, List.take_left' r.length_rest]
      at hbytes
  have hsz : toInt ((r.bytes.length : ℤ) - frozenLen) = r.fz.restLen := by
    rw [toInt_of_lt] <;> omega
  rw [stamped, h.frozen_eq, h.size_eq, hsz, thaw2_record hrest, ok_bind]
  exact freeze_retime r _

/-- A well-formed header whose bytes are there is that of a record. -/
theorem exists_record (h : d.Holds b) (hsize : d.size ≤ b.length) (hwf : d.frozen.Wf) :
    ∃ (r : Record) (x : List Byte), b = r.bytes ++ x := by
  have hbytes := recordAt_bytes hwf
  have hz := frozenSize_of_wf hwf
  have hlt := hwf.restLen_lt
  have hle : frozenLen + d.frozen.restLen ≤ b.length := by
    rw [Drain.size] at hsize
    simp only [frozenLen] at hz ⊢
    omega
  refine ⟨recordAt d.buf 0 hwf, b.drop (frozenLen + d.frozen.restLen), ?_⟩
  have htake : b.take (frozenLen + d.frozen.restLen) =
      d.buf.slice 0 (frozenLen + d.frozen.restLen) := by
    rw [← Mem.take_slice d.buf 0 hle, h.bytes]
  rw [hbytes]
  exact (htake ▸ List.take_append_drop _ _).symm

/-- Any other header whose bytes are there makes `thaw2` fail. -/
theorem stamped_of_not_wf (h : d.Holds b) (hsize : d.size ≤ b.length) (hwf : ¬ d.frozen.Wf)
    (env : RelayEnv) (k : ℕ) : ∃ f, d.stamped env k = .error f := by
  have hend := h.bEnd
  have havail := h.avail
  obtain ⟨-, -, hrest⟩ := @frozenSize_of_le d.frozen (by rw [Drain.size] at hsize; omega)
  have hthaw := wf_of_thaw2 (m := d.buf) (a := frozenLen) d.frozen
  rcases hx : thaw2 d.buf frozenLen d.frozen (d.frozen.argLen.toInt * 4 + d.frozen.strLen.toInt)
    with f | le
  · refine ⟨f, ?_⟩
    rw [Drain.stamped, Drain.size, hrest, hx]
    rfl
  · exact absurd (hthaw.of_eq_ok hx) hwf

end Drain.Holds

/-! ## A turn -/

/-- Less than a header ends the loop. -/
theorem turn_of_lt (h : d.slot.bEnd < frozenLen) (env : RelayEnv) (k : ℕ) :
    turn env d k = .error (.returned d.slot) := if_pos h

/-- A header whose bytes are not all there ends the loop. -/
theorem turn_of_size_lt (h : frozenLen ≤ d.slot.bEnd) (hsize : d.slot.bEnd < d.size)
    (env : RelayEnv) (k : ℕ) : turn env d k = .error (.returned (d.timed env k)) := by
  rw [turn, if_neg (by omega), if_pos hsize]

/-- A record in front is written. -/
theorem turn_of_record (h : d.Holds (r.bytes ++ x)) (env : RelayEnv) (k : ℕ) :
    turn env d k = orFailed (d.wrote (d.timed env k) (r.shift (d.timed env k).timediff).bytes
      (env.writes k r.bytes.length)) := by
  have hend := h.bEnd
  have hlen := r.length_bytes
  rw [List.length_append] at hend
  rw [turn, h.size_eq, if_neg (by omega), if_neg (by omega), h.stamped_eq, ok_bind]

/-- A turn that returns leaves the counts of the slot. -/
theorem turn_returned {s : Slot} (h : turn env d k = .error (.returned s)) :
    s.bEnd = d.slot.bEnd ∧ s.avail = d.slot.avail := by
  rw [turn] at h
  split at h
  · cases h
    exact ⟨rfl, rfl⟩
  split at h
  · cases h
    exact ⟨Slot.timed_bEnd .., Slot.timed_avail ..⟩
  · generalize (d.stamped env k >>= fun buf =>
      d.wrote (d.timed env k) buf (env.writes k d.size)) = x at h
    cases x <;> cases h

/-- A header that is not well-formed makes the turn fail. -/
theorem turn_of_not_wf (h : d.Holds b) (hlen : frozenLen ≤ b.length) (hsize : d.size ≤ b.length)
    (hwf : ¬ d.frozen.Wf) (env : RelayEnv) (k : ℕ) : ∃ f, turn env d k = .error (.failed f) := by
  obtain ⟨f, hf⟩ := h.stamped_of_not_wf hsize hwf env k
  have hend := h.bEnd
  refine ⟨f, ?_⟩
  rw [turn, if_neg (by omega), if_neg (by omega), hf]
  rfl

/-- **A turn that goes through** has written a record. -/
theorem exists_record_of_turn {d' : Drain} (h : d.Holds b) (hturn : turn env d k = .ok d') :
    ∃ (r : Record) (x : List Byte), b = r.bytes ++ x := by
  have hend := h.bEnd
  rcases Nat.lt_or_ge b.length frozenLen with hlt | hlen
  · rw [turn_of_lt (by omega)] at hturn
    cases hturn
  rcases Nat.lt_or_ge b.length d.size with hlt | hsize
  · rw [turn_of_size_lt (by omega) (by omega)] at hturn
    cases hturn
  by_cases hwf : d.frozen.Wf
  · exact h.exists_record hsize hwf
  · obtain ⟨f, hf⟩ := turn_of_not_wf h hlen hsize hwf env k
    rw [hf] at hturn
    cases hturn

/-- What a turn leaves when all of its record is written. -/
def Drain.after (d : Drain) (s : Slot) (r : Record) (x : List Byte) : Drain where
  buf := d.buf.copyDown r.bytes.length x.length
  slot := { s with bEnd := x.length, avail := s.avail + r.bytes.length }
  out := d.out ++ [(r.shift s.timediff).bytes]

/-- The counts of a buffer that begins with a record, which reading the clock leaves as they are. -/
theorem Drain.Holds.counts (h : d.Holds (r.bytes ++ x)) (env : RelayEnv) (k : ℕ) :
    d.slot.bEnd = r.bytes.length + x.length ∧ 0 < r.bytes.length ∧ d.slot.bEnd < 2 ^ 32 ∧
      (d.timed env k).bEnd = d.slot.bEnd ∧ (d.timed env k).avail = d.slot.avail := by
  have hend := h.bEnd
  have havail := h.avail
  have hlen := r.length_bytes
  have hfroz : frozenLen = 32 := rfl
  have hbuf : relayBuf < 2 ^ 32 := by decide
  rw [List.length_append] at hend
  exact ⟨hend, by omega, by omega, Slot.timed_bEnd .., Slot.timed_avail ..⟩

/-- A turn whose write takes the whole record drops it from the buffer. -/
theorem turn_complete (h : d.Holds (r.bytes ++ x))
    (hw : env.writes k r.bytes.length = r.bytes.length) :
    turn env d k = .ok (d.after (d.timed env k) r x) ∧
      (d.after (d.timed env k) r x).Holds x := by
  have havail := h.avail
  obtain ⟨hend, hpos, hlt, htbEnd, htavail⟩ := h.counts env k
  constructor
  · rw [turn_of_record h, hw, Drain.wrote, if_neg (by omega), if_pos (by omega), h.size_eq,
      Int.toNat_natCast, htbEnd, show d.slot.bEnd - r.bytes.length = x.length by omega,
      usub_of_le (by omega) (by omega), show d.slot.bEnd - r.bytes.length = x.length by omega,
      List.take_of_length_le (by rw [Record.length_bytes, Record.length_bytes]; exact le_rfl)]
    rfl
  · refine ⟨?_, rfl, ?_⟩
    · have hbytes := congrArg (List.drop r.bytes.length) h.bytes
      rw [Mem.drop_slice _ _ (by rw [List.length_append]; omega), Nat.zero_add, List.drop_left,
        List.length_append, Nat.add_sub_cancel_left] at hbytes
      rw [Drain.after, Mem.slice_copyDown, hbytes]
    · simp only [Drain.after]
      omega

end BorderPatrol.Logd
