import BorderPatrol.Trace.Protocol.Psql

/-!
# How `speak_psql` frames a well-formed stream

A well-formed PostgreSQL stream is a startup message, on the sides that carry one, and messages. A
message with payload takes `speak_psql` from the state between messages to the state between
messages (`drain_message`). One without leaves it waiting for a body of no bytes, from where it
never returns (`drain_bare`): `gotHeader` is reset only where a body ends. So a stream is framed,
whatever the fragmentation, exactly when every message but the last has a payload and the numbers
fit in an `int` (`psql_frames_iff`).
-/

namespace BorderPatrol.Trace

open Foundations Foundations.Resumable

/-! ## Well-formed streams -/

/-- The startup message, of `8 + params.length` bytes. -/
structure PgStartup where
  version : List Byte
  params : List Byte
  four : version.length = 4
  fits : params.length + 8 < 2 ^ 32

def PgStartup.bytes (m : PgStartup) : List Byte :=
  toBE 4 (m.params.length + 8) ++ m.version ++ m.params

/-- A message: its type, and its payload behind a length that counts itself. -/
structure PgMessage where
  type : Byte
  payload : List Byte
  fits : payload.length + 4 < 2 ^ 32

def PgMessage.bytes (m : PgMessage) : List Byte :=
  m.type :: toBE 4 (m.payload.length + 4) ++ m.payload

/-- A stream in the direction where the messages of type `c` are numbered: from the client, with a
startup message, when that is `Q`. -/
structure PgStream (c : Byte) where
  startup : Option PgStartup
  messages : List PgMessage
  carries : startup.isSome = decide (c = 'Q'.toUInt8)

variable {c : Byte}

/-- The startup message and the first `k` messages. -/
def PgStream.upTo (q : PgStream c) (k : ℕ) : List Byte :=
  (q.startup.map PgStartup.bytes).getD [] ++ (q.messages.take k).flatMap PgMessage.bytes

def PgStream.bytes (q : PgStream c) : List Byte := q.upTo q.messages.length

/-- How many messages are numbered. -/
def PgStream.count (q : PgStream c) : ℕ := (q.messages.filter fun m => m.type = c).length

/-- Every message but the last has a payload, and the numbers fit in an `int`. -/
def PgStream.Framable (q : PgStream c) : Prop :=
  (∀ m ∈ q.messages.dropLast, m.payload ≠ []) ∧ q.count ≤ 2 ^ 31

/-- Of `fed` bytes of the stream `left` are not consumed, and the units that lie in the `fed` bytes
are: none of them is held back. -/
def PgStream.KeepsUp (q : PgStream c) (fed left : ℕ) : Prop :=
  ∀ k ≤ q.messages.length, (q.upTo k).length ≤ fed → left + (q.upTo k).length ≤ fed

/-! ## Draining one message -/

/-- The state between messages. -/
def pgReady (t : Byte) (i : ℤ) : PpPsqlStateSide := ⟨1, t, 0, 0, i⟩

/-- The state before the stream. -/
def pgStart (c : Byte) : PpPsqlStateSide := ⟨if c = 'Q'.toUInt8 then 0 else 1, 0, 0, 0, 0⟩

/-- The number after a message. -/
def PgMessage.next (m : PgMessage) (c : Byte) (i : ℤ) : ℤ :=
  if m.type = c then toInt (i + 1) else i

/-- The numbers given to messages from `i` on. -/
def pgNumbers (c : Byte) : ℤ → List PgMessage → List ℤ
  | _, [] => []
  | i, m :: ms => (if m.type = c then [i] else []) ++ pgNumbers c (m.next c i) ms

theorem getInt_toBE {n : ℕ} (h : n < 2 ^ 32) (r : List Byte) : getInt (toBE 4 n ++ r) = n := by
  rw [getInt, List.take_left' (length_toBE ..), ofBE_toBE_of_lt (by omega)]

theorem psqlHeader_bytes (m : PgMessage) (t : Byte) (i : ℤ) :
    psqlHeader c (pgReady t i) (m.type :: toBE 4 (m.payload.length + 4)) =
      (⟨1, m.type, 1, m.payload.length, m.next c i⟩, if m.type = c then [i] else []) := by
  have hint := getInt_toBE m.fits []
  rw [List.append_nil] at hint
  simp only [psqlHeader, List.headD_cons, List.drop_one, List.tail_cons, hint,
    usub_of_le (Nat.le_add_left 4 _) m.fits, Nat.add_sub_cancel]
  rfl

/-- The header of a message, then what follows it. -/
theorem drain_header (m : PgMessage) (t : Byte) (i : ℤ) (r : List Byte) :
    drain (psqlUnits c) (pgReady t i) (m.bytes ++ r) =
      (drain (psqlUnits c) ⟨1, m.type, 1, m.payload.length, m.next c i⟩ (m.payload ++ r)).after
        (if m.type = c then [i] else []) := by
  have hw : psqlWant c (pgReady t i) = .whole 5 (psqlHeader c (pgReady t i)) := rfl
  rw [PgMessage.bytes, List.append_assoc, psqlUnits,
    drain_whole (psqlWant_coherent c) hw (by simp), psqlHeader_bytes]

/-- **A message with payload** leads from between messages to between messages. -/
theorem drain_message (m : PgMessage) (hm : m.payload ≠ []) (t : Byte) (i : ℤ) (r : List Byte) :
    drain (psqlUnits c) (pgReady t i) (m.bytes ++ r) =
      (drain (psqlUnits c) (pgReady m.type (m.next c i)) r).after
        (if m.type = c then [i] else []) := by
  rw [drain_header]
  congr 1
  have hpos : 0 < m.payload.length := List.length_pos_of_ne_nil hm
  by_cases hq : m.type = 'Q'.toUInt8
  · have hw : psqlWant c ⟨1, m.type, 1, m.payload.length, m.next c i⟩ =
        .whole m.payload.length fun _ => (pgReady m.type (m.next c i), []) := by
      rw [psqlWant, if_pos hpos, if_pos hq]
      simp [PpPsqlStateSide.skip, pgReady]
    rw [psqlUnits, drain_whole (psqlWant_coherent c) hw rfl, Result.after_nil]
  · have hw : psqlWant c ⟨1, m.type, 1, m.payload.length, m.next c i⟩ =
        .skip m.payload.length
          (PpPsqlStateSide.skip ⟨1, m.type, 1, m.payload.length, m.next c i⟩) := by
      rw [psqlWant, if_pos hpos, if_neg hq]
    rw [psqlUnits, drain_skip (psqlWant_coherent c) hw rfl]
    simp [PpPsqlStateSide.skip, pgReady]

/-- **A message without payload** leaves the parser stuck. -/
theorem drain_bare (m : PgMessage) (hm : m.payload = []) (t : Byte) (i : ℤ) (r : List Byte) :
    drain (psqlUnits c) (pgReady t i) (m.bytes ++ r) =
      ⟨⟨1, m.type, 1, 0, m.next c i⟩, r, if m.type = c then [i] else []⟩ := by
  have hw : psqlWant c ⟨1, m.type, 1, 0, m.next c i⟩ = .stuck := rfl
  rw [drain_header, hm, List.length_nil, List.nil_append, psqlUnits, drain_stuck hw]
  simp [Result.after]

/-- The startup message leads to the state between messages. -/
theorem drain_startup (m : PgStartup) (r : List Byte) :
    drain (psqlUnits c) ⟨0, 0, 0, 0, 0⟩ (m.bytes ++ r) = drain (psqlUnits c) (pgReady 0 0) r := by
  have hw : psqlWant c ⟨0, 0, 0, 0, 0⟩ =
      .whole 8 fun b => (⟨1, 0, 0, usub (getInt b) 8, 0⟩, []) := rfl
  rw [PgStartup.bytes, List.append_assoc, psqlUnits,
    drain_whole (psqlWant_coherent c) hw (by simp [m.four]), Result.after_nil, getInt_toBE m.fits,
    usub_of_le (Nat.le_add_left 8 _) m.fits, Nat.add_sub_cancel]
  by_cases hp : m.params = []
  · simp only [hp, List.length_nil, List.nil_append]
    rfl
  · have hpos : 0 < m.params.length := List.length_pos_of_ne_nil hp
    have hw' : psqlWant c ⟨1, 0, 0, m.params.length, 0⟩ =
        .skip m.params.length (PpPsqlStateSide.skip ⟨1, 0, 0, m.params.length, 0⟩) := by
      rw [psqlWant, if_pos hpos, if_neg (show (0 : Byte) ≠ 'Q'.toUInt8 by decide)]
    rw [drain_skip (psqlWant_coherent c) hw' rfl]
    simp [PpPsqlStateSide.skip, pgReady]

/-! ## Draining the stream -/

/-- Messages with payload are drained one after the other. -/
theorem drain_messages {ms : List PgMessage} (hms : ∀ m ∈ ms, m.payload ≠ []) (t : Byte) (i : ℤ)
    (r : List Byte) : ∃ t' i', drain (psqlUnits c) (pgReady t i) (ms.flatMap PgMessage.bytes ++ r) =
      (drain (psqlUnits c) (pgReady t' i') r).after (pgNumbers c i ms) := by
  induction ms generalizing t i with
  | nil => exact ⟨t, i, by simp [pgNumbers]⟩
  | cons m ms ih =>
    obtain ⟨t', i', h⟩ := ih (fun m hm => hms m (by simp [hm])) m.type (m.next c i)
    refine ⟨t', i', ?_⟩
    rw [List.flatMap_cons, List.append_assoc, drain_message m (hms m (by simp)), h,
      Result.after_after, pgNumbers]

theorem bytes_ne_nil (m : PgMessage) : m.bytes ≠ [] := by simp [PgMessage.bytes]

/-- The messages are consumed exactly when every one but the last has a payload. -/
theorem drain_rest_iff (ms : List PgMessage) (t : Byte) (i : ℤ) :
    (drain (psqlUnits c) (pgReady t i) (ms.flatMap PgMessage.bytes)).rest = [] ↔
      ∀ m ∈ ms.dropLast, m.payload ≠ [] := by
  induction ms generalizing t i with
  | nil => simp
  | cons m ms ih =>
    rw [List.flatMap_cons]
    by_cases hm : m.payload = []
    · rw [drain_bare m hm]
      rcases ms with _ | ⟨x, ms⟩
      · simp
      · simp only [List.flatMap_cons, List.append_eq_nil_iff, bytes_ne_nil, false_and, false_iff,
          List.dropLast_cons_cons, List.mem_cons, forall_eq_or_imp]
        exact fun h => h.1 hm
    · rw [drain_message m hm, Result.after_rest, ih]
      rcases ms with _ | ⟨x, ms⟩
      · simp
      · simp [hm]

/-- When the messages are consumed, they are numbered in order. -/
theorem drain_out (ms : List PgMessage) (t : Byte) (i : ℤ)
    (h : ∀ m ∈ ms.dropLast, m.payload ≠ []) :
    (drain (psqlUnits c) (pgReady t i) (ms.flatMap PgMessage.bytes)).out = pgNumbers c i ms := by
  induction ms generalizing t i with
  | nil => rfl
  | cons m ms ih =>
    rw [List.flatMap_cons]
    by_cases hm : m.payload = []
    · rw [drain_bare m hm]
      rcases ms with _ | ⟨x, ms⟩
      · simp [pgNumbers]
      · exact absurd hm (h m (by simp))
    · rw [drain_message m hm, Result.after_out, ih _ _ ?_, pgNumbers]
      intro m' hm'
      rcases ms with _ | ⟨x, ms⟩
      · simp at hm'
      · exact h m' (by simp only [List.dropLast_cons_cons, List.mem_cons]; exact Or.inr hm')

/-- The numbers are consecutive, as far as an `int` goes. -/
theorem pgNumbers_eq (ms : List PgMessage) (j : ℕ) :
    pgNumbers c (toInt j) ms =
      (List.range' j (ms.filter fun m => m.type = c).length).map fun k : ℕ => toInt k := by
  induction ms generalizing j with
  | nil => rfl
  | cons m ms ih =>
    by_cases hm : m.type = c
    · have hnext : m.next c (toInt j) = toInt (j + 1 : ℕ) := by
        rw [PgMessage.next, if_pos hm, toInt, toInt, toInt, Int.bmod_add_bmod]
        rfl
      rw [pgNumbers, if_pos hm, hnext, ih (j + 1)]
      simp [hm, List.range'_succ]
    · have hnext : m.next c (toInt j) = toInt j := by rw [PgMessage.next, if_neg hm]
      rw [pgNumbers, if_neg hm, hnext, ih j]
      simp [hm]

/-- They are the numbers from 0 on exactly when these fit in an `int`. -/
theorem pgNumbers_iff (ms : List PgMessage) :
    pgNumbers c 0 ms =
        (List.range (ms.filter fun m => m.type = c).length).map (fun k : ℕ => (k : ℤ)) ↔
      (ms.filter fun m => m.type = c).length ≤ 2 ^ 31 := by
  have h₀ : pgNumbers c 0 ms = pgNumbers c (toInt (0 : ℕ)) ms := rfl
  rw [h₀, pgNumbers_eq, List.range_eq_range', List.map_inj_left]
  constructor
  · intro h
    by_contra hgt
    have := h (2 ^ 31) (by simp only [List.mem_range'_1]; omega)
    revert this
    decide
  · intro hle k hk
    simp only [List.mem_range'_1] at hk
    exact toInt_natCast_lt (by omega)

theorem drain_start (q : PgStream c) (r : List Byte) :
    drain (psqlUnits c) (pgStart c) ((q.startup.map PgStartup.bytes).getD [] ++ r) =
      drain (psqlUnits c) (pgReady 0 0) r := by
  have hcar := q.carries
  rcases hst : q.startup with _ | m
  · rw [hst] at hcar
    have hc : c ≠ 'Q'.toUInt8 := by simpa using hcar.symm
    simp only [pgStart, hc, if_false, Option.map_none, Option.getD_none, List.nil_append]
    rfl
  · rw [hst] at hcar
    have hc : c = 'Q'.toUInt8 := by simpa using hcar.symm
    have hs : pgStart c = ⟨0, 0, 0, 0, 0⟩ := by rw [pgStart, if_pos hc]
    rw [hs]
    exact drain_startup m r

theorem drain_bytes (q : PgStream c) :
    drain (psqlUnits c) (pgStart c) q.bytes =
      drain (psqlUnits c) (pgReady 0 0) (q.messages.flatMap PgMessage.bytes) := by
  rw [PgStream.bytes, PgStream.upTo, drain_start, List.take_length]

/-- **The whole stream** is consumed and its messages numbered from 0 exactly when it is framable.
-/
theorem drain_bytes_iff (q : PgStream c) :
    (drain (psqlUnits c) (pgStart c) q.bytes).rest = [] ∧
        (drain (psqlUnits c) (pgStart c) q.bytes).out =
          (List.range q.count).map (fun k : ℕ => (k : ℤ)) ↔
      q.Framable := by
  rw [drain_bytes, drain_rest_iff, PgStream.Framable, and_congr_right_iff]
  intro h
  rw [drain_out _ _ _ h]
  exact pgNumbers_iff q.messages

theorem upTo_begins (q : PgStream c) {k : ℕ} : q.upTo k <+: q.bytes := by
  refine ⟨(q.messages.drop k).flatMap PgMessage.bytes, ?_⟩
  rw [PgStream.bytes, PgStream.upTo, PgStream.upTo, List.append_assoc, ← List.flatMap_append,
    List.take_append_drop, List.take_length]

theorem mem_dropLast_of_mem_take {α : Type} {l : List α} {k : ℕ} (hk : k < l.length) {x : α}
    (hx : x ∈ l.take k) : x ∈ l.dropLast := by
  rw [List.dropLast_eq_take]
  have h := List.take_take (i := k) (j := l.length - 1) (l := l)
  rw [Nat.min_eq_left (by omega)] at h
  rw [← h] at hx
  exact List.mem_of_mem_take hx

/-- **No unit is held back** in a stream that can be framed, however far it has been presented. -/
theorem keepsUp_of_framable {q : PgStream c} (hq : q.Framable) {fed : List Byte}
    (hfed : fed <+: q.bytes) :
    q.KeepsUp fed.length (drain (psqlUnits c) (pgStart c) fed).rest.length := by
  intro k hk hle
  obtain ⟨r, rfl⟩ := List.prefix_of_prefix_length_le (upTo_begins q) hfed hle
  rcases Nat.lt_or_eq_of_le hk with hlt | rfl
  · -- the messages so far have a payload
    have hms : ∀ m ∈ q.messages.take k, m.payload ≠ [] :=
      fun m hm => hq.1 m (mem_dropLast_of_mem_take hlt hm)
    obtain ⟨t', i', h⟩ := drain_messages (c := c) hms 0 0 r
    have hsuf := (drain_suffix (psqlUnits_lawful c) (pgReady t' i') r).length_le
    rw [PgStream.upTo, List.append_assoc, drain_start, h, Result.after_rest]
    simp only [List.length_append]
    omega
  · have hr : r = [] := by
      have := hfed.length_le
      rw [List.length_append, PgStream.bytes] at this
      exact List.eq_nil_of_length_eq_zero (by omega)
    subst hr
    have hrest := ((drain_bytes_iff q).2 hq).1
    rw [PgStream.bytes] at hrest
    rw [List.append_nil, hrest]
    simp

/-! ## The two drivers -/

/-- The processor of a role. -/
def psqlPp (role : PpId) : PpDispatcher PpPsqlState := if role = .psqlc then ppPsqlc else ppPsqls

theorem psqlPp_write {role : PpId} (hr : role = .psqlc ∨ role = .psqls) (s : ℤ)
    (x : PpPsqlState) : (psqlPp role).ppWrite = psqlWrite role ∧
      ((psqlPp role).ppInit s x).1.write = pgStart (psqlType role .write) := by
  rcases hr with rfl | rfl <;> exact ⟨rfl, rfl⟩

theorem psqlPp_read {role : PpId} (hr : role = .psqlc ∨ role = .psqls) (s : ℤ)
    (x : PpPsqlState) : (psqlPp role).ppRead = psqlRead role ∧
      ((psqlPp role).ppInit s x).1.read = pgStart (psqlType role .read) := by
  rcases hr with rfl | rfl <;> exact ⟨rfl, rfl⟩

/-- `speak_psql` frames the stream `q`, written in the pieces `cs` on descriptor `s`: after each
write no unit is held back, and at the end nothing is left and each message of the numbered type
was reported once, with the numbers from 0 on. -/
def WriteFramed (role : PpId) (s : ℤ) (v : Vfd PpPsqlState) (q : PgStream (psqlType role .write))
    (cs : List (List Byte)) : Prop :=
  ∀ cs₁, cs₁ <+: cs → ∃ v' tr, writeRun s v cs₁ = .ok (v', tr) ∧
    q.KeepsUp cs₁.flatten.length v'.wbuflen.toNat ∧
    (cs₁ = cs → v'.wbuflen = 0 ∧
      messages (logs tr) = (List.range q.count).map fun i : ℕ => psqlMsg role .write s i)

/-- `speak_psql` frames the stream `q`, read by the calls `rs` on descriptor `s`: whenever the
application has been handed all that arrived no unit is held back, and at the end nothing is left
and each message of the numbered type was reported once, with the numbers from 0 on. -/
def ReadFramed (role : PpId) (s : ℤ) (v : Vfd PpPsqlState) (q : PgStream (psqlType role .read))
    (rs : List RecvCall) : Prop :=
  ∀ rs₁, rs₁ <+: rs → ∃ v' gs, recvRun s v rs₁ = .ok (v', gs) ∧
    (handed gs = kernelBytes (traces gs) →
      q.KeepsUp (kernelBytes (traces gs)).length (v'.rbuflen - v'.rbufofs).toNat) ∧
    (rs₁ = rs → v'.rbuflen - v'.rbufofs = 0 ∧
      messages (logs (traces gs)) = (List.range q.count).map fun i : ℕ => psqlMsg role .read s i)

/-- The calls hand the stream `b` to the application, whole. -/
def HandsWhole (s : ℤ) (v : Vfd PpPsqlState) (rs : List RecvCall) (b : List Byte) : Prop :=
  ∀ v' gs, recvRun s v rs = .ok (v', gs) → kernelBytes (traces gs) = b ∧ handed gs = b

theorem psqlMsg_injective (role : PpId) (dir : PpDirection) (s : ℤ) :
    Function.Injective (psqlMsg role dir s) := by
  intro i j h
  simpa [psqlMsg, logbinIiis] using h

theorem map_psqlMsg (role : PpId) (dir : PpDirection) (s : ℤ) (n : ℕ) (ids : List ℤ) :
    (ids.map (psqlMsg role dir s) = (List.range n).map fun i : ℕ => psqlMsg role dir s i) ↔
      ids = (List.range n).map fun k : ℕ => (k : ℤ) := by
  rw [← (List.map_injective_iff.2 (psqlMsg_injective role dir s)).eq_iff, List.map_map]
  rfl

variable {role : PpId} {s : ℤ}

theorem writeFramed_iff (hr : role = .psqlc ∨ role = .psqls) (u : Vfd PpPsqlState)
    (x : PpPsqlState) (q : PgStream (psqlType role .write)) {cs : List (List Byte)}
    (hcs : cs.flatten = q.bytes) (hfit : WriteFits s (u.accepted (psqlPp role) s x) cs) :
    WriteFramed role s (u.accepted (psqlPp role) s x) q cs ↔ q.Framable := by
  obtain ⟨hpp, hst⟩ := psqlPp_write hr s x
  have hparse := psqlWrite_parses hr s
  rw [← hpp] at hparse
  have hrun : ∀ cs₁, cs₁ <+: cs → ∃ v tr,
      writeRun s (u.accepted (psqlPp role) s x) cs₁ = .ok (v, tr) ∧
      v.wbuflen = ((drain (psqlUnits (psqlType role .write)) (pgStart (psqlType role .write))
        cs₁.flatten).rest.length : ℤ) ∧
      messages (logs tr) = (drain (psqlUnits (psqlType role .write))
        (pgStart (psqlType role .write)) cs₁.flatten).out.map (psqlMsg role .write s) := by
    rintro cs₁ ⟨cs₂, rfl⟩
    obtain ⟨v, tr, hw, hlen, -, hm⟩ :=
      writeRun_parses (psqlUnits_lawful _) hparse u _ hfit.of_append
    rw [hst] at hlen hm
    exact ⟨v, tr, hw, hlen, hm⟩
  rw [← drain_bytes_iff]
  constructor
  · intro h
    obtain ⟨v, tr, hw, -, hend⟩ := h cs (List.prefix_refl _)
    obtain ⟨h₀, hm⟩ := hend rfl
    obtain ⟨v', tr', hw', hlen, hm'⟩ := hrun cs (List.prefix_refl _)
    obtain ⟨rfl, rfl⟩ := Prod.mk.inj (Except.ok.inj (hw.symm.trans hw'))
    rw [hcs] at hlen hm'
    exact ⟨List.eq_nil_of_length_eq_zero (by omega), (map_psqlMsg ..).1 (hm'.symm.trans hm)⟩
  · intro h cs₁ hcs₁
    obtain ⟨v, tr, hw, hlen, hm⟩ := hrun cs₁ hcs₁
    refine ⟨v, tr, hw, ?_, ?_⟩
    · rw [hlen, Int.toNat_natCast]
      refine keepsUp_of_framable ((drain_bytes_iff q).1 h) ?_
      rw [← hcs]
      obtain ⟨cs₂, rfl⟩ := hcs₁
      rw [List.flatten_append]
      exact List.prefix_append ..
    · rintro rfl
      rw [hcs] at hlen hm
      exact ⟨by rw [hlen, h.1]; rfl, hm.trans ((map_psqlMsg ..).2 h.2)⟩

theorem readFramed_iff (hr : role = .psqlc ∨ role = .psqls) (u : Vfd PpPsqlState)
    (x : PpPsqlState) (q : PgStream (psqlType role .read)) {rs : List RecvCall}
    (hl : ∀ r ∈ rs, r.len < 2 ^ 31)
    (hall : HandsWhole s (u.accepted (psqlPp role) s x) rs q.bytes) :
    ReadFramed role s (u.accepted (psqlPp role) s x) q rs ↔ q.Framable := by
  obtain ⟨hpp, hst⟩ := psqlPp_read hr s x
  have hparse := psqlRead_parses hr s
  rw [← hpp] at hparse
  have hrun : ∀ rs₁, rs₁ <+: rs → ∃ v gs out left,
      recvRun s (u.accepted (psqlPp role) s x) rs₁ = .ok (v, gs) ∧
      messages (logs (traces gs)) = out.map (psqlMsg role .read s) ∧
      v.rbuflen - v.rbufofs = (left.length : ℤ) ∧ kernelBytes (traces gs) <+: q.bytes ∧
      (handed gs = kernelBytes (traces gs) →
        drain (psqlUnits (psqlType role .read)) (pgStart (psqlType role .read))
          (kernelBytes (traces gs)) = ⟨v.ppData.read, left, out⟩) := by
    rintro rs₁ ⟨rs₂, rfl⟩
    have hl₁ : ∀ r ∈ rs₁, r.len < 2 ^ 31 := fun r hr => hl r (by simp [hr])
    obtain ⟨v, gs, out, left, hw, hm, hleft, -, hd⟩ := recvRun_parses (psqlUnits_lawful _) hparse u
      ((psqlPp role).ppInit s x).1 hl₁
    rw [hst] at hd
    obtain ⟨v', gs', -, -, hw', -⟩ := recvRun_parses (psqlUnits_lawful _) hparse u
      ((psqlPp role).ppInit s x).1 hl
    obtain ⟨gs₂, rfl⟩ := recvRun_prefix hw hw'
    refine ⟨v, gs, out, left, hw, hm, hleft, ?_, hd⟩
    rw [← (hall _ _ hw').1, traces_append, kernelBytes_append]
    exact List.prefix_append ..
  rw [← drain_bytes_iff]
  constructor
  · intro h
    obtain ⟨v, gs, hw, -, hend⟩ := h rs (List.prefix_refl _)
    obtain ⟨h₀, hm⟩ := hend rfl
    obtain ⟨v', gs', out, left, hw', hm', hleft, -, hd⟩ := hrun rs (List.prefix_refl _)
    obtain ⟨rfl, rfl⟩ := Prod.mk.inj (Except.ok.inj (hw.symm.trans hw'))
    obtain ⟨hk, hh⟩ := hall v gs hw
    rw [hk] at hd
    rw [hd hh]
    exact ⟨List.eq_nil_of_length_eq_zero (by simp only; omega),
      (map_psqlMsg ..).1 (hm'.symm.trans hm)⟩
  · intro h rs₁ hrs₁
    obtain ⟨v, gs, out, left, hw, hm, hleft, hpre, hd⟩ := hrun rs₁ hrs₁
    refine ⟨v, gs, hw, fun hh => ?_, ?_⟩
    · have hkeeps := keepsUp_of_framable ((drain_bytes_iff q).1 h) hpre
      rw [hd hh] at hkeeps
      rwa [hleft, Int.toNat_natCast]
    · rintro rfl
      obtain ⟨hk, hh⟩ := hall v gs hw
      rw [hk] at hd
      rw [hd hh] at h
      obtain ⟨h₁, h₂⟩ := h
      simp only at h₁ h₂
      exact ⟨by rw [hleft, h₁]; rfl, hm.trans ((map_psqlMsg ..).2 h₂)⟩

/-- **How `speak_psql` frames**: on each side of each role, for every well-formed stream and every
fragmentation of it whose unconsumed bytes fit in the buffer, the stream is framed if and only if
every message but the last has a payload and the numbers fit in an `int`. -/
theorem psql_frames_iff (hr : role = .psqlc ∨ role = .psqls) (u : Vfd PpPsqlState)
    (x : PpPsqlState) :
    (∀ (q : PgStream (psqlType role .write)) (cs : List (List Byte)), cs.flatten = q.bytes →
      WriteFits s (u.accepted (psqlPp role) s x) cs →
      (WriteFramed role s (u.accepted (psqlPp role) s x) q cs ↔ q.Framable)) ∧
    (∀ (q : PgStream (psqlType role .read)) (rs : List RecvCall), (∀ r ∈ rs, r.len < 2 ^ 31) →
      HandsWhole s (u.accepted (psqlPp role) s x) rs q.bytes →
      (ReadFramed role s (u.accepted (psqlPp role) s x) q rs ↔ q.Framable)) :=
  ⟨fun q _ hcs hfit => writeFramed_iff hr u x q hcs hfit,
    fun q _ hl hall => readFramed_iff hr u x q hl hall⟩

/-- A client that sends its startup message, `Sync`, which has no payload, and a query. -/
def syncThenQuery : PgStream (psqlType .psqlc .write) where
  startup := some ⟨[0, 3, 0, 0], [], by decide, by decide⟩
  messages := [⟨'S'.toUInt8, [], by decide⟩, ⟨'Q'.toUInt8, [0], by decide⟩]
  carries := by decide

theorem psql_frames_iff_sync :
    WriteFramed .psqlc 5 ((Vfd.zero ppPsqlCommonInit).accepted (psqlPp .psqlc) 5 ppPsqlCommonInit)
      syncThenQuery [syncThenQuery.bytes] ↔ syncThenQuery.Framable :=
  (psql_frames_iff (Or.inl rfl) (Vfd.zero ppPsqlCommonInit) ppPsqlCommonInit).1 syncThenQuery
    [syncThenQuery.bytes] (by simp) ⟨by decide, fun _ _ _ => trivial⟩

/-- After `Sync` the query is not framed. -/
theorem sync_blocks_query :
    [syncThenQuery.bytes].flatten = syncThenQuery.bytes ∧
      WriteFits 5 ((Vfd.zero ppPsqlCommonInit).accepted (psqlPp .psqlc) 5 ppPsqlCommonInit)
        [syncThenQuery.bytes] ∧
      ¬ WriteFramed .psqlc 5
        ((Vfd.zero ppPsqlCommonInit).accepted (psqlPp .psqlc) 5 ppPsqlCommonInit)
        syncThenQuery [syncThenQuery.bytes] := by
  have hfit : WriteFits 5
      ((Vfd.zero ppPsqlCommonInit).accepted (psqlPp .psqlc) 5 ppPsqlCommonInit)
      [syncThenQuery.bytes] := ⟨by decide, fun _ _ _ => trivial⟩
  refine ⟨by simp, hfit, ?_⟩
  rw [writeFramed_iff (Or.inl rfl) _ _ syncThenQuery (by simp) hfit]
  exact fun h => h.1 ⟨'S'.toUInt8, [], by decide⟩ (by simp [syncThenQuery]) rfl

end BorderPatrol.Trace
