import BorderPatrol.Foundations.Units
import BorderPatrol.Trace.Parsing

/-!
# PostgreSQL

The processors `psqlc` and `psqls` of `protocol.c`. Each side of a connection runs `speak_psql`
with a state for what it reads and one for what it writes. Stripped of its log calls `speak_psql`
is the parser `psqlUnits c`, which numbers the messages of type `c`: `Q` from client to server, `Z`
from server to client (`psqlRead_parses`, `psqlWrite_parses`).
-/

namespace BorderPatrol.Trace

open Foundations Foundations.Resumable

/-- `pp_psql_state_side_t` -/
@[ext] structure PpPsqlStateSide where
  gotStartup : ℤ
  type : Byte
  gotHeader : ℤ
  todo : ℕ
  id : ℤ
  deriving DecidableEq, Repr

/-- `pp_psql_state_t` -/
structure PpPsqlState where
  read : PpPsqlStateSide
  write : PpPsqlStateSide
  deriving DecidableEq, Repr

/-- `get_int` -/
def getInt (m : List Byte) : ℕ := ofBE (m.take 4)

/-- `speak_psql`, on the memory `m` of which `len` bytes are valid. -/
def speakPsql (state : PpPsqlStateSide) (s : ℤ) (m : List Byte) (len : ℕ) (role : PpId)
    (dir : PpDirection) : ℤ × PpPsqlStateSide × List LogCall :=
  -- handle the case where we're spinning, waiting for more data
  if 0 < state.todo then
    if state.type = 'Q'.toUInt8 ∧ len < state.todo then (-1, state, [])
    else
      let used := min len state.todo
      let todo := state.todo - used
      (toInt used,
        { state with todo := todo, gotHeader := if todo = 0 then 0 else state.gotHeader },
        if state.type = 'Q'.toUInt8 then [logbinSs .ppProp 0 (ascii "QUERY") (cstr m)] else [])
  -- PSQL first involves a startup message with no 'type' field
  else if state.gotStartup = 0 then
    if len < 8 then (-1, state, [])
    else (8, { state with gotStartup := 1, todo := usub (getInt m) 8 }, [])
  -- normally, message headers include a 'type' field
  else if state.gotHeader = 0 then
    if len < 5 then (-1, state, [])
    else
      let type := m.headD 0
      let todo := usub (getInt (m.drop 1)) 4
      let text := ascii "psql: type=" ++ [type] ++ ascii " len=" ++ decimal (toInt (todo + 4)) ++
        ascii " todo=" ++ decimal (toInt todo)
      let data := logbinS .ppData 0 (snprintf 67 text)
      let state := { state with type := type, gotHeader := 1, todo := todo }
      let next := { state with id := toInt (state.id + 1) }
      if type = 'Q'.toUInt8 then
        if role = .psqlc ∧ dir = .write then
          (5, next, [data, logbinIiis .ppMsgSend 0 (PpId.num .psqlc) s state.id (ascii "psqlc")])
        else if role = .psqls ∧ dir = .read then
          (5, next, [data, logbinIiis .ppMsgRecv 0 (PpId.num .psqls) s state.id (ascii "psqls")])
        else (5, state, [data])
      else if type = 'Z'.toUInt8 then
        if role = .psqlc ∧ dir = .read then
          (5, next, [data, logbinIiis .ppMsgRecv 0 (PpId.num .psqlc) s state.id (ascii "psqlc")])
        else if role = .psqls ∧ dir = .write then
          (5, next, [data, logbinIiis .ppMsgSend 0 (PpId.num .psqls) s state.id (ascii "psqls")])
        else (5, state, [data])
      else (5, state, [data])
  else (-1, state, [])

/-- `pp_psql_common_init` -/
def ppPsqlCommonInit : PpPsqlState where
  read := ⟨0, 0, 0, 0, 0⟩
  write := ⟨0, 0, 0, 0, 0⟩

/-- `pp_psqlc_init`: the client doesn't read a startup message. -/
def ppPsqlcInit (s : ℤ) (_ : PpPsqlState) : PpPsqlState × List LogCall :=
  ({ ppPsqlCommonInit with read := { ppPsqlCommonInit.read with gotStartup := 1 } },
    [logbinIis .ppInit 0 (PpId.num .psqlc) s (ascii "psqlc")])

/-- `pp_psqls_init`: the server doesn't write a startup message. -/
def ppPsqlsInit (s : ℤ) (_ : PpPsqlState) : PpPsqlState × List LogCall :=
  ({ ppPsqlCommonInit with write := { ppPsqlCommonInit.write with gotStartup := 1 } },
    [logbinIis .ppInit 0 (PpId.num .psqls) s (ascii "psqls")])

/-- The `pp_read` of both processors. -/
def psqlRead (role : PpId) (data : PpPsqlState) (s : ℤ) (buf : List Byte) (len : ℤ) :
    Except Fault (ℤ × PpPsqlState × List LogCall) :=
  let r := speakPsql data.read s buf (len % 2 ^ 32).toNat role .read
  .ok (r.1, { data with read := r.2.1 }, r.2.2)

/-- The `pp_write` of both processors. -/
def psqlWrite (role : PpId) (data : PpPsqlState) (s : ℤ) (buf : List Byte) (len : ℤ) :
    Except Fault (ℤ × PpPsqlState × List LogCall) :=
  let r := speakPsql data.write s buf (len % 2 ^ 32).toNat role .write
  .ok (r.1, { data with write := r.2.1 }, r.2.2)

def ppPsqlcShutdown (data : PpPsqlState) : PpPsqlState × List LogCall :=
  (data, [logbinS .ppShutdown 0 (ascii "psqlc")])

def ppPsqlcRead := psqlRead .psqlc

def ppPsqlcWrite := psqlWrite .psqlc

def ppPsqlsShutdown (data : PpPsqlState) : PpPsqlState × List LogCall :=
  (data, [logbinS .ppShutdown 0 (ascii "psqls")])

def ppPsqlsRead := psqlRead .psqls

def ppPsqlsWrite := psqlWrite .psqls

/-- The dispatcher of the client side. -/
def ppPsqlc : PpDispatcher PpPsqlState :=
  ⟨"postgresql", ppPsqlcInit, ppPsqlcShutdown, ppPsqlcRead, ppPsqlcWrite⟩

/-- The dispatcher of the server side. -/
def ppPsqls : PpDispatcher PpPsqlState :=
  ⟨"postgresql", ppPsqlsInit, ppPsqlsShutdown, ppPsqlsRead, ppPsqlsWrite⟩

/-! ## The parser -/

/-- The state after a header, when the messages of type `c` are numbered, and the number given. -/
def psqlHeader (c : Byte) (state : PpPsqlStateSide) (b : List Byte) :
    PpPsqlStateSide × List ℤ :=
  let type := b.headD 0
  ({ state with
      type := type, gotHeader := 1, todo := usub (getInt (b.drop 1)) 4,
      id := if type = c then toInt (state.id + 1) else state.id },
    if type = c then [state.id] else [])

/-- The state after `n` bytes of a body. -/
def PpPsqlStateSide.skip (state : PpPsqlStateSide) (n : ℕ) : PpPsqlStateSide :=
  { state with
    todo := state.todo - n, gotHeader := if state.todo - n = 0 then 0 else state.gotHeader }

/-- What `speak_psql` wants from the stream, when the messages of type `c` are numbered. -/
def psqlWant (c : Byte) (state : PpPsqlStateSide) : Want PpPsqlStateSide Byte ℤ :=
  if 0 < state.todo then
    if state.type = 'Q'.toUInt8 then .whole state.todo fun _ => (state.skip state.todo, [])
    else .skip state.todo state.skip
  else if state.gotStartup = 0 then
    .whole 8 fun b => ({ state with gotStartup := 1, todo := usub (getInt b) 8 }, [])
  else if state.gotHeader = 0 then .whole 5 (psqlHeader c state)
  else .stuck

/-- The parser inside `speak_psql`. -/
def psqlUnits (c : Byte) : Step PpPsqlStateSide Byte ℤ := unitStep (psqlWant c)

theorem psqlWant_coherent (c : Byte) : Coherent (psqlWant c) where
  whole := by
    intro s k f h
    unfold psqlWant at h
    split at h
    · split at h
      · cases h
        assumption
      · cases h
    · split at h
      · cases h
        omega
      · split at h
        · cases h
          omega
        · cases h
  skip := by
    intro s k f h
    unfold psqlWant at h
    split at h
    · split at h
      · cases h
      · cases h
        assumption
    · split at h
      · cases h
      · split at h <;> cases h
  resume := by
    intro s k f j h hj hjk
    unfold psqlWant at h
    split at h
    · split at h
      · cases h
      · next hq =>
        cases h
        have hne : s.todo - j ≠ 0 := by omega
        have hskip : s.skip j = { s with todo := s.todo - j } := by
          simp only [PpPsqlStateSide.skip, hne, if_false]
        rw [hskip, psqlWant, if_pos (by simp only; omega), if_neg hq]
        congr 1
        funext i
        simp only [PpPsqlStateSide.skip, Nat.sub_sub]
    · split at h
      · cases h
      · split at h <;> cases h

theorem psqlUnits_lawful (c : Byte) : Lawful (psqlUnits c) := unitStep_lawful (psqlWant_coherent c)

/-! ## The code runs the parser -/

/-- The type of the messages numbered on each side of each role. -/
def psqlType (role : PpId) (dir : PpDirection) : Byte :=
  if role = .psqlc ∧ dir = .write ∨ role = .psqls ∧ dir = .read then 'Q'.toUInt8 else 'Z'.toUInt8

/-- The log call that reports the message numbered `i`. -/
def psqlMsg (role : PpId) (dir : PpDirection) (s i : ℤ) : LogCall :=
  logbinIiis (if dir = .write then .ppMsgSend else .ppMsgRecv) 0 role.num s i
    (ascii (if role = .psqlc then "psqlc" else "psqls"))

theorem getInt_take {m : List Byte} {n : ℕ} (h : 4 ≤ n) : getInt (m.take n) = getInt m := by
  rw [getInt, getInt, List.take_take, Nat.min_eq_left h]

theorem headD_take {m : List Byte} {n : ℕ} (h : 0 < n) : (m.take n).headD 0 = m.headD 0 := by
  obtain ⟨n, rfl⟩ : ∃ n', n = n' + 1 := ⟨n - 1, by omega⟩
  cases m <;> rfl

theorem psqlHeader_take (c : Byte) (state : PpPsqlStateSide) {m : List Byte} {n : ℕ} (h : 5 ≤ n) :
    psqlHeader c state (m.take n) = psqlHeader c state m := by
  rw [psqlHeader, psqlHeader, headD_take (by omega), List.drop_take, getInt_take (by omega)]

@[simp] theorem messages_data (rv : ℤ) (t : List Byte) (l : List LogCall) :
    messages (logbinS .ppData rv t :: l) = messages l := by
  simp [messages, logbinS]

@[simp] theorem messages_prop (rv : ℤ) (t u : List Byte) (l : List LogCall) :
    messages (logbinSs .ppProp rv t u :: l) = messages l := by
  simp [messages, logbinSs, logbinS]

theorem messages_msg {sc : Sc} (h : sc = .ppMsgSend ∨ sc = .ppMsgRecv) (rv i₁ i₂ i₃ : ℤ)
    (str : List Byte) :
    messages [logbinIiis sc rv i₁ i₂ i₃ str] = [logbinIiis sc rv i₁ i₂ i₃ str] := by
  simp [messages, logbinIiis, h]

/-- The header branch of `speak_psql`. -/
theorem speakPsql_header {state : PpPsqlStateSide} {s : ℤ} {m : List Byte} {len : ℕ} {role : PpId}
    (dir : PpDirection) (hr : role = .psqlc ∨ role = .psqls) (ht : state.todo = 0)
    (hg : state.gotStartup ≠ 0) (hh : state.gotHeader = 0) (hl : 5 ≤ len) :
    (speakPsql state s m len role dir).1 = 5 ∧
      (speakPsql state s m len role dir).2.1 = (psqlHeader (psqlType role dir) state m).1 ∧
      messages (speakPsql state s m len role dir).2.2 =
        (psqlHeader (psqlType role dir) state m).2.map (psqlMsg role dir s) := by
  have ht' : ¬ 0 < state.todo := by omega
  have hl' : ¬ len < 5 := by omega
  simp only [speakPsql, ht', hg, hh, hl', if_true, if_false, psqlHeader]
  have hne : 'Q'.toUInt8 ≠ 'Z'.toUInt8 := by decide
  generalize m.headD 0 = t
  by_cases hQ : t = 'Q'.toUInt8
  · subst hQ
    rcases hr with rfl | rfl <;> cases dir <;>
      simp only [hne, psqlType, psqlMsg, messages_msg, messages_data, messages_nil,
        reduceCtorEq, and_true, and_false, or_false, or_true, if_true, if_false, List.map_cons,
        List.map_nil, PpId.num, and_self]
  · by_cases hZ : t = 'Z'.toUInt8
    · subst hZ
      rcases hr with rfl | rfl <;> cases dir <;>
        simp only [hne.symm, psqlType, psqlMsg, messages_msg, messages_data, messages_nil,
          reduceCtorEq, and_true, and_false, or_false, or_true, if_true, if_false, List.map_cons,
          List.map_nil, PpId.num, and_self]
    · have hc : t ≠ psqlType role dir := by
        unfold psqlType
        split <;> assumption
      simp only [hQ, hZ, hc, if_false, messages_data, messages_nil, List.map_nil, and_self]

/-- **`speak_psql` runs the parser** that numbers the messages of its side. -/
theorem speakPsql_spec {state : PpPsqlStateSide} {s : ℤ} {m : List Byte} {len : ℕ} {role : PpId}
    {dir : PpDirection} (hr : role = .psqlc ∨ role = .psqls) (hm : len ≤ m.length)
    (hl : len < 2 ^ 31) :
    (speakPsql state s m len role dir).1 < 0 ∧
        psqlUnits (psqlType role dir) state (m.take len) = none ∧
        (speakPsql state s m len role dir).2.1 = state ∧
        messages (speakPsql state s m len role dir).2.2 = [] ∨
      ∃ (k : ℕ) (ids : List ℤ), (speakPsql state s m len role dir).1 = k ∧
        psqlUnits (psqlType role dir) state (m.take len) =
          some (k, (speakPsql state s m len role dir).2.1, ids) ∧
        messages (speakPsql state s m len role dir).2.2 = ids.map (psqlMsg role dir s) := by
  have hlen : (m.take len).length = len := by rw [List.length_take]; omega
  by_cases ht : 0 < state.todo
  · by_cases hQ : state.type = 'Q'.toUInt8
    · have hw : psqlWant (psqlType role dir) state =
          .whole state.todo fun _ => (state.skip state.todo, []) := by
        rw [psqlWant, if_pos ht, if_pos hQ]
      by_cases hlt : len < state.todo
      · left
        simp only [speakPsql, ht, hQ, hlt, and_self, if_true]
        exact ⟨by omega, unitStep_wait hw (by omega), trivial, rfl⟩
      · right
        have hq : ¬ (state.type = 'Q'.toUInt8 ∧ len < state.todo) := fun h => hlt h.2
        have hmin : min len state.todo = state.todo := by omega
        have hsp : speakPsql state s m len role dir = (toInt state.todo, state.skip state.todo,
            [logbinSs .ppProp 0 (ascii "QUERY") (cstr m)]) := by
          simp only [speakPsql, if_pos ht, if_neg hq, if_pos hQ, hmin]
          rfl
        refine ⟨state.todo, [], ?_, ?_, ?_⟩
        · simp only [hsp, toInt_natCast_lt (show state.todo < 2 ^ 31 by omega)]
        · rw [hsp, psqlUnits, unitStep_whole hw (by omega)]
        · simp [hsp]
    · right
      have hw : psqlWant (psqlType role dir) state = .skip state.todo state.skip := by
        rw [psqlWant, if_pos ht, if_neg hQ]
      have hq : ¬ (state.type = 'Q'.toUInt8 ∧ len < state.todo) := fun h => hQ h.1
      have hsp : speakPsql state s m len role dir =
          (toInt (min len state.todo : ℕ), state.skip (min len state.todo), []) := by
        simp only [speakPsql, if_pos ht, if_neg hq, if_neg hQ]
        rfl
      refine ⟨min len state.todo, [], ?_, ?_, ?_⟩
      · simp only [hsp, toInt_natCast_lt (show min len state.todo < 2 ^ 31 by omega)]
      · rw [hsp, psqlUnits, unitStep_skip hw, hlen]
      · simp [hsp]
  · by_cases hg : state.gotStartup = 0
    · have hw : psqlWant (psqlType role dir) state = .whole 8 fun b =>
          ({ state with gotStartup := 1, todo := usub (getInt b) 8 }, []) := by
        rw [psqlWant, if_neg ht, if_pos hg]
      by_cases hlt : len < 8
      · left
        simp only [speakPsql, ht, hg, hlt, if_true, if_false]
        exact ⟨by omega, unitStep_wait hw (by omega), trivial, rfl⟩
      · right
        simp only [speakPsql, ht, hg, hlt, if_true, if_false]
        refine ⟨8, [], rfl, ?_, rfl⟩
        rw [psqlUnits, unitStep_whole hw (by omega), List.take_take, getInt_take (by omega)]
    · by_cases hh : state.gotHeader = 0
      · have hw : psqlWant (psqlType role dir) state =
            .whole 5 (psqlHeader (psqlType role dir) state) := by
          rw [psqlWant, if_neg ht, if_neg hg, if_pos hh]
        by_cases hlt : len < 5
        · left
          simp only [speakPsql, ht, hg, hh, hlt, if_true, if_false]
          exact ⟨by omega, unitStep_wait hw (by omega), trivial, rfl⟩
        · right
          obtain ⟨h₁, h₂, h₃⟩ := speakPsql_header (s := s) (m := m) dir hr
            (show state.todo = 0 by omega) hg hh (show 5 ≤ len by omega)
          refine ⟨5, _, h₁, ?_, h₃⟩
          rw [psqlUnits, unitStep_whole hw (by omega), List.take_take,
            psqlHeader_take _ _ (by omega), h₂]
      · left
        have hw : psqlWant (psqlType role dir) state = .stuck := by
          rw [psqlWant, if_neg ht, if_neg hg, if_neg hh]
        simp only [speakPsql, ht, hg, hh, if_false]
        exact ⟨by omega, unitStep_stuck hw _, trivial, rfl⟩

/-- Reading, each role runs the parser of its side. -/
theorem psqlRead_parses {role : PpId} (hr : role = .psqlc ∨ role = .psqls) (s : ℤ) :
    Parses (fun d => psqlRead role d s) PpPsqlState.read (psqlUnits (psqlType role .read))
      (psqlMsg role .read s) := by
  intro d m n hn hm hfit
  have hv : vbufsize < 2 ^ 31 := by decide
  have hn' : ((n : ℤ) % 2 ^ 32).toNat = n := by omega
  simp only [psqlRead, hn']
  exact ⟨_, _, _, rfl, speakPsql_spec hr hm (by omega)⟩

/-- Writing, each role runs the parser of its side. -/
theorem psqlWrite_parses {role : PpId} (hr : role = .psqlc ∨ role = .psqls) (s : ℤ) :
    Parses (fun d => psqlWrite role d s) PpPsqlState.write (psqlUnits (psqlType role .write))
      (psqlMsg role .write s) := by
  intro d m n hn hm hfit
  have hv : vbufsize < 2 ^ 31 := by decide
  have hn' : ((n : ℤ) % 2 ^ 32).toNat = n := by omega
  simp only [psqlWrite, hn']
  exact ⟨_, _, _, rfl, speakPsql_spec hr hm (by omega)⟩

end BorderPatrol.Trace
