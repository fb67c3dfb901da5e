import BorderPatrol.Foundations.Units
import BorderPatrol.Trace.Parsing

/-!
# MySQL

The processors `mysqlc` and `mysqls` of `protocol.c`. Each side of a connection runs `speak_mysql`
with a state for what it reads and one for what it writes: a packet is announced by a header of
four bytes with its size and its number, and every header is reported. Stripped of its log calls
`speak_mysql` is the parser `mysqlUnits`.
-/

namespace BorderPatrol.Trace

open Foundations Foundations.Resumable

/-- `pp_mysql_state_side_t` -/
@[ext] structure PpMysqlStateSide where
  todo : ℕ
  id : ℤ
  deriving DecidableEq, Repr

/-- `pp_mysql_state_t` -/
structure PpMysqlState where
  read : PpMysqlStateSide
  write : PpMysqlStateSide
  deriving DecidableEq, Repr

/-- `get_mysql_size`: the bytes are signed, so one of 128 or more sets all the bits above it. -/
def getMysqlSize (m : List Byte) : ℕ :=
  let tmp (i : ℕ) : BitVec 32 := BitVec.ofInt 32 (toChar (m.getD i 0))
  (tmp 0 ||| tmp 1 <<< 8 ||| tmp 2 <<< 16).toNat

/-- The state after the header `m`: the size of the packet, and its number in the low byte of
`id`. -/
def PpMysqlStateSide.header (state : PpMysqlStateSide) (m : List Byte) : PpMysqlStateSide :=
  { todo := getMysqlSize m, id := state.id - state.id % 256 + (m.getD 3 0).toNat }

/-- `speak_mysql`, on the memory `m` of which `len` bytes are valid. -/
def speakMysql (state : PpMysqlStateSide) (s : ℤ) (m : List Byte) (len : ℕ) (role : PpId)
    (dir : PpDirection) : ℤ × PpMysqlStateSide × List LogCall :=
  -- handle the case where we're spinning, waiting for more data
  if 0 < state.todo then
    let used := min len state.todo
    (toInt used, { state with todo := state.todo - used }, [])
  else if len < 4 then (-1, state, [])
  else
    let state := state.header m
    let text := ascii "mysql: id=" ++ decimal state.id ++
      ascii " todo=" ++ decimal (toInt state.todo)
    let data := logbinS .ppData 0 (snprintf 67 text)
    let msg :=
      match role, dir with
      | .mysqlc, .write =>
        [logbinIiis .ppMsgSend 0 (PpId.num .mysqlc) s state.id (ascii "mysqlc")]
      | .mysqlc, .read =>
        [logbinIiis .ppMsgRecv 0 (PpId.num .mysqlc) s state.id (ascii "mysqlc")]
      | .mysqls, .write =>
        [logbinIiis .ppMsgSend 0 (PpId.num .mysqls) s state.id (ascii "mysqls")]
      | .mysqls, .read =>
        [logbinIiis .ppMsgRecv 0 (PpId.num .mysqls) s state.id (ascii "mysqls")]
      | _, _ => []
    (4, state, data :: msg)

/-- `pp_mysql_common_init` -/
def ppMysqlCommonInit : PpMysqlState where
  read := ⟨0, 0⟩
  write := ⟨0, 0⟩

def ppMysqlcInit (s : ℤ) (_ : PpMysqlState) : PpMysqlState × List LogCall :=
  (ppMysqlCommonInit, [logbinIis .ppInit 0 (PpId.num .mysqlc) s (ascii "mysqlc")])

def ppMysqlsInit (s : ℤ) (_ : PpMysqlState) : PpMysqlState × List LogCall :=
  (ppMysqlCommonInit, [logbinIis .ppInit 0 (PpId.num .mysqls) s (ascii "mysqls")])

/-- The `pp_read` of both processors. -/
def mysqlRead (role : PpId) (data : PpMysqlState) (s : ℤ) (buf : List Byte) (len : ℤ) :
    Except Fault (ℤ × PpMysqlState × List LogCall) :=
  let r := speakMysql data.read s buf (len % 2 ^ 32).toNat role .read
  .ok (r.1, { data with read := r.2.1 }, r.2.2)

/-- The `pp_write` of both processors. -/
def mysqlWrite (role : PpId) (data : PpMysqlState) (s : ℤ) (buf : List Byte) (len : ℤ) :
    Except Fault (ℤ × PpMysqlState × List LogCall) :=
  let r := speakMysql data.write s buf (len % 2 ^ 32).toNat role .write
  .ok (r.1, { data with write := r.2.1 }, r.2.2)

def ppMysqlcShutdown (data : PpMysqlState) : PpMysqlState × List LogCall :=
  (data, [logbinS .ppShutdown 0 (ascii "mysqlc")])

def ppMysqlcRead := mysqlRead .mysqlc

def ppMysqlcWrite := mysqlWrite .mysqlc

def ppMysqlsShutdown (data : PpMysqlState) : PpMysqlState × List LogCall :=
  (data, [logbinS .ppShutdown 0 (ascii "mysqls")])

def ppMysqlsRead := mysqlRead .mysqls

def ppMysqlsWrite := mysqlWrite .mysqls

/-- The dispatcher of the client side. -/
def ppMysqlc : PpDispatcher PpMysqlState :=
  ⟨"mysql", ppMysqlcInit, ppMysqlcShutdown, ppMysqlcRead, ppMysqlcWrite⟩

/-- The dispatcher of the server side. -/
def ppMysqls : PpDispatcher PpMysqlState :=
  ⟨"mysql", ppMysqlsInit, ppMysqlsShutdown, ppMysqlsRead, ppMysqlsWrite⟩

/-! ## The parser -/

/-- What `speak_mysql` wants from the stream. -/
def mysqlWant (state : PpMysqlStateSide) : Want PpMysqlStateSide Byte ℤ :=
  if 0 < state.todo then .skip state.todo fun n => { state with todo := state.todo - n }
  else .whole 4 fun b => (state.header b, [(state.header b).id])

/-- The parser inside `speak_mysql`. -/
def mysqlUnits : Step PpMysqlStateSide Byte ℤ := unitStep mysqlWant

theorem mysqlWant_coherent : Coherent mysqlWant where
  whole := by
    intro s k f h
    unfold mysqlWant at h
    split at h
    · cases h
    · cases h
      omega
  skip := by
    intro s k f h
    unfold mysqlWant at h
    split at h
    · cases h
      assumption
    · cases h
  resume := by
    intro s k f j h hj hjk
    unfold mysqlWant at h
    split at h
    · cases h
      rw [mysqlWant, if_pos (by simp only; omega)]
      simp only [Nat.sub_sub]
    · cases h

theorem mysqlUnits_lawful : Lawful mysqlUnits := unitStep_lawful mysqlWant_coherent

/-! ## The code runs the parser -/

/-- The log call that reports the packet numbered `i`. -/
def mysqlMsg (role : PpId) (dir : PpDirection) (s i : ℤ) : LogCall :=
  logbinIiis (if dir = .write then .ppMsgSend else .ppMsgRecv) 0 role.num s i
    (ascii (if role = .mysqlc then "mysqlc" else "mysqls"))

theorem header_take (state : PpMysqlStateSide) {m : List Byte} {n : ℕ} (h : 4 ≤ n) :
    state.header (m.take n) = state.header m := by
  simp only [PpMysqlStateSide.header, getMysqlSize, getD_take (show 0 < n by omega),
    getD_take (show 1 < n by omega), getD_take (show 2 < n by omega),
    getD_take (show 3 < n by omega)]

/-- **`speak_mysql` runs the parser**. -/
theorem speakMysql_spec {state : PpMysqlStateSide} {s : ℤ} {m : List Byte} {len : ℕ} {role : PpId}
    {dir : PpDirection} (hr : role = .mysqlc ∨ role = .mysqls) (hm : len ≤ m.length)
    (hl : len < 2 ^ 31) :
    (speakMysql state s m len role dir).1 < 0 ∧ mysqlUnits state (m.take len) = none ∧
        (speakMysql state s m len role dir).2.1 = state ∧
        messages (speakMysql state s m len role dir).2.2 = [] ∨
      ∃ (k : ℕ) (ids : List ℤ), (speakMysql state s m len role dir).1 = k ∧
        mysqlUnits state (m.take len) =
          some (k, (speakMysql state s m len role dir).2.1, ids) ∧
        messages (speakMysql state s m len role dir).2.2 = ids.map (mysqlMsg role dir s) := by
  have hlen : (m.take len).length = len := by rw [List.length_take]; omega
  by_cases ht : 0 < state.todo
  · right
    have hw : mysqlWant state =
        .skip state.todo fun n => { state with todo := state.todo - n } := by
      rw [mysqlWant, if_pos ht]
    have hsp : speakMysql state s m len role dir = (toInt (min len state.todo : ℕ),
        { state with todo := state.todo - min len state.todo }, []) := by
      simp only [speakMysql, if_pos ht]
    refine ⟨min len state.todo, [], ?_, ?_, ?_⟩
    · simp only [hsp, toInt_natCast_lt (show min len state.todo < 2 ^ 31 by omega)]
    · rw [hsp, mysqlUnits, unitStep_skip hw, hlen]
    · simp [hsp]
  · have hw : mysqlWant state = .whole 4 fun b => (state.header b, [(state.header b).id]) := by
      rw [mysqlWant, if_neg ht]
    by_cases hlt : len < 4
    · left
      simp only [speakMysql, if_neg ht, if_pos hlt]
      exact ⟨by omega, unitStep_wait hw (by omega), trivial, rfl⟩
    · right
      refine ⟨4, [(state.header m).id], ?_, ?_, ?_⟩
      · simp only [speakMysql, if_neg ht, if_neg hlt]
        rfl
      · rw [mysqlUnits, unitStep_whole hw (by omega), List.take_take, header_take _ (by omega)]
        simp only [speakMysql, if_neg ht, if_neg hlt]
      · simp only [speakMysql, if_neg ht, if_neg hlt]
        rcases hr with rfl | rfl <;> cases dir <;>
          simp [mysqlMsg, messages, logbinIiis, logbinS]

/-- Reading, each role runs the parser. -/
theorem mysqlRead_parses {role : PpId} (hr : role = .mysqlc ∨ role = .mysqls) (s : ℤ) :
    Parses (fun d => mysqlRead role d s) PpMysqlState.read mysqlUnits (mysqlMsg role .read s) := by
  intro d m n hn hm hfit
  have hv : vbufsize < 2 ^ 31 := by decide
  have hn' : ((n : ℤ) % 2 ^ 32).toNat = n := by omega
  simp only [mysqlRead, hn']
  exact ⟨_, _, _, rfl, speakMysql_spec hr hm (by omega)⟩

/-- Writing, each role runs the parser. -/
theorem mysqlWrite_parses {role : PpId} (hr : role = .mysqlc ∨ role = .mysqls) (s : ℤ) :
    Parses (fun d => mysqlWrite role d s) PpMysqlState.write mysqlUnits
      (mysqlMsg role .write s) := by
  intro d m n hn hm hfit
  have hv : vbufsize < 2 ^ 31 := by decide
  have hn' : ((n : ℤ) % 2 ^ 32).toNat = n := by omega
  simp only [mysqlWrite, hn']
  exact ⟨_, _, _, rfl, speakMysql_spec hr hm (by omega)⟩

end BorderPatrol.Trace
