import BorderPatrol.Foundations.Units
import BorderPatrol.Trace.Vfd

/-!
# FastCGI

The processors `fcgis` and `fcgic` of `protocol.c`. Both sides run `speak_fcgi`, with a state for
what they read and one for what they write: it reads the header of a record, and then the body,
which it may take in pieces. After the header of a `STDOUT` record it takes everything.

The buffer `tmp` of the function is not initialised: `junk` stands for what the stack holds behind
the bytes copied into it.
-/

namespace BorderPatrol.Trace

/-- `pp_fcgi_state_t` -/
structure PpFcgiState where
  success : ℤ
  conlen : ℤ
  padlen : ℤ
  streamType : Option (List Byte)
  reqId : ℤ
  done : ℤ
  deriving DecidableEq, Repr

/-- `pp_fcgi_state_wrap_t` -/
structure PpFcgiStateWrap where
  read : PpFcgiState
  write : PpFcgiState
  deriving DecidableEq, Repr

/-- A side as `pp_fcgi_init_help` leaves it. -/
def fcgiInit : PpFcgiState := ⟨0, 0, 0, none, -1, 0⟩

/-- `pp_fcgi_init_help` -/
def ppFcgiInitHelp : PpFcgiStateWrap := ⟨fcgiInit, fcgiInit⟩

/-- `type_of_record` -/
def typeOfRecord : ℕ → List Byte
  | 1 => ascii "FCGI_BEGIN_REQUEST"
  | 2 => ascii "FCGI_ABORT_REQUEST"
  | 3 => ascii "FCGI_END_REQUEST"
  | 4 => ascii "FCGI_PARAMS"
  | 5 => ascii "FCGI_STDIN"
  | 6 => ascii "FCGI_STDOUT"
  | 7 => ascii "FCGI_STDERR"
  | 8 => ascii "FCGI_DATA"
  | 9 => ascii "FCGI_GET_VALUES"
  | 10 => ascii "FCGI_GET_VALUES_RESULT"
  | _ => ascii "FCGI_UNKNOWN_TYPE"

/-- `FCGI_HEADER_LEN` -/
def fcgiHeaderLen : ℕ := 8

/-- The header of a record as `FCGI_REC_t` lays it out: type, request id, content length and padding
length. -/
def fcgiType (m : List Byte) : ℕ := (m.getD 1 0).toNat

def fcgiReqId (m : List Byte) : ℤ := (m.getD 2 0).toNat * 256 + (m.getD 3 0).toNat

def fcgiConlen (m : List Byte) : ℤ := (m.getD 4 0).toNat * 256 + (m.getD 5 0).toNat

def fcgiPadlen (m : List Byte) : ℤ := (m.getD 6 0).toNat

/-- The state `speak_fcgi` is in after the header `m`. -/
def PpFcgiState.header (state : PpFcgiState) (m : List Byte) : PpFcgiState where
  -- if there's no content, we want to get the next header
  success := if fcgiConlen m + fcgiPadlen m = 0 then 0 else 1
  conlen := fcgiConlen m
  padlen := fcgiPadlen m
  streamType := if fcgiType m = 4 then some (ascii "PARAMS:") else state.streamType
  reqId := fcgiReqId m
  done := if fcgiType m = 6 then 1 else state.done

/-- The bytes between this header and the next. -/
def PpFcgiState.body (state : PpFcgiState) : ℤ := state.conlen + state.padlen

/-- The state after the body. -/
def PpFcgiState.finish (state : PpFcgiState) : PpFcgiState := ⟨0, -1, -1, none, -1, state.done⟩

/-- The log calls `speak_fcgi` makes for the header `m`: begin, end and stdout records are
messages. -/
def fcgiHeaderLog (m : List Byte) (s : ℤ) (role : PpId) (d : PpDirection) : List LogCall :=
  let sarg := ascii (if role = .fcgis then "fcgis" else "fcgic")
  logbinS .ppFcgiHmm 0 (typeOfRecord (fcgiType m)) ::
    if fcgiType m = 1 ∨ fcgiType m = 3 ∨ fcgiType m = 6 then
      [logbinIiis (if d = .read then .ppMsgRecv else .ppMsgSend) (fcgiType m) role.num s
        (fcgiReqId m) sarg]
    else []

/-- `speak_fcgi`, on the memory `cbuf` of which `len` bytes are valid. -/
def speakFcgi (junk : PpFcgiState → List Byte) (state : PpFcgiState) (s : ℤ) (cbuf : List Byte)
    (len : ℤ) (role : PpId) (d : PpDirection) : Except Fault (ℤ × PpFcgiState × List LogCall) := do
  if state.done ≠ 0 then return (len, state, [])
  else if state.success = 0 then
    if len < fcgiHeaderLen then return (-1, state, [])
    else return (fcgiHeaderLen, state.header cbuf, fcgiHeaderLog cbuf s role d)
  else
    let toread := state.body
    -- should only get here if 'success' and there's a body to read
    cAssert (0 < toread)
    if toread ≤ len then
      -- end this request, come back with the balance
      let log ← match state.streamType with
        | none => pure []
        | some streamType => do
          let l := state.conlen - 2
          -- a negative count is a huge one for `strncpy`, and `tmp` has 1024 bytes
          inBounds (0 ≤ l ∧ l ≤ 1024)
          let tmp := cstr ((cbuf.drop 2).take (min l len).toNat ++ junk state)
          pure [logbinSs .ppProp 0 streamType tmp]
      return (toread, state.finish, log)
    else
      -- `toread -= len` changes the local variable
      return (len, state, [])

/-- The `pp_read` of both processors. -/
def fcgiRead (junk : PpFcgiState → List Byte) (role : PpId) (data : PpFcgiStateWrap) (s : ℤ)
    (buf : List Byte) (len : ℤ) : Except Fault (ℤ × PpFcgiStateWrap × List LogCall) := do
  let (a, state, l) ← speakFcgi junk data.read s buf len role .read
  return (a, { data with read := state }, l)

/-- The `pp_write` of both processors. -/
def fcgiWrite (junk : PpFcgiState → List Byte) (role : PpId) (data : PpFcgiStateWrap) (s : ℤ)
    (buf : List Byte) (len : ℤ) : Except Fault (ℤ × PpFcgiStateWrap × List LogCall) := do
  let (a, state, l) ← speakFcgi junk data.write s buf len role .write
  return (a, { data with write := state }, l)

def ppFcgisInit (s : ℤ) (_ : PpFcgiStateWrap) : PpFcgiStateWrap × List LogCall :=
  (ppFcgiInitHelp, [logbinIis .ppInit 0 (PpId.num .fcgis) s (ascii "fcgis")])

def ppFcgicInit (s : ℤ) (_ : PpFcgiStateWrap) : PpFcgiStateWrap × List LogCall :=
  (ppFcgiInitHelp, [logbinIis .ppInit 0 (PpId.num .fcgic) s (ascii "fcgic")])

def ppFcgisShutdown (data : PpFcgiStateWrap) : PpFcgiStateWrap × List LogCall :=
  (data, [logbinS .ppShutdown 0 (ascii "fcgis")])

def ppFcgicShutdown (data : PpFcgiStateWrap) : PpFcgiStateWrap × List LogCall :=
  (data, [logbinS .ppShutdown 0 (ascii "fcgic")])

/-- The dispatcher of the server side. -/
def ppFcgis (junk : PpFcgiState → List Byte) : PpDispatcher PpFcgiStateWrap :=
  ⟨"fcgi", ppFcgisInit, ppFcgisShutdown, fcgiRead junk .fcgis, fcgiWrite junk .fcgis⟩

/-- The dispatcher of the client side. -/
def ppFcgic (junk : PpFcgiState → List Byte) : PpDispatcher PpFcgiStateWrap :=
  ⟨"fcgi", ppFcgicInit, ppFcgicShutdown, fcgiRead junk .fcgic, fcgiWrite junk .fcgic⟩

/-! ## Feeding -/

/-- A side that has been fed: its state, the bytes left to be presented again, how many bytes it has
consumed, its log, and the offsets in the stream at which it read a header. -/
structure Fed where
  state : PpFcgiState
  left : List Byte
  off : ℕ
  log : List LogCall
  headers : List ℕ

/-- A side that has been fed nothing. -/
def Fed.start : Fed := ⟨fcgiInit, [], 0, [], []⟩

/-- The side after a call that took `req` bytes. -/
def Fed.took (f : Fed) (req : ℤ) (state : PpFcgiState) (l : List LogCall) : Fed where
  state := state
  left := f.left.drop req.toNat
  off := f.off + req.toNat
  log := f.log ++ l
  headers := if f.state.done = 0 ∧ f.state.success = 0 then f.headers ++ [f.off] else f.headers

/-- The loop of `vwrite_req` on `speak_fcgi`: call it until it asks for more or nothing is left. The
first argument bounds the calls. -/
def pumpFcgi (junk : PpFcgiState → List Byte) (s : ℤ) (role : PpId) (d : PpDirection) :
    ℕ → Fed → Except Fault Fed
  | 0, _ => .error .fuel
  | n + 1, f => do
    if f.left = [] then return f
    else
      let (req, state, l) ← speakFcgi junk f.state s f.left f.left.length role d
      if 0 < req then pumpFcgi junk s role d n (f.took req state l)
      else return { f with state := state, log := f.log ++ l }

/-- Feed chunk after chunk, what is left being presented again in front of the next. -/
def feedFcgi (junk : PpFcgiState → List Byte) (s : ℤ) (role : PpId) (d : PpDirection) :
    Fed → List (List Byte) → Except Fault Fed
  | f, [] => .ok f
  | f, c :: cs => do
    let left := f.left ++ c
    let f ← pumpFcgi junk s role d (left.length + 1) { f with left := left }
    feedFcgi junk s role d f cs

end BorderPatrol.Trace
