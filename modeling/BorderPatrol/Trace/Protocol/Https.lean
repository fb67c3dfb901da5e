import BorderPatrol.Foundations.CString
import BorderPatrol.Trace.Vfd

/-!
# HTTP, server side

The processor `https` of `protocol.c`. `pp_https_read` looks for the end of a header with `strstr`,
which stops at a zero byte and not after `len` bytes. The copy `tmp` of the header is not
terminated either: `heap n` stands for what the allocated memory holds behind the copy of the `n`th
header. What is written has a processor of its own, `ppHttpsWrite`, which copies the first 1024
bytes and reads the length of the body off the copy; the dispatcher takes it as a parameter, so
that what is proved of the reads does not depend on it.
-/

namespace BorderPatrol.Trace

open Foundations

/-- `pp_http_state_read_t` -/
structure PpHttpStateRead where
  done : ℤ
  awaitHeader : ℤ
  awaitCL : ℤ
  version : ℤ
  seqno : ℤ
  toread : ℤ
  deriving DecidableEq, Repr, Inhabited

/-- `pp_http_state_write_t` -/
structure PpHttpStateWrite where
  done : ℤ
  awaitStatus : ℤ
  toread : ℤ
  seqno : ℤ
  deriving DecidableEq, Repr, Inhabited

/-- `pp_http_state_t` -/
structure PpHttpState where
  read : PpHttpStateRead
  write : PpHttpStateWrite
  deriving DecidableEq, Repr, Inhabited

/-- `pp_https_init` -/
def ppHttpsInit (s : ℤ) (_ : PpHttpState) : PpHttpState × List LogCall :=
  ({ read := ⟨0, 1, 0, -1, 0, 0⟩, write := ⟨0, 1, 0, 0⟩ },
    [logbinIis .ppInit 0 (PpId.num .https) s (ascii "https")])

/-- `pp_https_shutdown` -/
def ppHttpsShutdown (data : PpHttpState) : PpHttpState × List LogCall :=
  (data, [logbinIs .ppShutdown 0 (PpId.num .https) (ascii "https")])

/-- The end of a header, `"\r\n\r\n"`. -/
def headerEnd : List Byte := [13, 10, 13, 10]

/-- The delimiters `" \r"` of the tokens of a header. -/
def headerDelim : List Byte := [32, 13]

/-- The header branch of `pp_https_read`, for a header that ends at `cbuf + stop`: three tokens are
logged, and the third says whether more headers follow. -/
def httpsHeader (heap : ℤ → List Byte) (state : PpHttpStateRead) (s : ℤ) (cbuf : List Byte)
    (len : ℤ) (stop : ℕ) : Except Fault (ℤ × PpHttpStateRead × List LogCall) := do
  let state := { state with awaitHeader := 0 }
  let msg := logbinIiis .ppMsgRecv 0 (PpId.num .https) s state.seqno (ascii "https")
  let tmp := cstr (cbuf.take len.toNat ++ heap state.seqno)
  let state := { state with seqno := toInt (state.seqno + 1) }
  -- strtok modifies the buffer in place
  let meth := strtok headerDelim tmp
  let url := meth.bind fun t => strtok headerDelim t.2
  let version := url.bind fun t => strtok headerDelim t.2
  let orNull (t : Option (List Byte × List Byte)) : List Byte :=
    match t with
    | some t => t.1
    | none => ascii "null"
  let log := [msg, logbinS .httpsRead len tmp,
    logbinSs .ppProp 0 (ascii "METHOD") (orNull meth),
    logbinSs .ppProp 0 (ascii "URL") (orNull url),
    logbinSs .ppProp 0 (ascii "VERSION") (orNull version)]
  match version with
  | none => .error .nullPointer
  | some (version, _) =>
    if (strstr (ascii "HTTP/1.0") (version ++ [0])).isSome then
      return (stop + 4, { state with version := 0, done := 1 }, log)
    else if (strstr (ascii "HTTP/1.1") (version ++ [0])).isSome then
      return (stop + 4, { state with version := 1, awaitHeader := 1 }, log)
    else .error .assertion

/-- `pp_https_read`, on the memory `cbuf` of which `len` bytes are valid. -/
def ppHttpsRead (heap : ℤ → List Byte) (data : PpHttpState) (s : ℤ) (cbuf : List Byte) (len : ℤ) :
    Except Fault (ℤ × PpHttpState × List LogCall) := do
  let state := data.read
  if state.done ≠ 0 then return (len, data, [])
  else if state.awaitHeader ≠ 0 then
    match strstr headerEnd cbuf with
    | none => return (-1, data, [])
    | some stop =>
      let (a, state, l) ← httpsHeader heap state s cbuf len stop
      return (a, { data with read := state }, l)
  else
    cAssert (0 < state.toread)
    return (-1, data, [])

/-- The length of the copy `tmp` of a status. -/
def statusCopy : ℕ := 1024

/-- What `strstr` looks for in the lines of a status. -/
def contentLength : List Byte := ascii "Content-Length: "

/-- The other thing it looks for. -/
def connectionClose : List Byte := ascii "Connection: close"

/-- `strstr(line, needle)` for a token `line`. -/
def contains (needle line : List Byte) : Bool := (strstr needle (line ++ [0])).isSome

/-- An access that may run off the end of an array. -/
def orOverrun {α : Type} (x : Option α) : Except Fault α := x.elim (.error .overrun) .ok

/-- The string at the start of what is left of an array. -/
def stringIn (m : List Byte) : Except Fault (List Byte) := do
  inBounds (0 ∈ m)
  return cstr m

/-- The loop of `pp_https_write` over the lines of a status, the rest of `tmp`: get lines until one
tells the length of the body or that the connection is closed. -/
def statusLines : ℕ → List Byte → PpHttpStateWrite → Except Fault (PpHttpStateWrite × List LogCall)
  | 0, _, _ => .error .fuel
  | n + 1, tmp, state => do
    match ← orOverrun (strtokIn [13] tmp) with
    | none => return (state, [])
    | some line =>
      if contains contentLength line.text then
        let clen ← stringIn ((line.text ++ 0 :: line.behind).drop 17)
        return ({ state with toread := atoi clen }, [logbinSs .ppProp 0 (ascii "CLEN") clen])
      else if contains connectionClose line.text then return ({ state with done := 1 }, [])
      else statusLines n line.next state

/-- The status branch of `pp_https_write`. When there is no version there is nothing for the next
calls of `strtok` either. -/
def httpsStatus (state : PpHttpStateWrite) (s : ℤ) (cbuf : List Byte) :
    Except Fault (PpHttpStateWrite × List LogCall) := do
  let state := { state with awaitStatus := 0 }
  let tmp := strncpy statusCopy cbuf
  let version ← orOverrun (strtokIn headerDelim tmp)
  let tmp := (version.map (·.next)).getD [0]
  let status ← orOverrun (strtokIn headerDelim tmp)
  let tmp := (status.map (·.next)).getD [0]
  let (state, l) ← statusLines (statusCopy + 1) tmp state
  let log := [logbinSs .ppProp 0 (ascii "VERSION") ((version.map (·.text)).getD (ascii "null")),
    logbinSs .ppProp 0 (ascii "STATUS") ((status.map (·.text)).getD (ascii "null"))] ++ l ++
    [logbinIiis .ppMsgSend 0 (PpId.num .https) s state.seqno (ascii "https")]
  return ({ state with seqno := toInt (state.seqno + 1) }, log)

/-- `pp_https_write`, on the memory `cbuf` of which `len` bytes are valid. -/
def ppHttpsWrite (data : PpHttpState) (s : ℤ) (cbuf : List Byte) (len : ℤ) :
    Except Fault (ℤ × PpHttpState × List LogCall) := do
  let state := data.write
  if state.done ≠ 0 then return (len, data, [])
  else if state.toread ≠ 0 then
    let consumed := if state.toread < len then state.toread else len
    let toread := toInt (state.toread - consumed)
    let state := { state with
      toread := toread
      awaitStatus := if toread = 0 then 1 else state.awaitStatus }
    return (consumed, { data with write := state }, [])
  else if state.awaitStatus ≠ 0 then
    match strstr headerEnd cbuf with
    | none => return (-1, data, [])
    | some stop =>
      let (state, l) ← httpsStatus state s cbuf
      return (stop + 4, { data with write := state }, l)
  else return (len, data, [])

/-- The dispatcher, with `write` for `pp_https_write`. -/
def ppHttps (heap : ℤ → List Byte)
    (write : PpHttpState → ℤ → List Byte → ℤ → Except Fault (ℤ × PpHttpState × List LogCall)) :
    PpDispatcher PpHttpState :=
  ⟨"http", ppHttpsInit, ppHttpsShutdown, ppHttpsRead heap, write⟩

end BorderPatrol.Trace
