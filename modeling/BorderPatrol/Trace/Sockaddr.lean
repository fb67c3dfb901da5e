import BorderPatrol.Trace.Log

/-!
# The names of the ends of a connection

`parse_sockaddr` of `vfd.c` and the texts that `accept` and `connect_event` hand to `LOGBINis`: the
name of the client's end, an arrow and the name of the server's end. Each learns the two addresses
from `getpeername` and `getsockname`, which store as much of an address as fits in the variable they
are given and tell its whole length; `accept` gives variables of 16 bytes, `connect_event` of 128.
What a variable held before is a parameter.
-/

namespace BorderPatrol.Trace

open Foundations

/-- `AF_FILE` -/
def afFile : ℕ := 1

/-- `AF_INET` -/
def afInet : ℕ := 2

/-- `AF_INET6` -/
def afInet6 : ℕ := 10

/-- `INET_ADDRSTRLEN` -/
def inetAddrstrlen : ℕ := 16

/-- `MAX_SOCK_FN` -/
def maxSockFn : ℕ := 256

/-- `MAX_LOG_LINE` -/
def maxLogLine : ℕ := 1023

/-- What the conversion `%x` prints. -/
def hexadecimal (n : ℕ) : List Byte := (Nat.toDigits 16 n).map fun c => UInt8.ofNat c.toNat

/-- `inet_ntop` for an address of `AF_INET`. -/
def inetNtop (a : List Byte) : List Byte :=
  decimal (a.getD 0 0).toNat ++ 46 :: (decimal (a.getD 1 0).toNat ++ 46 ::
    (decimal (a.getD 2 0).toNat ++ 46 :: decimal (a.getD 3 0).toNat))

/-- The first of the longest runs of zeros: where it begins and how long it is. -/
def longestZeros (words : List ℕ) : ℕ × ℕ :=
  (List.range words.length).foldl (fun best i =>
    let n := ((words.drop i).takeWhile (· = 0)).length
    if best.2 < n then (i, n) else best) (0, 0)

/-- `inet_ntop` for an address of `AF_INET6`: its words in hexadecimal, the longest run of two or
more zeros left out, and the last two in dotted decimal when it stands for an address of
`AF_INET`. -/
def inetNtop6 (a : List Byte) : List Byte :=
  let words := (List.range 8).map fun i => ofBE ((a.drop (2 * i)).take 2)
  let (base, n) := longestZeros words
  let embedded := base = 0 ∧ (n = 6 ∨ n = 5 ∧ words.getD 5 0 = 0xffff)
  let word (i : ℕ) : List Byte :=
    if 2 ≤ n ∧ base ≤ i ∧ i < base + n then if i = base then [58] else []
    else if embedded ∧ i = 7 then []
    else (if i = 0 then [] else [58]) ++
      if embedded ∧ i = 6 then inetNtop (a.drop 12) else hexadecimal (words.getD i 0)
  (List.range 8).flatMap word ++ if 2 ≤ n ∧ base + n = 8 then [58] else []

/-- What `sprintf` prints for a `char` with the conversion `%2x`. -/
def hexChar (b : Byte) : List Byte :=
  let t := hexadecimal (toChar b % 2 ^ 32).toNat
  if t.length < 2 then 32 :: t else t

/-- The branch of `parse_sockaddr` for the addresses of `AF_INET` and `AF_INET6`. Both are read as a
`struct sockaddr_in`, whose address is where a `struct sockaddr_in6` has its flow information. -/
def parseInet (m : List Byte) (family len : ℕ) : Except Fault (List Byte) := do
  inBounds (8 ≤ m.length)
  let host ←
    if (m.drop 4).take 4 = [0, 0, 0, 0] then pure (ascii "127.0.0.1")
    else if family = afInet then pure (inetNtop ((m.drop 4).take 4))
    else do
      inBounds (20 ≤ m.length)
      let text := inetNtop6 ((m.drop 4).take 16)
      pure (if text.length < inetAddrstrlen then text else [])
  return snprintf len (host ++ 58 :: decimal (ofBE ((m.drop 2).take 2)))

/-- The branch for the addresses of `AF_FILE`. -/
def parseFile (m : List Byte) (addrlen : ℤ) (len : ℕ) : Except Fault (List Byte) := do
  let splen := addrlen - 2
  let sp := m.drop 2
  inBounds (sp ≠ [])
  if sp.headD 0 ≠ 0 then
    -- `strncpy` reads on until a zero
    inBounds (0 ≤ splen ∧ splen ≤ maxSockFn ∧ (0 ∈ sp.take splen.toNat ∨ splen ≤ sp.length))
    return snprintf len (cstr (sp.take splen.toNat))
  else
    let file := (sp.take splen.toNat).flatMap hexChar
    inBounds (splen ≤ sp.length ∧ file.length ≤ maxSockFn)
    return snprintf len file

/-- `parse_sockaddr`, on a variable of contents `m`, for a name of `len` bytes. -/
def parseSockaddr (m : List Byte) (addrlen : ℤ) (len : ℕ) : Except Fault (List Byte) :=
  let family := ofLE (m.take 2)
  if family = afInet ∨ family = afInet6 then parseInet m family len
  else if family = afFile then parseFile m addrlen len
  else .ok (cstr ((ascii "unset" ++ [0]).take len))

/-- The name of an end. The address `a` was asked for with a variable of `size` bytes that held
`junk`; `none` when the call failed. -/
def hostport (size len : ℕ) (junk : Mem Byte) (a : Option (List Byte)) : Except Fault (List Byte) :=
  match a with
  | none => .ok (ascii "other")
  | some a => parseSockaddr ((junk.store 0 (a.take size)).slice 0 size) a.length len

/-- `"->"` -/
def arrow : List Byte := [45, 62]

/-- The text `accept` logs, from the answers of `getpeername` and `getsockname`. -/
def acceptRdv (raddr laddr : Mem Byte) (peer sock : Option (List Byte)) :
    Except Fault (List Byte) := do
  let rhostport ← hostport 16 512 raddr peer
  let lhostport ← hostport 16 512 laddr sock
  inBounds ((rhostport ++ arrow ++ lhostport).length < maxLogLine)
  return rhostport ++ arrow ++ lhostport

/-- The text `connect_event` logs. -/
def connectRdv (raddr laddr : Mem Byte) (peer sock : Option (List Byte)) :
    Except Fault (List Byte) := do
  let rhostport ← hostport 128 1024 raddr peer
  let lhostport ← hostport 128 1024 laddr sock
  inBounds ((lhostport ++ arrow ++ rhostport).length ≤ maxLogLine)
  return lhostport ++ arrow ++ rhostport

end BorderPatrol.Trace
