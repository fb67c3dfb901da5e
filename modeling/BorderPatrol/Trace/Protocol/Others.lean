import BorderPatrol.Trace.Protocol.Fcgi
import BorderPatrol.Trace.Protocol.Https
import BorderPatrol.Trace.Protocol.Mysql
import BorderPatrol.Trace.Protocol.Psql

/-!
# The other processors

The processors `perlps`, `httpc` and `xc` of `protocol.c`, and all the processors that `pp_id_bind`,
`pp_id_connect` and `pp_id_exec` can give to a descriptor (`Installed`).
-/

namespace BorderPatrol.Trace

open Foundations

/-! ## Single lines -/

/-- `pp_perlp_state_t` -/
structure PpPerlpState where
  c2sCtr : ℤ
  s2cCtr : ℤ
  deriving DecidableEq, Repr

/-- `pp_perlps_init` -/
def ppPerlpsInit (s : ℤ) (_ : PpPerlpState) : PpPerlpState × List LogCall :=
  (⟨0, 1⟩, [logbinIis .ppInit 0 (PpId.num .perls) s (ascii "perlps")])

/-- `pp_perlps_shutdown` -/
def ppPerlpsShutdown (data : PpPerlpState) : PpPerlpState × List LogCall :=
  (data, [logbinI .ppShutdown 0 (PpId.num .perls)])

/-- The body of `pp_perlps_read` and `pp_perlps_write`: a message is reported, numbered with the
same counter in both directions, and everything is consumed. -/
def perlpsSpeak (sc : Sc) (data : PpPerlpState) (s : ℤ) (_ : List Byte) (len : ℤ) :
    Except Fault (ℤ × PpPerlpState × List LogCall) :=
  .ok (len, { data with s2cCtr := toInt (data.s2cCtr + 1) },
    [logbinIiis sc 0 (PpId.num .perls) s data.s2cCtr (ascii "perlps")])

/-- `pp_perlps_read` -/
def ppPerlpsRead := perlpsSpeak .ppMsgRecv

/-- `pp_perlps_write` -/
def ppPerlpsWrite := perlpsSpeak .ppMsgSend

def ppPerlps : PpDispatcher PpPerlpState :=
  ⟨"perlp", ppPerlpsInit, ppPerlpsShutdown, ppPerlpsRead, ppPerlpsWrite⟩

/-! ## HTTP, client side -/

/-- The body of `pp_httpc_read` and `pp_httpc_write`. -/
def httpcSpeak (data : Unit) (_ : ℤ) (_ : List Byte) (len : ℤ) :
    Except Fault (ℤ × Unit × List LogCall) :=
  .ok (len, data, [])

/-- `pp_httpc_read` -/
def ppHttpcRead := httpcSpeak

/-- `pp_httpc_write` -/
def ppHttpcWrite := httpcSpeak

/-- The dispatcher of the client side. Its functions `pp_httpc_init` and `pp_httpc_shutdown` do
nothing. -/
def ppHttpc : PpDispatcher Unit :=
  ⟨"http", fun _ d => (d, []), fun d => (d, []), ppHttpcRead, ppHttpcWrite⟩

/-! ## X -/

/-- `pp_x_state_t` -/
structure PpXState where
  success : ℤ
  setup : ℤ
  recvid : ℤ
  sendid : ℤ
  deriving DecidableEq, Repr

/-- `pp_xc_init`, which does not initialise `setup`. -/
def ppXcInit (s : ℤ) (data : PpXState) : PpXState × List LogCall :=
  ({ data with success := 0, recvid := 0, sendid := 0 },
    [logbinIis .ppInit 0 (PpId.num .xc) s (ascii "xc")])

/-- `pp_xc_shutdown` -/
def ppXcShutdown (data : PpXState) : PpXState × List LogCall :=
  (data, [logbinS .ppShutdown 0 (ascii "xc")])

/-- `CARD16` -/
def card16 (c : List Byte) : ℤ := (c.getD 1 0).toNat * 256 + (c.getD 0 0).toNat

/-- `pp_xc_read` -/
def ppXcRead (state : PpXState) (s : ℤ) (cbuf : List Byte) (len : ℤ) :
    Except Fault (ℤ × PpXState × List LogCall) := do
  if state.success = 0 then
    cAssert (cbuf.getD 0 0 = 1)
    if len < 8 then return (-1, state, [])
    else
      let setup := 4 * card16 (cbuf.drop 6)
      return (8, { state with success := 1, setup := setup, recvid := toInt (state.recvid + 1) },
        [logbinS .ppReqBegin setup (ascii "xc_read"),
          logbinIiis .ppMsgRecv 0 (PpId.num .xc) s state.recvid (ascii "xc")])
  else if 0 < state.setup then
    if len < state.setup then return (-1, state, [])
    else return (state.setup, { state with setup := 0 }, [])
  else if len < 32 then return (-1, state, [])
  else return (32, state, [])

/-- `pp_xc_write` -/
def ppXcWrite (state : PpXState) (_ : ℤ) (_ : List Byte) (len : ℤ) :
    Except Fault (ℤ × PpXState × List LogCall) :=
  .ok (len, state, [])

def ppXc : PpDispatcher PpXState := ⟨"x11", ppXcInit, ppXcShutdown, ppXcRead, ppXcWrite⟩

/-! ## The processors that are installed -/

/-- What `pp_id_bind`, `pp_id_connect` and `pp_id_exec` can install, with what stands for the
memory that `https` and `fcgis`, `fcgic` read uninitialised. -/
inductive Installed
  | https (heap : ℤ → List Byte)
      (write : PpHttpState → ℤ → List Byte → ℤ → Except Fault (ℤ × PpHttpState × List LogCall))
  | psqls
  | mysqls
  | perlps
  | fcgis (junk : PpFcgiState → List Byte)
  | httpc
  | psqlc
  | mysqlc
  | fcgic (junk : PpFcgiState → List Byte)
  | xc

namespace Installed

/-- What `pp_data` points to. -/
def Data : Installed → Type
  | https .. => PpHttpState
  | psqls | psqlc => PpPsqlState
  | mysqls | mysqlc => PpMysqlState
  | perlps => PpPerlpState
  | fcgis _ | fcgic _ => PpFcgiStateWrap
  | httpc => Unit
  | xc => PpXState

/-- The dispatcher. -/
def pp : (i : Installed) → PpDispatcher i.Data
  | https heap write => ppHttps heap write
  | psqls => ppPsqls
  | mysqls => ppMysqls
  | perlps => ppPerlps
  | fcgis junk => ppFcgis junk
  | httpc => ppHttpc
  | psqlc => ppPsqlc
  | mysqlc => ppMysqlc
  | fcgic junk => ppFcgic junk
  | xc => ppXc

end Installed

end BorderPatrol.Trace
