import BorderPatrol.Basic

/-!
# Log calls of the tracer

What the tracing library hands to `LOGBIN_gen`: the event, the return value, the integer arguments
and the string. The numbers of the events are assigned when `syscalls.h` is generated, so an event
is kept by its name.
-/

namespace BorderPatrol.Trace

/-- The events `SYS_*` of the functions modelled here. -/
inductive Sc
  | readBegin | read | recvBegin | recv | recvfromBegin | recvfrom
  | writeBegin | write | writevBegin | writev | sendBegin | send | sendtoBegin | sendto
  | selectBegin | select | pollBegin | poll
  | socket | acceptBegin | accept | connectBegin | connect | close | dup | dupFcntl | debug
  | httpsRead
  | ppId | ppInit | ppShutdown | ppReqBegin | ppMsgSend | ppMsgRecv | ppProp | ppData | ppFcgiHmm
  | ppIsoRead | ppIsoPoll
  deriving DecidableEq, Repr

/-- The name of an event. -/
def Sc.name : Sc → String
  | readBegin => "SYS_READ_BEGIN"
  | read => "SYS_READ"
  | recvBegin => "SYS_RECV_BEGIN"
  | recv => "SYS_RECV"
  | recvfromBegin => "SYS_RECVFROM_BEGIN"
  | recvfrom => "SYS_RECVFROM"
  | writeBegin => "SYS_WRITE_BEGIN"
  | write => "SYS_WRITE"
  | writevBegin => "SYS_WRITEV_BEGIN"
  | writev => "SYS_WRITEV"
  | sendBegin => "SYS_SEND_BEGIN"
  | send => "SYS_SEND"
  | sendtoBegin => "SYS_SENDTO_BEGIN"
  | sendto => "SYS_SENDTO"
  | selectBegin => "SYS_SELECT_BEGIN"
  | select => "SYS_SELECT"
  | pollBegin => "SYS_POLL_BEGIN"
  | poll => "SYS_POLL"
  | socket => "SYS_SOCKET"
  | acceptBegin => "SYS_ACCEPT_BEGIN"
  | accept => "SYS_ACCEPT"
  | connectBegin => "SYS_CONNECT_BEGIN"
  | connect => "SYS_CONNECT"
  | close => "SYS_CLOSE"
  | dup => "SYS_DUP"
  | dupFcntl => "SYS_DUP_FCNTL"
  | debug => "SYS_DEBUG"
  | httpsRead => "SYS_HTTPS_READ"
  | ppId => "SYS_PP_ID"
  | ppInit => "SYS_PP_INIT"
  | ppShutdown => "SYS_PP_SHUTDOWN"
  | ppReqBegin => "SYS_PP_REQ_BEGIN"
  | ppMsgSend => "SYS_PP_MSG_SEND"
  | ppMsgRecv => "SYS_PP_MSG_RECV"
  | ppProp => "SYS_PP_PROP"
  | ppData => "SYS_PP_DATA"
  | ppFcgiHmm => "SYS_PP_FCGI_HMM"
  | ppIsoRead => "SYS_PP_ISO_READ"
  | ppIsoPoll => "SYS_PP_ISO_POLL"

/-- The arguments of one `LOGBIN_gen`: the first `num` integers and the string, empty when the
pointer is null. -/
structure LogCall where
  sc : Sc
  rv : ℤ
  args : List ℤ
  str : List Byte
  deriving DecidableEq, Repr

def logbin0 (sc : Sc) (rv : ℤ) : LogCall := ⟨sc, rv, [], []⟩

def logbinS (sc : Sc) (rv : ℤ) (s : List Byte) : LogCall := ⟨sc, rv, [], s⟩

/-- `LOGBINss` joins its two strings. -/
def logbinSs (sc : Sc) (rv : ℤ) (s₁ s₂ : List Byte) : LogCall :=
  logbinS sc rv (s₁ ++ ascii "=-=" ++ s₂)

def logbinI (sc : Sc) (rv i₁ : ℤ) : LogCall := ⟨sc, rv, [i₁], []⟩

def logbinIs (sc : Sc) (rv i₁ : ℤ) (s : List Byte) : LogCall := ⟨sc, rv, [i₁], s⟩

def logbinIi (sc : Sc) (rv i₁ i₂ : ℤ) : LogCall := ⟨sc, rv, [i₁, i₂], []⟩

def logbinIis (sc : Sc) (rv i₁ i₂ : ℤ) (s : List Byte) : LogCall := ⟨sc, rv, [i₁, i₂], s⟩

def logbinIii (sc : Sc) (rv i₁ i₂ i₃ : ℤ) : LogCall := ⟨sc, rv, [i₁, i₂, i₃], []⟩

def logbinIiis (sc : Sc) (rv i₁ i₂ i₃ : ℤ) (s : List Byte) : LogCall := ⟨sc, rv, [i₁, i₂, i₃], s⟩

/-- The ids of the processors in `config.h` that are modelled here, `PP_*_ID`. -/
inductive PpId
  | perls | https | psqls | psqlc | fcgis | fcgic | xc | mysqls | mysqlc
  deriving DecidableEq, Repr

def PpId.num : PpId → ℤ
  | .perls => 1
  | .https => 3
  | .psqls => 5
  | .psqlc => 6
  | .fcgis => 7
  | .fcgic => 8
  | .xc => 10
  | .mysqls => 11
  | .mysqlc => 12

/-- `pp_direction_t` -/
inductive PpDirection
  | read | write
  deriving DecidableEq, Repr

/-- The message events, in order. -/
def messages (l : List LogCall) : List LogCall :=
  l.filter fun e => e.sc = .ppMsgSend ∨ e.sc = .ppMsgRecv

@[simp] theorem messages_nil : messages [] = [] := rfl

@[simp] theorem messages_append (l₁ l₂ : List LogCall) :
    messages (l₁ ++ l₂) = messages l₁ ++ messages l₂ := by
  simp [messages]

/-- The ids carried by the message events `sc` (`SYS_PP_MSG_SEND` or `SYS_PP_MSG_RECV`): the third
argument, after the role and the descriptor. -/
def msgIds (sc : Sc) (l : List LogCall) : List ℤ :=
  l.filterMap fun e => if e.sc = sc then e.args[2]? else none

@[simp] theorem msgIds_nil (sc : Sc) : msgIds sc [] = [] := rfl

@[simp] theorem msgIds_append (sc : Sc) (l₁ l₂ : List LogCall) :
    msgIds sc (l₁ ++ l₂) = msgIds sc l₁ ++ msgIds sc l₂ := by
  simp [msgIds]

theorem msgIds_messages {sc : Sc} (hsc : sc = .ppMsgSend ∨ sc = .ppMsgRecv) (l : List LogCall) :
    msgIds sc (messages l) = msgIds sc l := by
  rw [msgIds, msgIds, messages, List.filterMap_filter]
  congr 1
  funext e
  by_cases he : e.sc = sc
  · simp [he, hsc]
  · simp [he]

/-- When all the message events are `sc` events of one processor and descriptor, the ids of the
`sc` events are theirs. -/
theorem msgIds_eq {sc : Sc} (hsc : sc = .ppMsgSend ∨ sc = .ppMsgRecv) {l : List LogCall} {r s : ℤ}
    {n : List Byte} {ids : List ℤ} (h : messages l = ids.map fun i => logbinIiis sc 0 r s i n) :
    msgIds sc l = ids := by
  rw [← msgIds_messages hsc, h, msgIds, List.filterMap_map]
  induction ids with
  | nil => rfl
  | cons i ids ih => simp [logbinIiis]

end BorderPatrol.Trace
