import BorderPatrol.Trace.Getservice
import BorderPatrol.Trace.Rendezvous

/-!
# Which processor a connection gets

`pp_id_bind`, `pp_id_connect` and `pp_id_exec` of `protocol.c` compare the port of an address with
the ports of the services they know, in order, and a path with the paths they know. `accept` asks
about the address of the server in a variable of 16 bytes, `connect_event` in one of 128. Whatever
was looked up before, the answer depends on the files and the variable only (`portIds_eq`). The two
ends of a connection, on hosts that give the services the same ports, get the processors of the two
sides of one protocol, or both none, unless the port is first of all that of `perlp`, which has no
client side, or the path is `/usr/local/ze`, which only the client knows (`counterparts_iff`).
-/

namespace BorderPatrol.Trace

open Foundations

/-! ## The processors and their names -/

/-- The dispatchers of `protocol.c` that an address can get. -/
inductive Pp
  | https | psqls | mysqls | perlps | fcgis | httpc | psqlc | mysqlc | fcgic | xc
  deriving DecidableEq, Repr

namespace Pp

/-- The field `name`, by which the port is looked up. -/
def name : Pp → List Byte
  | https | httpc => ascii "http"
  | psqls | psqlc => ascii "postgresql"
  | mysqls | mysqlc => ascii "mysql"
  | perlps => ascii "perlp"
  | fcgis | fcgic => ascii "fcgi"
  | xc => ascii "x11"

/-- What is logged of an address that gets the processor. -/
def text : Pp → List Byte
  | https => ascii "https"
  | psqls => ascii "psqls"
  | mysqls => ascii "mysqls"
  | perlps => ascii "perlps"
  | fcgis => ascii "fcgis"
  | httpc => ascii "httpc"
  | psqlc => ascii "psqlc"
  | mysqlc => ascii "mysqlc"
  | fcgic => ascii "fcgic"
  | xc => ascii "xc"

/-- The processor for the client of a server. -/
def client : Pp → Option Pp
  | https => some httpc
  | psqls => some psqlc
  | mysqls => some mysqlc
  | fcgis => some fcgic
  | _ => none

end Pp

/-- What a process finds out processors with: its files, the value of `LIBBTRACE_SERVICES` and
`bb_disable_pp`. -/
structure Host where
  fs : FileSystem
  services : Option (List Byte)
  disablePp : Bool

namespace Host

variable (h : Host)

/-- `is_protocol_port` -/
def isProtocolPort (st : Services) (protocolName : List Byte) (port : ℤ) :
    Except Fault (Bool × Services) :=
  getportbyname h.fs h.services st protocolName >>= fun (protocolPort, st) =>
    .ok (0 < protocolPort && port == protocolPort, st)

/-- The processors are tried one after the other. -/
def portIds (port : ℤ) (st : Services) : List Pp → Except Fault (Option Pp × Services)
  | [] => .ok (none, st)
  | pp :: pps =>
    h.isProtocolPort st pp.name port >>= fun (found, st) =>
      if found then .ok (some pp, st) else portIds port st pps

/-- The paths are tried one after the other. `strstr` stops where it finds the path, or at a
zero. -/
def pathIds (sunPath : List Byte) : List (List Byte × Pp) → Except Fault (Option Pp)
  | [] => .ok none
  | (path, pp) :: l =>
    inBounds (strstr path sunPath ≠ none ∨ 0 ∈ sunPath) >>= fun _ =>
      if (strstr path sunPath).isSome then .ok (some pp) else pathIds sunPath l

/-- `sin_port`, for an address in a variable of contents `m`. -/
def sinPort (m : List Byte) : ℤ := ofBE ((m.drop 2).take 2)

/-- `pp_id_bind`, on a variable of contents `m`. -/
def ppIdBind (st : Services) (m : List Byte) : Except Fault (Option Pp × Services) :=
  if h.disablePp then .ok (none, st)
  else if ofLE (m.take 2) = afInet ∨ ofLE (m.take 2) = afInet6 then
    h.portIds (sinPort m) st [.https, .psqls, .mysqls, .perlps, .fcgis]
  else if ofLE (m.take 2) = afFile then
    pathIds (m.drop 2) [(ascii "/var/run/postgl", .psqls), (ascii "/var/run/mysql", .mysqls)] >>=
      fun pp => .ok (pp, st)
  else .ok (none, st)

/-- `pp_id_connect` -/
def ppIdConnect (st : Services) (m : List Byte) : Except Fault (Option Pp × Services) :=
  if h.disablePp then .ok (none, st)
  else if ofLE (m.take 2) = afInet ∨ ofLE (m.take 2) = afInet6 then
    h.portIds (sinPort m) st [.httpc, .psqlc, .mysqlc, .fcgic]
  else if ofLE (m.take 2) = afFile then
    pathIds (m.drop 2) [(ascii "/var/run/postgl", .psqlc), (ascii "/var/run/mysql", .mysqlc),
      (ascii "/usr/local/ze", .fcgic)] >>= fun pp =>
      -- `strncmp` with 14 bytes, none of which is zero
      .ok (pp.or (if (ascii "/tmp/.X11-unix").isPrefixOf (m.drop 2) then some .xc else none), st)
  else .ok (none, st)

/-- `pp_id_exec`, on a string. -/
def ppIdExec (path : List Byte) : Option Pp :=
  if h.disablePp then none
  else if (strstr (ascii ".fcgi") (path ++ [0])).isSome then some .fcgis else none

end Host

/-- What is logged with the processor. -/
def idLog (pp : Option Pp) : List LogCall := pp.toList.map fun pp => logbinS .ppId 0 pp.text

/-- The contents of a variable of `size` bytes that an address was asked for with. -/
def sockVar (size : ℕ) (junk : Mem Byte) : Option (List Byte) → List Byte
  | none => junk.slice 0 size
  | some a => (junk.store 0 (a.take size)).slice 0 size

/-- The processor that `accept` gives, from the answer of `getsockname`. -/
def acceptId (h : Host) (st : Services) (laddr : Mem Byte) (sock : Option (List Byte)) :
    Except Fault (Option Pp × Services) :=
  h.ppIdBind st (sockVar 16 laddr sock)

/-- The processor that `connect_event` gives, from the answer of `getpeername`. -/
def connectId (h : Host) (st : Services) (raddr : Mem Byte) (peer : Option (List Byte)) :
    Except Fault (Option Pp × Services) :=
  h.ppIdConnect st (sockVar 128 raddr peer)

/-- What `accept` learns of the new descriptor: the text that it logs and the processor. -/
def acceptPeer (h : Host) (st : Services) (raddr laddr : Mem Byte)
    (peer sock : Option (List Byte)) : Except Fault (List Byte × Option Pp × Services) :=
  acceptRdv raddr laddr peer sock >>= fun rdv =>
    acceptId h st laddr sock >>= fun (pp, st) => .ok (rdv, pp, st)

/-- What `connect_event` learns. -/
def connectPeer (h : Host) (st : Services) (raddr laddr : Mem Byte)
    (peer sock : Option (List Byte)) : Except Fault (List Byte × Option Pp × Services) :=
  connectRdv raddr laddr peer sock >>= fun rdv =>
    connectId h st raddr peer >>= fun (pp, st) => .ok (rdv, pp, st)

/-! ## Ports -/

namespace Host

variable {h : Host} {st : Services}

/-- The port of a service, as a process finds it at any time. -/
def portOf (h : Host) (name : List Byte) : ℤ :=
  match getportbyname h.fs h.services .start name with
  | .ok (port, _) => port
  | .error _ => -1

/-- The service of the processor has the port. -/
def Serves (h : Host) (pp : Pp) (port : ℤ) : Prop := 0 < h.portOf pp.name ∧ port = h.portOf pp.name

instance (h : Host) (pp : Pp) (port : ℤ) : Decidable (h.Serves pp port) :=
  inferInstanceAs (Decidable (_ ∧ _))

theorem isProtocolPort_eq (hst : Closed h.services st) (pp : Pp) (port : ℤ) :
    ∃ st', h.isProtocolPort st pp.name port = .ok (decide (h.Serves pp port), st') ∧
      Closed h.services st' := by
  obtain ⟨p, st', st₀, hget, hget₀, hst'⟩ :=
    getportbyname_same hst (closed_start h.services) h.fs pp.name
  refine ⟨st', ?_, hst'⟩
  have hp : h.portOf pp.name = p := by rw [portOf, hget₀]
  simp only [isProtocolPort, hget, ok_bind, Serves, hp, Bool.decide_and, Bool.beq_eq_decide_eq]

/-- **The processors of a port**: the first of them whose service has it, whatever was looked up
before. -/
theorem portIds_eq (hst : Closed h.services st) (port : ℤ) (pps : List Pp) :
    ∃ st', h.portIds port st pps = .ok (pps.find? fun pp => h.Serves pp port, st') ∧
      Closed h.services st' := by
  induction pps generalizing st with
  | nil => exact ⟨st, rfl, hst⟩
  | cons pp pps ih =>
    obtain ⟨st₁, hfirst, hst₁⟩ := isProtocolPort_eq hst pp port
    rw [portIds, hfirst, ok_bind]
    by_cases hserves : h.Serves pp port
    · refine ⟨st₁, ?_, hst₁⟩
      simp only [hserves, decide_true, if_true, List.find?_cons]
    · obtain ⟨st₂, hrest, hst₂⟩ := ih hst₁
      refine ⟨st₂, ?_, hst₂⟩
      simp only [hserves, decide_false, Bool.false_eq_true, if_false, List.find?_cons, hrest]

/-- The services that both ends know do not hide behind `perlp`: a port that is first of all that of
`perlp` is known to the server only. -/
def PortPaired (h : Host) (port : ℤ) : Prop :=
  h.Serves .perlps port → h.Serves .https port ∨ h.Serves .psqls port ∨ h.Serves .mysqls port

/-! ## Paths -/

/-- Of the paths, none is in the string. -/
theorem pathIds_none {sunPath : List Byte} (h₀ : 0 ∈ sunPath) {l : List (List Byte × Pp)}
    (hl : ∀ e ∈ l, strstr e.1 sunPath = none) : pathIds sunPath l = .ok none := by
  induction l with
  | nil => rfl
  | cons e l ih =>
    obtain ⟨he, hl⟩ := List.forall_mem_cons.1 hl
    rw [pathIds, inBounds_of (Or.inr h₀), ok_bind, he]
    exact ih hl

end Host

/-- In a string that is not longer than the needle it is found only as the whole. -/
theorem strstr_short {needle path rest : List Byte} (h₀ : 0 ∉ needle)
    (hlen : path.length ≤ needle.length) (hne : needle ≠ path) :
    strstr needle (path ++ 0 :: rest) = none := by
  rw [Option.eq_none_iff_forall_ne_some]
  intro i hi
  have hfront := strstr_front h₀ hi
  have hle := hfront.length_le
  rw [List.length_drop] at hle
  by_cases hi : i = 0
  · subst hi
    exact hne (hfront.eq_of_length (by rw [List.drop_zero]; omega))
  · -- nothing is left in front of the zero
    have hnil : needle.length = 0 := by omega
    have hpath : path.length = 0 := by omega
    exact hne ((List.length_eq_zero_iff.1 hnil).trans (List.length_eq_zero_iff.1 hpath).symm)

/-! ## The variables -/

section Variables

variable {size : ℕ} {junk : Mem Byte} {h : Host} {st : Services}

variable (size junk)

theorem sockVar_take {a : List Byte} {n : ℕ} (hsize : n ≤ size) (ha : n ≤ a.length) :
    (sockVar size junk (some a)).take n = a.take n := by
  obtain ⟨k, hk⟩ : ∃ k, size = n + k := Nat.exists_eq_add_of_le hsize
  have hlen : n ≤ (a.take size).length := by rw [List.length_take]; omega
  rw [sockVar, Mem.take_slice _ _ hsize]
  have hself := Mem.slice_store_self junk 0 (a.take size)
  rw [← Mem.take_slice _ _ hlen, hself, List.take_take, Nat.min_eq_left hsize]

/-- Of an address of the Internet the family and the port are in the variable. -/
theorem sockVar_inet (f : Byte) {port : ℕ} (rest : List Byte) (hsize : 16 ≤ size)
    (hp : port < 2 ^ 16) :
    ofLE ((sockVar size junk (some (f :: 0 :: (toBE 2 port ++ rest)))).take 2) = f.toNat ∧
      Host.sinPort (sockVar size junk (some (f :: 0 :: (toBE 2 port ++ rest)))) = port := by
  have h4 : (sockVar size junk (some (f :: 0 :: (toBE 2 port ++ rest)))).take 4 =
      f :: 0 :: toBE 2 port := by
    have hlen : 4 ≤ (f :: 0 :: (toBE 2 port ++ rest)).length := by
      simp only [List.length_cons, List.length_append, length_toBE]
      omega
    rw [sockVar_take size junk (by omega) hlen]
    simp only [List.take_succ_cons, List.take_left' (length_toBE 2 port)]
  constructor
  · have h2 := congrArg (List.take 2) h4
    rw [List.take_take, show min 2 4 = 2 from rfl] at h2
    rw [h2]
    simp [ofLE]
  · have h2 := congrArg (List.drop 2) h4
    rw [List.drop_take] at h2
    rw [Host.sinPort, h2, List.drop_succ_cons, List.drop_succ_cons, List.drop_zero,
      ofBE_toBE_of_lt hp]

/-- A path of 13 bytes or less is in the variable, with the zero behind it. -/
theorem sockVar_unix {e : UnixEnd} (hsize : 16 ≤ size) (hpath : e.path.length ≤ 13)
    (hne : e.path ≠ []) :
    ∃ rest, sockVar size junk (some e.bytes) = 1 :: 0 :: (e.path ++ 0 :: rest) := by
  have hbytes : e.bytes = 1 :: 0 :: (e.path ++ [0]) := by rw [UnixEnd.bytes, if_neg hne]
  have hlen : e.bytes.length ≤ size := by
    rw [hbytes]
    simp only [List.length_cons, List.length_append, List.length_nil]
    omega
  rw [sockVar, List.take_of_length_le hlen, held_eq junk hlen, hbytes]
  exact ⟨_, by simp only [List.cons_append, List.append_assoc, List.nil_append]; rfl⟩

end Variables

/-! ## Both ends -/

/-- There are no processors at the two ends, or those of the two sides of one protocol. -/
def Ends : Option Pp → Option Pp → Prop
  | none, none => True
  | some s, some k => s.client = some k
  | _, _ => False

namespace Connection

/-- A server of `AF_FILE` is bound to a path. -/
def Bound : Connection → Prop
  | unix _ y => y.path ≠ []
  | _ => True

/-- `accept` gives `pp` to the server's end, whatever its variable held and whatever the process
looked up before. -/
def Accepted (h : Host) (c : Connection) (pp : Option Pp) : Prop :=
  ∀ (laddr : Mem Byte) (st : Services), Closed h.services st →
    ∃ st', acceptId h st laddr (some c.server) = .ok (pp, st') ∧ Closed h.services st'

/-- `connect_event` gives `pp` to the client's end. -/
def Connected (h : Host) (c : Connection) (pp : Option Pp) : Prop :=
  ∀ (raddr : Mem Byte) (st : Services), Closed h.services st →
    ∃ st', connectId h st raddr (some c.server) = .ok (pp, st') ∧ Closed h.services st'

/-- The server's end is nothing that only one side knows. -/
def Paired (h : Host) : Connection → Prop
  | inet _ y => h.PortPaired y.port
  | inet6 _ y => h.PortPaired y.port
  | unix _ y => y.path ≠ ascii "/usr/local/ze"

end Connection

section Chains

variable (h : Host) (port : ℤ)

/-- The processor of a server's port. -/
def Host.servers : Option Pp :=
  [.https, .psqls, .mysqls, .perlps, .fcgis].find? fun pp => h.Serves pp port

/-- The processor of the client of a port. -/
def Host.clients : Option Pp :=
  [.httpc, .psqlc, .mysqlc, .fcgic].find? fun pp => h.Serves pp port

/-- The two tables agree but for `perlp`. -/
theorem ends_iff : Ends (h.servers port) (h.clients port) ↔ h.PortPaired port := by
  have hhttp : h.Serves .httpc port ↔ h.Serves .https port := Iff.rfl
  have hpsql : h.Serves .psqlc port ↔ h.Serves .psqls port := Iff.rfl
  have hmysql : h.Serves .mysqlc port ↔ h.Serves .mysqls port := Iff.rfl
  have hfcgi : h.Serves .fcgic port ↔ h.Serves .fcgis port := Iff.rfl
  unfold Host.servers Host.clients Host.PortPaired
  simp only [List.find?_cons, List.find?_nil, hhttp, hpsql, hmysql, hfcgi]
  by_cases h₁ : h.Serves .https port <;> by_cases h₂ : h.Serves .psqls port <;>
    by_cases h₃ : h.Serves .mysqls port <;> by_cases h₄ : h.Serves .perlps port <;>
      by_cases h₅ : h.Serves .fcgis port <;>
        simp [h₁, h₂, h₃, h₄, h₅, Ends, Pp.client]

end Chains

namespace Connection

variable {h : Host} {c : Connection}

/-- The server logs the name of the connection. -/
theorem Accepted.peer {pp : Option Pp} (ha : c.Accepted h pp) (hread : c.Readable) {st : Services}
    (hst : Closed h.services st) (raddr laddr : Mem Byte) : ∃ st',
      acceptPeer h st raddr laddr (some c.client) (some c.server) = .ok (c.name, pp, st') ∧
        Closed h.services st' := by
  obtain ⟨st', hid, hst'⟩ := ha laddr st hst
  refine ⟨st', ?_, hst'⟩
  rw [acceptPeer, (hread.rendezvous raddr laddr).2, ok_bind, hid, ok_bind]

/-- The client logs the same name. -/
theorem Connected.peer {pp : Option Pp} (hc : c.Connected h pp) (hread : c.Readable) {st : Services}
    (hst : Closed h.services st) (raddr laddr : Mem Byte) : ∃ st',
      connectPeer h st raddr laddr (some c.server) (some c.client) = .ok (c.name, pp, st') ∧
        Closed h.services st' := by
  obtain ⟨st', hid, hst'⟩ := hc raddr st hst
  refine ⟨st', ?_, hst'⟩
  rw [connectPeer, (hread.rendezvous raddr laddr).1, ok_bind, hid, ok_bind]

theorem accepted_disabled (hdis : h.disablePp = true) (c : Connection) : c.Accepted h none := by
  intro laddr st hst
  rw [acceptId, Host.ppIdBind, if_pos hdis]
  exact ⟨st, rfl, hst⟩

theorem connected_disabled (hdis : h.disablePp = true) (c : Connection) : c.Connected h none := by
  intro raddr st hst
  rw [connectId, Host.ppIdConnect, if_pos hdis]
  exact ⟨st, rfl, hst⟩

section Internet

variable (hdis : h.disablePp = false) {f : Byte} {port : ℕ} {rest : List Byte}
  (hf : f.toNat = afInet ∨ f.toNat = afInet6) (hp : port < 2 ^ 16)
  (hserver : c.server = f :: 0 :: (toBE 2 port ++ rest))

include hdis hf hp hserver

/-- The server's end of a connection of the Internet gets what its port gets. -/
theorem accepted_inet : c.Accepted h (h.servers port) := by
  intro laddr st hst
  obtain ⟨hfam, hport⟩ := sockVar_inet 16 laddr f rest le_rfl hp
  rw [acceptId, hserver, Host.ppIdBind, hdis, if_neg Bool.false_ne_true, hfam, if_pos hf, hport]
  exact Host.portIds_eq hst _ _

theorem connected_inet : c.Connected h (h.clients port) := by
  intro raddr st hst
  obtain ⟨hfam, hport⟩ := sockVar_inet 128 raddr f rest (by decide) hp
  rw [connectId, hserver, Host.ppIdConnect, hdis, if_neg Bool.false_ne_true, hfam, if_pos hf, hport]
  exact Host.portIds_eq hst _ _

end Internet

section Paths

variable (hdis : h.disablePp = false) {x y : UnixEnd} (hpath : y.path.length ≤ 13)
  (hne : y.path ≠ [])

theorem zero_mem_path (path rest : List Byte) : (0 : Byte) ∈ path ++ 0 :: rest := by simp

theorem family_file (t : List Byte) : ofLE ((1 :: 0 :: t : List Byte).take 2) = afFile := by
  simp [ofLE, afFile]

theorem file_not_inet : ¬ (afFile = afInet ∨ afFile = afInet6) := by decide

include hpath in
theorem strstr_path {needle : List Byte} (rest : List Byte) (h₀ : 0 ∉ needle)
    (hlen : 13 < needle.length) : strstr needle (y.path ++ 0 :: rest) = none := by
  refine strstr_short h₀ (by omega) fun heq => ?_
  rw [heq] at hlen
  omega

include hdis hpath hne

/-- The server knows none of the paths that fit into the variable of `accept`. -/
theorem accepted_unix : (unix x y).Accepted h none := by
  intro laddr st hst
  obtain ⟨rest, hvar⟩ := sockVar_unix 16 laddr le_rfl hpath hne
  refine ⟨st, ?_, hst⟩
  have hnone : Host.pathIds (y.path ++ 0 :: rest) [(ascii "/var/run/postgl", .psqls),
      (ascii "/var/run/mysql", .mysqls)] = .ok none := by
    apply Host.pathIds_none (zero_mem_path _ _)
    simp only [List.forall_mem_cons, List.not_mem_nil, IsEmpty.forall_iff, implies_true, and_true]
    exact ⟨strstr_path hpath rest (by decide) (by decide),
      strstr_path hpath rest (by decide) (by decide)⟩
  change acceptId h st laddr (some y.bytes) = _
  rw [acceptId, hvar, Host.ppIdBind, hdis, if_neg Bool.false_ne_true, family_file,
    if_neg file_not_inet, if_pos rfl]
  exact congrArg (· >>= fun pp => .ok (pp, st)) hnone

/-- The client knows one of them. -/
theorem connected_unix : (unix x y).Connected h
    (if y.path = ascii "/usr/local/ze" then some .fcgic else none) := by
  intro raddr st hst
  obtain ⟨rest, hvar⟩ := sockVar_unix 128 raddr (by decide) hpath hne
  refine ⟨st, ?_, hst⟩
  have hmem := zero_mem_path y.path rest
  have hpaths : Host.pathIds (y.path ++ 0 :: rest) [(ascii "/var/run/postgl", .psqlc),
      (ascii "/var/run/mysql", .mysqlc), (ascii "/usr/local/ze", .fcgic)] =
        .ok (if y.path = ascii "/usr/local/ze" then some .fcgic else none) := by
    rw [Host.pathIds, inBounds_of (Or.inr hmem), ok_bind,
      strstr_path hpath rest (by decide) (by decide), Option.isSome_none,
      if_neg Bool.false_ne_true, Host.pathIds, inBounds_of (Or.inr hmem), ok_bind,
      strstr_path hpath rest (by decide) (by decide), Option.isSome_none,
      if_neg Bool.false_ne_true, Host.pathIds, inBounds_of (Or.inr hmem), ok_bind]
    by_cases hze : y.path = ascii "/usr/local/ze"
    · rw [hze, strstr_self (by decide), Option.isSome_some, if_pos rfl, if_pos rfl]
    · rw [strstr_short (by decide) hpath (Ne.symm hze), Option.isSome_none,
        if_neg Bool.false_ne_true, if_neg hze]
      rfl
  -- the path of the X server is too long
  have hx : ¬ (ascii "/tmp/.X11-unix").isPrefixOf (y.path ++ 0 :: rest) := by
    intro hp
    have hle := (prefix_front (by decide) (List.isPrefixOf_iff_prefix.1 hp)).length_le
    exact absurd (hle.trans hpath) (by decide)
  change connectId h st raddr (some y.bytes) = _
  rw [connectId, hvar, Host.ppIdConnect, hdis, if_neg Bool.false_ne_true, family_file,
    if_neg file_not_inet, if_pos rfl]
  refine (congrArg (· >>= _) hpaths).trans ?_
  rw [ok_bind]
  exact congrArg (fun pp => Except.ok (Option.or _ pp, st)) (if_neg hx) |>.trans
    (by rw [Option.or_none])

end Paths

end Connection

/-- Two hosts identify connections alike: both do or neither, and their files give the services the
same ports. -/
structure Host.Alike (h g : Host) : Prop where
  disablePp : h.disablePp = g.disablePp
  ports : ∀ pp : Pp, h.portOf pp.name = g.portOf pp.name

theorem Host.Alike.clients_eq {h g : Host} (hg : h.Alike g) (port : ℤ) :
    g.clients port = h.clients port := by
  unfold Host.clients
  congr 1
  funext pp
  rw [decide_eq_decide, Host.Serves, Host.Serves, hg.ports]

/-- **The two ends of a connection.** Of every connection that `accept` can read the two ends get
processors, whatever their variables held and whatever their processes looked up before. When the
hosts of the ends identify connections alike, these are the processors of the two sides of one
protocol, or there are none, if and only if nothing is identified, or the end of the server is
nothing that only one side knows: its port is not first of all that of `perlp`, and its path is not
`/usr/local/ze`. -/
theorem counterparts_iff (h g : Host) (hg : h.Alike g) (c : Connection) (hread : c.Readable)
    (hbound : c.Bound) : ∃ s k, c.Accepted h s ∧ c.Connected g k ∧
      (Ends s k ↔ h.disablePp = true ∨ c.Paired h) := by
  cases hdis : h.disablePp with
  | true =>
    exact ⟨none, none, c.accepted_disabled hdis, c.connected_disabled (hg.disablePp ▸ hdis),
      iff_of_true trivial (Or.inl rfl)⟩
  | false =>
    have hdis' : g.disablePp = false := hg.disablePp ▸ hdis
    simp only [Bool.false_eq_true, false_or]
    cases c with
    | inet x y =>
      refine ⟨_, _, Connection.accepted_inet hdis (Or.inl rfl) y.port_lt rfl,
        Connection.connected_inet hdis' (Or.inl rfl) y.port_lt rfl, ?_⟩
      rw [hg.clients_eq]
      exact ends_iff h y.port
    | inet6 x y =>
      refine ⟨_, _, Connection.accepted_inet hdis (Or.inr rfl) y.port_lt rfl,
        Connection.connected_inet hdis' (Or.inr rfl) y.port_lt rfl, ?_⟩
      rw [hg.clients_eq]
      exact ends_iff h y.port
    | unix x y =>
      refine ⟨_, _, Connection.accepted_unix hdis hread.2 hbound,
        Connection.connected_unix hdis' hread.2 hbound, ?_⟩
      unfold Connection.Paired
      split
      · next hze => exact iff_of_false id fun hne => hne hze
      · next hne => exact iff_of_true trivial hne

/-- `/etc/services` has `postgresql` and `perlp`. -/
def postgresqlHost : Host where
  fs path :=
    if path = pathServices then some (ascii "postgresql 5432/tcp\nperlp 6000/tcp\n") else none
  services := none
  disablePp := false

/-- Another host, whose services are those of a file of the user. -/
def postgresqlClient : Host where
  fs path :=
    if path = ascii "/etc/pg" then some (ascii "postgresql 5432/tcp\nperlp 6000/tcp\n") else none
  services := some (ascii "/etc/pg")
  disablePp := false

theorem postgresql_alike : postgresqlHost.Alike postgresqlClient where
  disablePp := rfl
  ports pp := by cases pp <;> decide +kernel

/-- The address 10.0.0.1. -/
def inetEnd (port : UInt16) : InetEnd := ⟨[10, 0, 0, 1], port.toNat, rfl, port.toNat_lt⟩

/-- A connection to a PostgreSQL server. -/
def toPostgresql : Connection := .inet (inetEnd 3000) (inetEnd 5432)

theorem counterparts_iff_postgresql : ∃ s k, toPostgresql.Accepted postgresqlHost s ∧
    toPostgresql.Connected postgresqlClient k ∧
      (Ends s k ↔ postgresqlHost.disablePp = true ∨ toPostgresql.Paired postgresqlHost) :=
  counterparts_iff postgresqlHost postgresqlClient postgresql_alike toPostgresql trivial trivial

/-- The server gets `psqls` and its client `psqlc`. -/
example : postgresqlHost.servers 5432 = some .psqls ∧
    postgresqlHost.clients 5432 = some .psqlc := by
  decide +kernel

/-- The server gets `perlps` and its client nothing. -/
example : postgresqlHost.servers 6000 = some .perlps ∧ postgresqlHost.clients 6000 = none := by
  decide +kernel

end BorderPatrol.Trace
