import BorderPatrol.Foundations.CString
import BorderPatrol.Trace.Sockaddr
import Mathlib.Data.Set.Basic

/-!
# Rendezvous names

The aggregator knows a connection by the text that `connect_event` logs on the client and `accept`
on the server. For addresses of `AF_INET` both log the addresses and ports of the two ends. Of an
address of `AF_INET6` they read the flow information as the address: when it is zero they log
`127.0.0.1`, whatever the address is, and otherwise `accept` reads beyond its variable. It does so
for a path of more than 13 bytes too. So a set of connections has rendezvous names, the same on both
sides and different for different connections, if and only if none of them is one that `accept`
cannot read and no two different ones are told apart by something else only (`rendezvous_iff`).
-/

namespace BorderPatrol.Trace

open Foundations

/-! ## Connections -/

/-- An address of `AF_INET` and a port. -/
structure InetEnd where
  addr : List Byte
  port : ℕ
  length_addr : addr.length = 4
  port_lt : port < 2 ^ 16

/-- An address of `AF_INET6`, with all that a `struct sockaddr_in6` has. -/
structure Inet6End where
  port : ℕ
  flowinfo : List Byte
  addr : List Byte
  scope : List Byte
  port_lt : port < 2 ^ 16
  length_flowinfo : flowinfo.length = 4
  length_addr : addr.length = 16
  length_scope : scope.length = 4

/-- A socket of `AF_FILE` bound to a path, or to none when the path is empty. -/
structure UnixEnd where
  path : List Byte
  ne_zero : ∀ b ∈ path, b ≠ 0
  length_path : path.length ≤ 108

/-- The address as the kernel stores it. -/
def InetEnd.bytes (e : InetEnd) : List Byte :=
  2 :: 0 :: (toBE 2 e.port ++ (e.addr ++ List.replicate 8 0))

/-- The address as the kernel stores it. -/
def Inet6End.bytes (e : Inet6End) : List Byte :=
  10 :: 0 :: (toBE 2 e.port ++ (e.flowinfo ++ (e.addr ++ e.scope)))

/-- The address as the kernel stores it. -/
def UnixEnd.bytes (e : UnixEnd) : List Byte :=
  1 :: 0 :: if e.path = [] then [] else e.path ++ [0]

/-- An established connection, by its two ends. -/
inductive Connection
  | inet (client server : InetEnd)
  | inet6 (client server : Inet6End)
  | unix (client server : UnixEnd)

namespace Connection

/-- The address of the client's end. -/
def client : Connection → List Byte
  | inet x _ => x.bytes
  | inet6 x _ => x.bytes
  | unix x _ => x.bytes

/-- The address of the server's end. -/
def server : Connection → List Byte
  | inet _ y => y.bytes
  | inet6 _ y => y.bytes
  | unix _ y => y.bytes

/-- Both sides log the text `n` for the connection, whatever their variables held. -/
def Rendezvous (c : Connection) (n : List Byte) : Prop :=
  ∀ raddr laddr : Mem Byte, connectRdv raddr laddr (some c.server) (some c.client) = .ok n ∧
    acceptRdv raddr laddr (some c.client) (some c.server) = .ok n

/-- The variables of `accept` are large enough for what `parse_sockaddr` reads. -/
def Readable : Connection → Prop
  | inet _ _ => True
  | inet6 x y => x.flowinfo = [0, 0, 0, 0] ∧ y.flowinfo = [0, 0, 0, 0]
  | unix x y => x.path.length ≤ 13 ∧ y.path.length ≤ 13

end Connection

/-- What is told of an end: its address, or that of the local host when it is zero, and its port. -/
def InetEnd.told (e : InetEnd) : List Byte × ℕ :=
  (if e.addr = [0, 0, 0, 0] then [127, 0, 0, 1] else e.addr, e.port)

/-- Of an end with no flow information only the port is told. -/
def Inet6End.told (e : Inet6End) : List Byte × ℕ := ([127, 0, 0, 1], e.port)

theorem InetEnd.length_told (e : InetEnd) : e.told.1.length = 4 := by
  unfold InetEnd.told
  split
  · rfl
  · exact e.length_addr

/-- An address in dotted decimal and a port. -/
def ipText (k : List Byte × ℕ) : List Byte := inetNtop k.1 ++ 58 :: decimal k.2

namespace Connection

/-- Two connections that cannot be told apart: the same is told of both ends, the paths are the same
when they are joined, or the paths are the addresses spelled out. -/
def Alike : Connection → Connection → Prop
  | inet x y, inet x' y' => x.told = x'.told ∧ y.told = y'.told
  | inet x y, inet6 x' y' => x.told = x'.told ∧ y.told = y'.told
  | inet6 x y, inet x' y' => x.told = x'.told ∧ y.told = y'.told
  | inet6 x y, inet6 x' y' => x.told = x'.told ∧ y.told = y'.told
  | unix x y, unix x' y' => x.path ++ arrow ++ y.path = x'.path ++ arrow ++ y'.path
  | unix x y, inet x' y' => x.path = ipText x'.told ∧ y.path = ipText y'.told
  | unix x y, inet6 x' y' => x.path = ipText x'.told ∧ y.path = ipText y'.told
  | inet x' y', unix x y => x.path = ipText x'.told ∧ y.path = ipText y'.told
  | inet6 x' y', unix x y => x.path = ipText x'.told ∧ y.path = ipText y'.told

end Connection

/-- The connections have rendezvous names: both sides log the same for each, and for no two
different ones is the same logged. -/
def RendezvousNames (opened : Set Connection) : Prop :=
  (∀ c ∈ opened, ∃ n, c.Rendezvous n) ∧
    ∀ c ∈ opened, ∀ c' ∈ opened, c ≠ c' → ∀ n, ¬ (c.Rendezvous n ∧ c'.Rendezvous n)

/-! ## Texts -/

section Texts

variable {k k' : List Byte × ℕ} {a a' : List Byte}

theorem inetNtop_mem {b : Byte} (h : b ∈ inetNtop a) : 46 ≤ b.toNat ∧ b.toNat ≤ 57 := by
  have hdigit : ∀ n : ℕ, b ∈ decimal n → 46 ≤ b.toNat ∧ b.toNat ≤ 57 := by
    intro n hn
    have := decimal_mem hn
    omega
  simp only [inetNtop, List.mem_append, List.mem_cons] at h
  rcases h with h | rfl | h | rfl | h | rfl | h
  exacts [hdigit _ h, by decide, hdigit _ h, by decide, hdigit _ h, by decide, hdigit _ h]

theorem ipText_mem {b : Byte} (h : b ∈ ipText k) : 46 ≤ b.toNat ∧ b.toNat ≤ 58 := by
  have hcolon : ((58 : Byte)).toNat = 58 := rfl
  simp only [ipText, List.mem_append, List.mem_cons] at h
  rcases h with h | rfl | h
  · have := inetNtop_mem h
    omega
  · omega
  · have := decimal_mem h
    omega

/-- Dotted decimal tells addresses apart. -/
theorem inetNtop_injective (ha : a.length = 4) (ha' : a'.length = 4)
    (h : inetNtop a = inetNtop a') : a = a' := by
  have hdot : ∀ n : ℕ, (46 : Byte) ∉ decimal n := by
    intro n hmem
    have := (decimal_mem hmem).1
    have hval : ((46 : Byte)).toNat = 46 := rfl
    omega
  obtain ⟨h₀, h⟩ := append_cons_inj_of_front (hdot _) (hdot _) h
  obtain ⟨h₁, h⟩ := append_cons_inj_of_front (hdot _) (hdot _) h
  obtain ⟨h₂, h₃⟩ := append_cons_inj_of_front (hdot _) (hdot _) h
  have hbyte : ∀ b b' : Byte, decimal b.toNat = decimal b'.toNat → b = b' :=
    fun b b' heq => UInt8.toNat_inj.1 (decimal_injective heq)
  obtain ⟨a₀, a₁, a₂, a₃, rfl⟩ := List.length_eq_four.1 ha
  obtain ⟨b₀, b₁, b₂, b₃, rfl⟩ := List.length_eq_four.1 ha'
  rw [hbyte a₀ b₀ h₀, hbyte a₁ b₁ h₁, hbyte a₂ b₂ h₂, hbyte a₃ b₃ h₃]

theorem ipText_injective (hk : k.1.length = 4) (hk' : k'.1.length = 4)
    (h : ipText k = ipText k') : k = k' := by
  have hcolon : ∀ x : List Byte, (58 : Byte) ∉ inetNtop x := by
    intro x hmem
    have := (inetNtop_mem hmem).2
    have hval : ((58 : Byte)).toNat = 58 := rfl
    omega
  obtain ⟨h₁, h₂⟩ := append_cons_inj_of_front (hcolon _) (hcolon _) h
  exact Prod.ext (inetNtop_injective hk hk' h₁) (decimal_injective h₂)

theorem arrow_notMem_ipText (k : List Byte × ℕ) : (45 : Byte) ∉ ipText k := by
  intro hmem
  have := (ipText_mem hmem).1
  have hval : ((45 : Byte)).toNat = 45 := rfl
  omega

/-- A text of two addresses comes apart in one way only. -/
theorem ipText_arrow_iff {x y : List Byte} : ipText k ++ arrow ++ ipText k' = x ++ arrow ++ y ↔
    x = ipText k ∧ y = ipText k' := by
  constructor
  · intro h
    simp only [arrow, List.append_assoc, List.cons_append, List.nil_append] at h
    rw [List.append_cons_inj_of_notMem (arrow_notMem_ipText k)
      (by simpa using arrow_notMem_ipText k')] at h
    exact ⟨h.1.symm, (List.cons.inj h.2.2).2.symm⟩
  · rintro ⟨rfl, rfl⟩
    rfl

theorem length_inetNtop_le (a : List Byte) : (inetNtop a).length ≤ 15 := by
  have hlen : ∀ b : Byte, (decimal b.toNat).length ≤ 3 := by
    intro b
    have := b.toNat_lt
    exact length_decimal_le (by decide) (by omega)
  have h₀ := hlen (a.getD 0 0)
  have h₁ := hlen (a.getD 1 0)
  have h₂ := hlen (a.getD 2 0)
  have h₃ := hlen (a.getD 3 0)
  simp only [inetNtop, List.length_append, List.length_cons]
  omega

theorem length_ipText_le (hk : k.2 < 2 ^ 16) : (ipText k).length ≤ 21 := by
  have h₁ := length_inetNtop_le k.1
  have h₂ := length_decimal_le (n := k.2) (k := 5) (by decide) (by omega)
  simp only [ipText, List.length_append, List.length_cons]
  omega

/-- A text that has no zero in it and fits is printed as it is. -/
theorem snprintf_of_lt {n : ℕ} {t : List Byte} (h₀ : ∀ b ∈ t, b ≠ 0) (hn : t.length < n) :
    snprintf n t = t := by
  rw [snprintf, List.take_of_length_le (by omega), cstr, List.takeWhile_eq_self_iff]
  simpa using h₀

end Texts

/-! ## The name of one end -/

section Ends

variable {size len : ℕ} {junk : Mem Byte}

/-- What a variable holds once a list that fits is stored in it. -/
theorem held_eq (junk : Mem Byte) {l : List Byte} (h : l.length ≤ size) :
    (junk.store 0 l).slice 0 size = l ++ junk.slice l.length (size - l.length) := by
  obtain ⟨k, rfl⟩ := Nat.exists_eq_add_of_le h
  rw [Mem.slice_add, Nat.zero_add, Mem.slice_store_self,
    Mem.slice_store_of_disjoint _ _ (Or.inr (by omega)), Nat.add_sub_cancel_left]

/-- An address of which what is read as the address is one of `AF_INET`, or zero. -/
theorem parseInet_eq {f : Byte} {port family : ℕ} {x rest : List Byte} (hx : x.length = 4)
    (hp : port < 2 ^ 16) (hfam : x = [0, 0, 0, 0] ∨ family = afInet) (hlen : 22 ≤ len) :
    parseInet (f :: 0 :: (toBE 2 port ++ (x ++ rest))) family len =
      .ok (ipText (if x = [0, 0, 0, 0] then [127, 0, 0, 1] else x, port)) := by
  have hport : ((f :: 0 :: (toBE 2 port ++ (x ++ rest))).drop 2).take 2 = toBE 2 port :=
    List.take_left' (length_toBE ..)
  have haddr : ((f :: 0 :: (toBE 2 port ++ (x ++ rest))).drop 4).take 4 = x := by
    rw [show (f :: 0 :: (toBE 2 port ++ (x ++ rest))).drop 4 =
      (toBE 2 port ++ (x ++ rest)).drop 2 from rfl, List.drop_left' (length_toBE ..),
      List.take_left' hx]
  have htext : ∀ a : List Byte, snprintf len (inetNtop a ++ 58 :: decimal port) =
      ipText (a, port) := by
    intro a
    refine snprintf_of_lt (fun b hb => ?_) ?_
    · have := (ipText_mem (k := (a, port)) hb).1
      rintro rfl
      exact absurd this (by decide)
    · have := length_ipText_le (k := (a, port)) hp
      simp only [ipText] at this
      omega
  have hlocal : ascii "127.0.0.1" = inetNtop [127, 0, 0, 1] := by decide
  have h8 : 8 ≤ (f :: 0 :: (toBE 2 port ++ (x ++ rest))).length := by
    simp only [List.length_cons, List.length_append, length_toBE, hx]
    omega
  unfold parseInet
  rw [inBounds_of h8, ok_bind, hport, haddr, ofBE_toBE_of_lt hp, hlocal]
  by_cases hzero : x = [0, 0, 0, 0]
  · rw [if_pos hzero, if_pos hzero, pure_bind]
    exact congrArg Except.ok (htext _)
  · have hfam' := hfam.resolve_left hzero
    rw [if_neg hzero, if_neg hzero, if_pos hfam', pure_bind]
    exact congrArg Except.ok (htext _)

theorem InetEnd.hostport_eq (e : InetEnd) (hsize : 16 ≤ size) (hlen : 22 ≤ len) :
    hostport size len junk (some e.bytes) = .ok (ipText e.told) := by
  have h16 : e.bytes.length = 16 := by simp [InetEnd.bytes, e.length_addr]
  rw [hostport, List.take_of_length_le (by omega), held_eq junk (by omega)]
  unfold InetEnd.bytes
  simp only [List.cons_append, List.append_assoc]
  exact parseInet_eq e.length_addr e.port_lt (Or.inr rfl) hlen

theorem Inet6End.hostport_eq (e : Inet6End) (hsize : 16 ≤ size) (hlen : 22 ≤ len)
    (hflow : e.flowinfo = [0, 0, 0, 0]) :
    hostport size len junk (some e.bytes) = .ok (ipText e.told) := by
  obtain ⟨rest, hrest⟩ : ∃ rest, (junk.store 0 (e.bytes.take size)).slice 0 size =
      10 :: 0 :: (toBE 2 e.port ++ (e.flowinfo ++ rest)) := by
    obtain ⟨n, rfl⟩ := Nat.exists_eq_add_of_le hsize
    rw [held_eq junk (List.length_take_le ..), show 16 + n = 8 + (8 + n) by omega, List.take_add]
    have h8 : e.bytes.take 8 = 10 :: 0 :: (toBE 2 e.port ++ e.flowinfo) := by
      have hsplit : ((10 :: 0 :: (toBE 2 e.port ++ e.flowinfo)) ++ (e.addr ++ e.scope)).take 8 =
          10 :: 0 :: (toBE 2 e.port ++ e.flowinfo) := List.take_left' (by simp [e.length_flowinfo])
      simpa [Inet6End.bytes] using hsplit
    rw [h8]
    exact ⟨_, by simp only [List.cons_append, List.append_assoc]; rfl⟩
  rw [hostport, hrest]
  have hparse : parseInet (10 :: 0 :: (toBE 2 e.port ++ (e.flowinfo ++ rest))) afInet6 len = _ :=
    parseInet_eq e.length_flowinfo e.port_lt (Or.inl hflow) hlen
  rw [if_pos hflow] at hparse
  exact hparse

/-- With flow information an address of `AF_INET6` is read beyond the variable of `accept`. -/
theorem Inet6End.hostport_error (e : Inet6End) (hflow : e.flowinfo ≠ [0, 0, 0, 0]) :
    hostport 16 512 junk (some e.bytes) = .error .overrun := by
  have hbytes : (junk.store 0 (e.bytes.take 16)).slice 0 16 =
      10 :: 0 :: (toBE 2 e.port ++ (e.flowinfo ++ e.addr.take 8)) := by
    have h16 : e.bytes.take 16 = 10 :: 0 :: (toBE 2 e.port ++ (e.flowinfo ++ e.addr.take 8)) := by
      have hsplit : ((10 :: 0 :: (toBE 2 e.port ++ (e.flowinfo ++ e.addr.take 8))) ++
          (e.addr.drop 8 ++ e.scope)).take 16 =
            10 :: 0 :: (toBE 2 e.port ++ (e.flowinfo ++ e.addr.take 8)) :=
        List.take_left' (by simp [e.length_flowinfo, e.length_addr])
      rw [← hsplit, Inet6End.bytes]
      congr 1
      simp only [List.cons_append, List.append_assoc]
      rw [← List.append_assoc (e.addr.take 8), List.take_append_drop]
    have hlen : (e.bytes.take 16).length = 16 := by
      rw [h16]
      simp [e.length_flowinfo, e.length_addr]
    rw [Mem.slice_store_eq _ _ hlen, h16]
  have haddr : ((10 :: 0 :: (toBE 2 e.port ++ (e.flowinfo ++ e.addr.take 8))).drop 4).take 4 =
      e.flowinfo := by
    rw [show (10 :: 0 :: (toBE 2 e.port ++ (e.flowinfo ++ e.addr.take 8))).drop 4 =
      (toBE 2 e.port ++ (e.flowinfo ++ e.addr.take 8)).drop 2 from rfl,
      List.drop_left' (length_toBE ..), List.take_left' e.length_flowinfo]
  have h16 : (10 :: 0 :: (toBE 2 e.port ++ (e.flowinfo ++ e.addr.take 8))).length = 16 := by
    simp [e.length_flowinfo, e.length_addr]
  rw [hostport, hbytes]
  change parseInet _ afInet6 512 = _
  unfold parseInet
  rw [inBounds_of (by omega), ok_bind, haddr, if_neg hflow, if_neg (by decide), inBounds,
    if_neg (by omega)]
  rfl

theorem UnixEnd.hostport_eq (e : UnixEnd) (hsize : e.path.length + 3 ≤ size) (hlen : 109 ≤ len) :
    hostport size len junk (some e.bytes) = .ok e.path := by
  have hpath := e.length_path
  have hsn : snprintf len e.path = e.path := snprintf_of_lt e.ne_zero (by omega)
  have hle : e.bytes.length ≤ size := by
    unfold UnixEnd.bytes
    split <;> simp <;> omega
  rw [hostport, List.take_of_length_le hle, held_eq junk hle]
  unfold UnixEnd.bytes
  by_cases hp : e.path = []
  · -- nothing of the path is read
    rw [if_pos hp]
    obtain ⟨b, tail, htail⟩ : ∃ b tail, junk.slice 2 (size - 2) = b :: tail :=
      List.exists_cons_of_ne_nil (List.ne_nil_of_length_pos (by rw [Mem.length_slice]; omega))
    simp only [List.length_cons, List.length_nil, List.cons_append, List.nil_append, htail]
    change parseFile (1 :: 0 :: b :: tail) (2 : ℕ) len = _
    rw [hp] at hsn ⊢
    unfold parseFile
    simp only [List.drop_succ_cons, List.drop_zero, List.headD_cons]
    rw [inBounds_of (List.cons_ne_nil _ _), ok_bind]
    split
    · rw [inBounds_of ⟨by omega, by simp [maxSockFn], Or.inr (by simp; omega)⟩, ok_bind]
      exact congrArg Except.ok hsn
    · rw [inBounds_of ⟨by simp; omega, by simp [maxSockFn]⟩, ok_bind]
      exact congrArg Except.ok hsn
  · -- the zero behind the path ends it
    rw [if_neg hp]
    simp only [List.length_cons, List.length_append, List.length_nil, List.cons_append,
      List.append_assoc, List.nil_append]
    change parseFile (1 :: 0 :: (e.path ++ 0 :: _)) (e.path.length + 1 + 1 + 1 : ℕ) len = _
    generalize junk.slice _ _ = tail
    have hhead : (e.path ++ 0 :: tail).headD 0 ≠ 0 := by
      obtain ⟨b, path, hcons⟩ := List.exists_cons_of_ne_nil hp
      rw [hcons]
      exact e.ne_zero b (hcons ▸ List.mem_cons_self)
    have htake : (e.path ++ 0 :: tail).take (e.path.length + 1) = e.path ++ [0] := by
      rw [List.append_cons, List.take_left' (by simp)]
    have hcstr : cstr (e.path ++ [0]) = e.path := by
      rw [cstr, List.takeWhile_append_of_pos (by simpa using e.ne_zero)]
      simp
    unfold parseFile
    simp only [List.drop_succ_cons, List.drop_zero]
    rw [inBounds_of (by simp), ok_bind, if_pos hhead,
      show ((e.path.length + 1 + 1 + 1 : ℕ) - 2 : ℤ).toNat = e.path.length + 1 by omega, htake,
      hcstr, inBounds_of ⟨by omega, by simp only [maxSockFn]; omega, Or.inl (by simp)⟩, ok_bind]
    exact congrArg Except.ok hsn

/-- A path of more than 13 bytes is read beyond the variable of `accept`. -/
theorem UnixEnd.hostport_error (e : UnixEnd) (hpath : 13 < e.path.length) :
    hostport 16 512 junk (some e.bytes) = .error .overrun := by
  have hp : e.path ≠ [] := List.ne_nil_of_length_pos (by omega)
  have h14 : (e.path.take 14).length = 14 := by rw [List.length_take]; omega
  have htake : e.bytes.take 16 = 1 :: 0 :: e.path.take 14 := by
    rw [UnixEnd.bytes, if_neg hp, List.take_succ_cons, List.take_succ_cons,
      List.take_append_of_le_length (by omega)]
  have hzero : (0 : Byte) ∉ e.path.take 14 := fun h => e.ne_zero 0 (List.mem_of_mem_take h) rfl
  have hhead : (e.path.take 14).headD 0 ≠ 0 := by
    obtain ⟨b, path, hcons⟩ := List.exists_cons_of_ne_nil hp
    rw [hcons]
    exact e.ne_zero b (hcons ▸ List.mem_cons_self)
  have hlen : e.bytes.length = e.path.length + 3 := by
    rw [UnixEnd.bytes, if_neg hp]
    simp
  rw [hostport, htake, Mem.slice_store_eq _ _ (by simp [h14]), hlen]
  change parseFile (1 :: 0 :: e.path.take 14) _ 512 = _
  unfold parseFile
  simp only [List.drop_succ_cons, List.drop_zero]
  rw [inBounds_of (List.ne_nil_of_length_pos (by omega)), ok_bind, if_pos hhead, inBounds, if_neg]
  · rfl
  · rintro ⟨-, -, h | h⟩
    · exact hzero (List.mem_of_mem_take h)
    · omega

end Ends

/-! ## The names of connections -/

namespace Connection

variable {c c' : Connection} {n n' : List Byte}

/-- The name of a connection that can be read. -/
def name : Connection → List Byte
  | inet x y => ipText x.told ++ arrow ++ ipText y.told
  | inet6 x y => ipText x.told ++ arrow ++ ipText y.told
  | unix x y => x.path ++ arrow ++ y.path

/-- When both ends have names, large variables or small, the connection has one. -/
theorem rendezvous_of {a b : List Byte} (ha : a.length ≤ 108) (hb : b.length ≤ 108)
    (hclient : ∀ (size len : ℕ) (junk : Mem Byte), 16 ≤ size → 109 ≤ len →
      hostport size len junk (some c.client) = .ok a)
    (hserver : ∀ (size len : ℕ) (junk : Mem Byte), 16 ≤ size → 109 ≤ len →
      hostport size len junk (some c.server) = .ok b) : c.Rendezvous (a ++ arrow ++ b) := by
  have hlen : (a ++ arrow ++ b).length < maxLogLine := by
    have h2 : arrow.length = 2 := rfl
    have hmax : maxLogLine = 1023 := rfl
    simp only [List.length_append]
    omega
  intro raddr laddr
  refine ⟨?_, ?_⟩
  · rw [connectRdv, hserver 128 1024 raddr (by omega) (by omega), ok_bind,
      hclient 128 1024 laddr (by omega) (by omega), ok_bind, inBounds_of hlen.le, ok_bind]
    rfl
  · rw [acceptRdv, hclient 16 512 raddr (by omega) (by omega), ok_bind,
      hserver 16 512 laddr (by omega) (by omega), ok_bind, inBounds_of hlen, ok_bind]
    rfl

/-- **A connection that can be read has a rendezvous name.** -/
theorem Readable.rendezvous (h : c.Readable) : c.Rendezvous c.name := by
  have hip : ∀ k : List Byte × ℕ, k.2 < 2 ^ 16 → (ipText k).length ≤ 108 := fun k hk =>
    (length_ipText_le hk).trans (by omega)
  cases c with
  | inet x y =>
    exact rendezvous_of (hip _ x.port_lt) (hip _ y.port_lt)
      (fun _ _ _ hs hl => x.hostport_eq hs (by omega))
      (fun _ _ _ hs hl => y.hostport_eq hs (by omega))
  | inet6 x y =>
    exact rendezvous_of (hip _ x.port_lt) (hip _ y.port_lt)
      (fun _ _ _ hs hl => x.hostport_eq hs (by omega) h.1)
      (fun _ _ _ hs hl => y.hostport_eq hs (by omega) h.2)
  | unix x y =>
    have hx := h.1
    have hy := h.2
    exact rendezvous_of x.length_path y.length_path
      (fun _ _ _ hs hl => x.hostport_eq (by omega) hl)
      (fun _ _ _ hs hl => y.hostport_eq (by omega) hl)

theorem Rendezvous.unique (h : c.Rendezvous n) (h' : c.Rendezvous n') : n = n' :=
  Except.ok.inj ((h (fun _ => 0) fun _ => 0).1.symm.trans (h' (fun _ => 0) fun _ => 0).1)

/-- When `accept` cannot read one of the ends, there is no name. -/
theorem Rendezvous.ends (h : c.Rendezvous n) :
    (∃ a, hostport 16 512 (fun _ => 0) (some c.client) = .ok a) ∧
      ∃ b, hostport 16 512 (fun _ => 0) (some c.server) = .ok b := by
  have hacc := (h (fun _ => 0) fun _ => 0).2
  rw [acceptRdv] at hacc
  rcases hc : hostport 16 512 (fun _ => 0) (some c.client) with e | a
  · rw [hc] at hacc
    cases hacc
  rcases hs : hostport 16 512 (fun _ => 0) (some c.server) with e | b
  · rw [hc, ok_bind, hs] at hacc
    cases hacc
  exact ⟨⟨a, rfl⟩, b, rfl⟩

/-- **A connection with a rendezvous name can be read.** -/
theorem Rendezvous.readable (h : c.Rendezvous n) : c.Readable := by
  obtain ⟨⟨a, ha⟩, b, hb⟩ := h.ends
  cases c with
  | inet x y => trivial
  | inet6 x y =>
    refine ⟨?_, ?_⟩
    · by_contra hflow
      cases (x.hostport_error hflow).symm.trans ha
    · by_contra hflow
      cases (y.hostport_error hflow).symm.trans hb
  | unix x y =>
    refine ⟨?_, ?_⟩
    · by_contra hpath
      cases (x.hostport_error (by omega)).symm.trans ha
    · by_contra hpath
      cases (y.hostport_error (by omega)).symm.trans hb

theorem ipText_pair_iff {k l k' l' : List Byte × ℕ} (hk : k.1.length = 4) (hl : l.1.length = 4)
    (hk' : k'.1.length = 4) (hl' : l'.1.length = 4) :
    ipText k ++ arrow ++ ipText l = ipText k' ++ arrow ++ ipText l' ↔ k = k' ∧ l = l' := by
  rw [ipText_arrow_iff]
  constructor
  · rintro ⟨h₁, h₂⟩
    exact ⟨(ipText_injective hk' hk h₁).symm, (ipText_injective hl' hl h₂).symm⟩
  · rintro ⟨rfl, rfl⟩
    exact ⟨rfl, rfl⟩

/-- **Two connections have one name** exactly when they are alike. -/
theorem name_eq_iff (c c' : Connection) : c.name = c'.name ↔ c.Alike c' := by
  have h6 : ∀ e : Inet6End, e.told.1.length = 4 := fun _ => rfl
  cases c with
  | inet x y =>
    cases c' with
    | inet x' y' =>
      exact ipText_pair_iff x.length_told y.length_told x'.length_told y'.length_told
    | inet6 x' y' => exact ipText_pair_iff x.length_told y.length_told (h6 x') (h6 y')
    | unix x' y' => exact ipText_arrow_iff
  | inet6 x y =>
    cases c' with
    | inet x' y' => exact ipText_pair_iff (h6 x) (h6 y) x'.length_told y'.length_told
    | inet6 x' y' => exact ipText_pair_iff (h6 x) (h6 y) (h6 x') (h6 y')
    | unix x' y' => exact ipText_arrow_iff
  | unix x y =>
    cases c' with
    | inet x' y' => exact eq_comm.trans ipText_arrow_iff
    | inet6 x' y' => exact eq_comm.trans ipText_arrow_iff
    | unix x' y' => exact Iff.rfl

end Connection

/-- **Rendezvous names.** For every set of established connections, both sides log the same text for
each and different texts are logged for different connections, if and only if all of them can be
read and no two different ones are alike. -/
theorem rendezvous_iff (opened : Set Connection) : RendezvousNames opened ↔
    (∀ c ∈ opened, c.Readable) ∧ ∀ c ∈ opened, ∀ c' ∈ opened, c ≠ c' → ¬ c.Alike c' := by
  constructor
  · rintro ⟨hnames, hdiff⟩
    have hread : ∀ c ∈ opened, c.Readable := fun c hc => (hnames c hc).elim fun n h => h.readable
    refine ⟨hread, fun c hc c' hc' hne halike => ?_⟩
    have hname := (Connection.name_eq_iff c c').2 halike
    have hr' := (hread c' hc').rendezvous
    rw [← hname] at hr'
    exact hdiff c hc c' hc' hne c.name ⟨(hread c hc).rendezvous, hr'⟩
  · rintro ⟨hread, hdiff⟩
    refine ⟨fun c hc => ⟨c.name, (hread c hc).rendezvous⟩, ?_⟩
    rintro c hc c' hc' hne n ⟨hn, hn'⟩
    refine hdiff c hc c' hc' hne ((Connection.name_eq_iff c c').1 ?_)
    exact ((hread c hc).rendezvous.unique hn).trans (hn'.unique (hread c' hc').rendezvous)

theorem length_unset : ([0, 0, 0, 0] : List Byte).length = 4 := rfl

/-- A client with the address `a` in its last byte, at port 3000. -/
def clientAt (a : Byte) : Inet6End where
  port := 3000
  flowinfo := [0, 0, 0, 0]
  addr := List.replicate 15 0 ++ [a]
  scope := [0, 0, 0, 0]
  port_lt := by decide
  length_flowinfo := length_unset
  length_addr := rfl
  length_scope := length_unset

/-- A server with the address `a` in its last byte, at port 80. -/
def serverAt (a : Byte) : Inet6End := { clientAt a with port := 80, port_lt := by decide }

/-- **Two clients of `AF_INET6`** with different addresses and one port, connected to one server: on
both sides both connections are logged as `127.0.0.1:3000->127.0.0.1:80`. -/
theorem inet6_clients_collide :
    (∀ a, (Connection.inet6 (clientAt a) (serverAt 3)).Rendezvous
      (ascii "127.0.0.1:3000->127.0.0.1:80")) ∧
    ¬ RendezvousNames {.inet6 (clientAt 1) (serverAt 3), .inet6 (clientAt 2) (serverAt 3)} := by
  have hname : ∀ a, (Connection.inet6 (clientAt a) (serverAt 3)).Rendezvous
      (ascii "127.0.0.1:3000->127.0.0.1:80") := by
    intro a
    have hread : (Connection.inet6 (clientAt a) (serverAt 3)).Readable := ⟨rfl, rfl⟩
    have htext : (Connection.inet6 (clientAt a) (serverAt 3)).name =
        ascii "127.0.0.1:3000->127.0.0.1:80" := by
      change ipText ([127, 0, 0, 1], 3000) ++ arrow ++ ipText ([127, 0, 0, 1], 80) = _
      decide +kernel
    exact htext ▸ hread.rendezvous
  refine ⟨hname, fun h => ?_⟩
  refine h.2 (.inet6 (clientAt 1) (serverAt 3)) (by simp) (.inet6 (clientAt 2) (serverAt 3))
    (by simp) ?_ _ ⟨hname 1, hname 2⟩
  intro heq
  have haddr := congrArg Inet6End.addr (Connection.inet6.inj heq).1
  exact absurd haddr (by decide)

end BorderPatrol.Trace
