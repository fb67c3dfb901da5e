import BorderPatrol.Basic

/-!
# Log records

`fmt.h` and `fmt.c`: a log entry as the tracer freezes it into bytes and as the readers of the log
thaw it. A record in memory is the header `logentry_frozen_t` of 32 bytes, the integer arguments and
the string, whose numbers are in the header. A header is read from exactly the places where it lies
(`thaw1_eq_iff`), a record thaws to its entry (`thaw2_record`) and the entry freezes to the record
(`freeze_record`).
-/

namespace BorderPatrol.Logd

open Foundations

/-- `PIPE_BUF` -/
def pipeBuf : ℕ := 4096

/-- `sizeof(logentry_frozen_t)` -/
def frozenLen : ℕ := 32

/-- `logentry_frozen_t` -/
structure LogentryFrozen where
  tid : UInt64
  pid : UInt32
  cycleHigh : UInt32
  cycleLow : UInt32
  sc : Int16
  rv : Int16
  nm : Byte
  argLen : Int8
  strLen : Int16
  padding : {l : List Byte // l.length = 4}
  deriving DecidableEq, Repr

/-- `logentry_thaw_t`: a header, the string with its zero when the pointer was set, and the three
arguments. -/
structure LogentryThaw where
  fz : LogentryFrozen
  str : Option (List Byte)
  arg : List Int32
  deriving DecidableEq, Repr

/-! ## Words in memory -/

/-- The bytes of an `int`. -/
def int32Bytes (x : Int32) : List Byte := toLE 4 x.toUInt32.toNat

/-- The bytes of a `short`. -/
def int16Bytes (x : Int16) : List Byte := toLE 2 x.toUInt16.toNat

/-- The bytes of a `uint32_t`. -/
def uint32Bytes (x : UInt32) : List Byte := toLE 4 x.toNat

/-- The bytes of a `uint64_t`. -/
def uint64Bytes (x : UInt64) : List Byte := toLE 8 x.toNat

@[simp] theorem length_int32Bytes (x : Int32) : (int32Bytes x).length = 4 := length_toLE ..

@[simp] theorem length_int16Bytes (x : Int16) : (int16Bytes x).length = 2 := length_toLE ..

@[simp] theorem length_uint32Bytes (x : UInt32) : (uint32Bytes x).length = 4 := length_toLE ..

@[simp] theorem length_uint64Bytes (x : UInt64) : (uint64Bytes x).length = 8 := length_toLE ..

def int32At (m : Mem Byte) (a : ℕ) : Int32 := (UInt32.ofNat (ofLE (m.slice a 4))).toInt32

def int16At (m : Mem Byte) (a : ℕ) : Int16 := (UInt16.ofNat (ofLE (m.slice a 2))).toInt16

def uint32At (m : Mem Byte) (a : ℕ) : UInt32 := UInt32.ofNat (ofLE (m.slice a 4))

def uint64At (m : Mem Byte) (a : ℕ) : UInt64 := UInt64.ofNat (ofLE (m.slice a 8))

variable (m : Mem Byte) (a : ℕ)

@[simp] theorem int32Bytes_at : int32Bytes (int32At m a) = m.slice a 4 := by
  rw [int32Bytes, int32At, UInt32.toUInt32_toInt32, toLE_uint32 (by simp)]

@[simp] theorem int16Bytes_at : int16Bytes (int16At m a) = m.slice a 2 := by
  rw [int16Bytes, int16At, UInt16.toUInt16_toInt16, toLE_uint16 (by simp)]

@[simp] theorem uint32Bytes_at : uint32Bytes (uint32At m a) = m.slice a 4 :=
  toLE_uint32 (by simp)

@[simp] theorem uint64Bytes_at : uint64Bytes (uint64At m a) = m.slice a 8 :=
  toLE_uint64 (by simp)

theorem int32Bytes_inj {x y : Int32} (h : int32Bytes x = int32Bytes y) : x = y := by
  have := toLE_inj x.toUInt32.toNat_lt y.toUInt32.toNat_lt h
  rw [← x.toInt32_toUInt32, UInt32.toNat_inj.1 this, y.toInt32_toUInt32]

theorem int16Bytes_inj {x y : Int16} (h : int16Bytes x = int16Bytes y) : x = y := by
  have := toLE_inj x.toUInt16.toNat_lt y.toUInt16.toNat_lt h
  rw [← x.toInt16_toUInt16, UInt16.toNat_inj.1 this, y.toInt16_toUInt16]

theorem uint32Bytes_inj {x y : UInt32} (h : uint32Bytes x = uint32Bytes y) : x = y :=
  UInt32.toNat_inj.1 (toLE_inj x.toNat_lt y.toNat_lt h)

theorem uint64Bytes_inj {x y : UInt64} (h : uint64Bytes x = uint64Bytes y) : x = y :=
  UInt64.toNat_inj.1 (toLE_inj x.toNat_lt y.toNat_lt h)

/-! ## The header -/

/-- A header in memory. -/
def LogentryFrozen.bytes (fz : LogentryFrozen) : List Byte :=
  uint64Bytes fz.tid ++ uint32Bytes fz.pid ++ uint32Bytes fz.cycleHigh ++ uint32Bytes fz.cycleLow ++
    int16Bytes fz.sc ++ int16Bytes fz.rv ++ [fz.nm] ++ [fz.argLen.toUInt8] ++
    int16Bytes fz.strLen ++ fz.padding.1

/-- `thaw1`: the header at address `a`. -/
def thaw1 (m : Mem Byte) (a : ℕ) : LogentryFrozen where
  tid := uint64At m a
  pid := uint32At m (a + 8)
  cycleHigh := uint32At m (a + 12)
  cycleLow := uint32At m (a + 16)
  sc := int16At m (a + 20)
  rv := int16At m (a + 22)
  nm := m (a + 24)
  argLen := (m (a + 25)).toInt8
  strLen := int16At m (a + 26)
  padding := ⟨m.slice (a + 28) 4, Mem.length_slice ..⟩

@[simp] theorem LogentryFrozen.length_bytes (fz : LogentryFrozen) :
    fz.bytes.length = frozenLen := by
  simp [LogentryFrozen.bytes, frozenLen, fz.padding.2]

/-- The fields of a header are next to each other. -/
theorem slice_fields : m.slice a frozenLen =
    m.slice a 8 ++ m.slice (a + 8) 4 ++ m.slice (a + 12) 4 ++ m.slice (a + 16) 4 ++
      m.slice (a + 20) 2 ++ m.slice (a + 22) 2 ++ m.slice (a + 24) 1 ++ m.slice (a + 25) 1 ++
      m.slice (a + 26) 2 ++ m.slice (a + 28) 4 := by
  rw [show frozenLen = 28 + 4 from rfl, Mem.slice_add m a 28 4, Mem.slice_add m a 26 2,
    Mem.slice_add m a 25 1, Mem.slice_add m a 24 1, Mem.slice_add m a 22 2, Mem.slice_add m a 20 2,
    Mem.slice_add m a 16 4, Mem.slice_add m a 12 4, Mem.slice_add m a 8 4]

/-- The bytes of the header read are the bytes in memory. -/
theorem thaw1_bytes : (thaw1 m a).bytes = m.slice a frozenLen := by
  rw [slice_fields]
  simp only [LogentryFrozen.bytes, thaw1, uint64Bytes_at, uint32Bytes_at, int16Bytes_at,
    UInt8.toUInt8_toInt8]
  rfl

theorem LogentryFrozen.bytes_inj {x y : LogentryFrozen} (h : x.bytes = y.bytes) : x = y := by
  obtain ⟨h, h₉⟩ := List.append_inj h (by simp)
  obtain ⟨h, h₈⟩ := List.append_inj h (by simp)
  obtain ⟨h, h₇⟩ := List.append_inj h (by simp)
  obtain ⟨h, h₆⟩ := List.append_inj h (by simp)
  obtain ⟨h, h₅⟩ := List.append_inj h (by simp)
  obtain ⟨h, h₄⟩ := List.append_inj h (by simp)
  obtain ⟨h, h₃⟩ := List.append_inj h (by simp)
  obtain ⟨h, h₂⟩ := List.append_inj h (by simp)
  obtain ⟨h₀, h₁⟩ := List.append_inj h (by simp)
  rw [List.singleton_inj] at h₆ h₇
  have h₇ : x.argLen = y.argLen := by
    rw [← x.argLen.toInt8_toUInt8, h₇, y.argLen.toInt8_toUInt8]
  cases x
  cases y
  simp only [LogentryFrozen.mk.injEq]
  exact ⟨uint64Bytes_inj h₀, uint32Bytes_inj h₁, uint32Bytes_inj h₂, uint32Bytes_inj h₃,
    int16Bytes_inj h₄, int16Bytes_inj h₅, h₆, h₇, int16Bytes_inj h₈,
    Subtype.ext h₉⟩

/-- A header is read from exactly the places where it lies. -/
theorem thaw1_eq_iff {fz : LogentryFrozen} : thaw1 m a = fz ↔ m.slice a frozenLen = fz.bytes := by
  rw [← thaw1_bytes]
  exact ⟨fun h => by rw [h], LogentryFrozen.bytes_inj⟩

/-! ## Whole records -/

/-- `predict_size` -/
def predictSize (argLen strLen : ℤ) : ℤ := toInt (frozenLen + argLen * 4 + strLen)

/-- `frozen_size` -/
def frozenSize (fz : LogentryFrozen) : ℤ := predictSize fz.argLen.toInt fz.strLen.toInt

/-- `thaw2`: the arguments and the string at address `a`, behind the header `le`. -/
def thaw2 (m : Mem Byte) (a : ℕ) (le : LogentryFrozen) (restSz : ℤ) :
    Except Fault LogentryThaw := do
  let slen := le.strLen.toInt
  let n := le.argLen.toInt
  -- `arg` has three elements
  inBounds (n ≤ 3)
  let arg := (List.range n.toNat).map fun i => int32At m (a + 4 * i)
  let cur := a + 4 * n.toNat
  -- a negative length is a huge one for `memcpy`
  inBounds (0 ≤ slen)
  let str := if slen = 0 then none else some (m.slice cur slen.toNat ++ [0])
  cAssert (restSz = cur + slen - a)
  return ⟨le, str, arg ++ List.replicate (3 - n.toNat) 0⟩

/-- The bytes of the string that `freeze` copies. -/
def frozenStr (str : Option (List Byte)) (slen : ℤ) : Except Fault (List Byte) :=
  if slen = 0 then .ok []
  else
    match str with
    | none => .error .nullPointer
    | some str => do
      inBounds (0 ≤ slen ∧ slen ≤ str.length)
      return str.take slen.toNat

/-- `freeze`: what is stored in a buffer of `size` bytes. -/
def freeze (le : LogentryThaw) (size : ℤ) : Except Fault (List Byte) := do
  let n := le.fz.argLen.toInt
  let slen := le.fz.strLen.toInt
  inBounds (n ≤ 3)
  let head := le.fz.bytes ++ (le.arg.take n.toNat).flatMap int32Bytes
  let str ← frozenStr le.str slen
  cAssert (size = (head ++ str).length)
  return head ++ str

/-- The string of an entry, empty when there is none, as `output_le` prints it. -/
def LogentryThaw.string (le : LogentryThaw) : List Byte :=
  if 0 < le.fz.strLen.toInt then cstr (le.str.getD []) else []

/-- A header with the numbers a tracer writes: at most three arguments, and a string. -/
structure LogentryFrozen.Wf (fz : LogentryFrozen) : Prop where
  arg : 0 ≤ fz.argLen.toInt ∧ fz.argLen.toInt ≤ 3
  str : 0 ≤ fz.strLen.toInt

instance (fz : LogentryFrozen) : Decidable fz.Wf :=
  decidable_of_iff ((0 ≤ fz.argLen.toInt ∧ fz.argLen.toInt ≤ 3) ∧ 0 ≤ fz.strLen.toInt)
    ⟨fun h => ⟨h.1, h.2⟩, fun h => ⟨h.1, h.2⟩⟩

/-- The number of bytes behind a header. -/
def LogentryFrozen.restLen (fz : LogentryFrozen) : ℕ :=
  4 * fz.argLen.toInt.toNat + fz.strLen.toInt.toNat

theorem LogentryFrozen.Wf.restLen_lt {fz : LogentryFrozen} (h : fz.Wf) :
    fz.restLen < 2 ^ 15 + 12 := by
  have h₁ := h.arg
  have h₂ := fz.strLen.toInt_lt
  unfold restLen
  omega

theorem frozenSize_of_wf {fz : LogentryFrozen} (h : fz.Wf) :
    frozenSize fz = frozenLen + fz.restLen := by
  have h₁ := h.arg
  have h₂ := h.str
  have h₃ := fz.strLen.toInt_lt
  rw [frozenSize, predictSize, LogentryFrozen.restLen, frozenLen, toInt_of_lt] <;> omega

/-- A well-formed record: a header, at most three arguments and a string, whose numbers the header
has right. -/
structure Record where
  fz : LogentryFrozen
  args : List Int32
  str : List Byte
  args_le : args.length ≤ 3
  argLen : fz.argLen.toInt = args.length
  strLen : fz.strLen.toInt = str.length

namespace Record

variable (r : Record)

/-- What is behind the header. -/
def rest : List Byte := r.args.flatMap int32Bytes ++ r.str

/-- A record in memory, a file or a stream. -/
def bytes : List Byte := r.fz.bytes ++ r.rest

/-- The log entry that a record is. -/
def entry : LogentryThaw where
  fz := r.fz
  str := if r.str = [] then none else some (r.str ++ [0])
  arg := r.args ++ List.replicate (3 - r.args.length) 0

theorem wf : r.fz.Wf where
  arg := by
    have := r.argLen
    have := r.args_le
    omega
  str := by
    have := r.strLen
    omega

theorem length_args_bytes (l : List Int32) : (l.flatMap int32Bytes).length = 4 * l.length := by
  induction l with
  | nil => rfl
  | cons x l ih =>
    rw [List.flatMap_cons, List.length_append, ih, length_int32Bytes, List.length_cons]
    omega

theorem restLen_eq : r.fz.restLen = 4 * r.args.length + r.str.length := by
  rw [LogentryFrozen.restLen, r.argLen, r.strLen, Int.toNat_natCast, Int.toNat_natCast]

@[simp] theorem length_rest : r.rest.length = r.fz.restLen := by
  rw [rest, List.length_append, length_args_bytes, r.restLen_eq]

theorem length_bytes : r.bytes.length = frozenLen + r.fz.restLen := by
  rw [bytes, List.length_append, LogentryFrozen.length_bytes, length_rest]

theorem frozenSize_eq : frozenSize r.fz = r.bytes.length := by
  rw [frozenSize_of_wf r.wf, length_bytes]
  push_cast
  rfl

/-- The same record at another time. -/
def stamp (high low : UInt32) : Record :=
  { r with fz := { r.fz with cycleHigh := high, cycleLow := low } }

end Record

/-- The arguments that `thaw2` reads. -/
def argsAt (m : Mem Byte) (a n : ℕ) : List Int32 :=
  (List.range n).map fun i => int32At m (a + 4 * i)

theorem argsAt_bytes (n : ℕ) : (argsAt m a n).flatMap int32Bytes = m.slice a (4 * n) := by
  induction n with
  | zero => rfl
  | succ n ih =>
    rw [argsAt, List.range_succ, List.map_append, List.flatMap_append, ← argsAt, ih,
      Nat.mul_succ, Mem.slice_add]
    simp

theorem args_bytes_inj {l l' : List Int32} (hlen : l.length = l'.length)
    (h : l.flatMap int32Bytes = l'.flatMap int32Bytes) : l = l' := by
  induction l generalizing l' with
  | nil => exact (List.eq_nil_of_length_eq_zero hlen.symm).symm
  | cons x l ih =>
    obtain ⟨y, l', rfl⟩ := List.exists_cons_of_length_eq_add_one hlen.symm
    rw [List.flatMap_cons, List.flatMap_cons] at h
    obtain ⟨hx, hl⟩ := List.append_inj h (by simp)
    rw [int32Bytes_inj hx, ih (by simpa using hlen) hl]

variable {m a}

theorem slice_rest {r : Record} (h : m.slice a r.fz.restLen = r.rest) :
    argsAt m a r.args.length = r.args ∧ m.slice (a + 4 * r.args.length) r.str.length = r.str := by
  rw [r.restLen_eq, Mem.slice_add, Record.rest] at h
  obtain ⟨hargs, hstr⟩ := List.append_inj h (by rw [Mem.length_slice, Record.length_args_bytes])
  rw [← argsAt_bytes] at hargs
  exact ⟨args_bytes_inj (by simp [argsAt]) hargs, hstr⟩

/-- The record in memory behind a well-formed header. -/
def recordAt (m : Mem Byte) (a : ℕ) (h : (thaw1 m a).Wf) : Record where
  fz := thaw1 m a
  args := argsAt m (a + frozenLen) (thaw1 m a).argLen.toInt.toNat
  str := m.slice (a + frozenLen + 4 * (thaw1 m a).argLen.toInt.toNat)
    (thaw1 m a).strLen.toInt.toNat
  args_le := by
    have := h.arg
    simp only [argsAt, List.length_map, List.length_range]
    omega
  argLen := by
    have := h.arg
    simp only [argsAt, List.length_map, List.length_range]
    omega
  strLen := by
    have := h.str
    rw [Mem.length_slice]
    omega

theorem recordAt_bytes (h : (thaw1 m a).Wf) :
    (recordAt m a h).bytes = m.slice a (frozenLen + (thaw1 m a).restLen) := by
  rw [Record.bytes, Record.rest, recordAt, argsAt_bytes, thaw1_bytes, LogentryFrozen.restLen,
    Mem.slice_add m a, Mem.slice_add]

/-- **Thawing** a record gives its entry. -/
theorem thaw2_record {r : Record} (h : m.slice a r.fz.restLen = r.rest) :
    thaw2 m a r.fz r.fz.restLen = .ok r.entry := by
  obtain ⟨hargs, hstr⟩ := slice_rest h
  have h₁ := r.wf.arg
  have h₂ := r.wf.str
  have hcur : (r.fz.restLen : ℤ) = (a + 4 * r.args.length : ℕ) + r.str.length - a := by
    rw [r.restLen_eq]
    push_cast
    omega
  rw [r.argLen] at h₁
  rw [r.strLen] at h₂
  rw [argsAt] at hargs
  simp only [thaw2, r.argLen, r.strLen, Int.toNat_natCast, inBounds_of h₁.2, inBounds_of h₂,
    cAssert_of hcur, hargs, hstr, Record.entry, Int.natCast_eq_zero, List.length_eq_zero_iff]
  rfl

/-- `thaw2` accepts no other header. -/
theorem wf_of_thaw2 (fz : LogentryFrozen) :
    Post (thaw2 m a fz (fz.argLen.toInt * 4 + fz.strLen.toInt)) (fun _ => fz.Wf)
      (fun _ => True) := by
  refine (inBounds_post fun _ => trivial).bind fun _ h₁ => ?_
  refine (inBounds_post fun _ => trivial).bind fun _ h₂ => ?_
  refine (cAssert_post fun _ => trivial).bind fun _ h₃ => ?_
  refine ⟨⟨?_, h₁⟩, h₂⟩
  push_cast at h₃
  omega

theorem frozenStr_record (r : Record) : frozenStr r.entry.str r.str.length = .ok r.str := by
  by_cases h : r.str = []
  · simp [frozenStr, h]
  · have h₀ : ¬ ((r.str.length : ℤ) = 0) := by simpa using h
    have hle : 0 ≤ (r.str.length : ℤ) ∧ (r.str.length : ℤ) ≤ (r.str ++ [0]).length := by
      rw [List.length_append]
      omega
    simp only [frozenStr, h₀, if_false, Record.entry, h, inBounds_of hle, Int.toNat_natCast]
    change Except.ok _ = _
    rw [List.take_left]

/-- **Freezing** the entry of a record gives its bytes. -/
theorem freeze_record (r : Record) : freeze r.entry r.bytes.length = .ok r.bytes := by
  have h₁ := r.wf.arg
  have hbytes : r.fz.bytes ++ r.args.flatMap int32Bytes ++ r.str = r.bytes := by
    rw [List.append_assoc]
    rfl
  have htake : r.entry.arg.take r.args.length = r.args := List.take_left
  rw [r.argLen] at h₁
  have hfz : r.entry.fz = r.fz := rfl
  simp only [freeze, hfz, r.argLen, r.strLen, Int.toNat_natCast, inBounds_of h₁.2, htake,
    frozenStr_record, bind, Except.bind, hbytes, cAssert_of]
  rfl

end BorderPatrol.Logd
