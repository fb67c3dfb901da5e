import BorderPatrol.Foundations.CString
import BorderPatrol.Foundations.Endian
import BorderPatrol.Foundations.Memory
import BorderPatrol.Foundations.Post

/-!
# What the C sources take for granted

Bytes, the ways a run of the traced process or of a tool can end abnormally, and the conversions
between the integer types of the C sources, which run on x86 Linux: `char` is signed and has 8
bits, `short` 16, `int` 32, integers are little-endian.
-/

namespace BorderPatrol

open Foundations

/-- A byte of memory, a file or a stream. -/
abbrev Byte := UInt8

/-- What ends a C program, or takes it outside its defined behaviour. -/
inductive Fault
  /-- an `assert` failed -/
  | assertion
  /-- memory outside the buffer was read or written -/
  | overrun
  /-- a null pointer was followed -/
  | nullPointer
  /-- the program called `exit` -/
  | exit (status : ℤ)
  /-- a loop did not end within the bound given to its model -/
  | fuel
  deriving DecidableEq, Repr

/-- No error is excluded. -/
abbrev AnyFault : Fault → Prop := fun _ => True

/-- `assert` -/
def cAssert (p : Prop) [Decidable p] : Except Fault Unit := if p then .ok () else .error .assertion

/-- An access stays inside its buffer. -/
def inBounds (p : Prop) [Decidable p] : Except Fault Unit := if p then .ok () else .error .overrun

@[simp] theorem cAssert_of {p : Prop} [Decidable p] (h : p) : cAssert p = .ok () := if_pos h

@[simp] theorem inBounds_of {p : Prop} [Decidable p] (h : p) : inBounds p = .ok () := if_pos h

/-- The access of a run that goes on. -/
theorem of_inBounds {p : Prop} [Decidable p] {u : Unit} (h : inBounds p = .ok u) : p := by
  by_contra hp
  rw [inBounds, if_neg hp] at h
  cases h

theorem cAssert_post {p : Prop} [Decidable p] {E : Fault → Prop} (hE : ¬p → E .assertion) :
    Post (cAssert p) (fun _ => p) E := by
  unfold cAssert
  split
  · assumption
  · exact hE ‹_›

theorem inBounds_post {p : Prop} [Decidable p] {E : Fault → Prop} (hE : ¬p → E .overrun) :
    Post (inBounds p) (fun _ => p) E := by
  unfold inBounds
  split
  · assumption
  · exact hE ‹_›

theorem anyFault_post {α : Type} (x : Except Fault α) : Post x (fun _ => True) AnyFault := by
  unfold Post
  split <;> trivial

/-- Conversion to `int`. -/
def toInt (x : ℤ) : ℤ := x.bmod (2 ^ 32)

/-- Subtraction of `unsigned int`. -/
def usub (x y : ℕ) : ℕ := (x + 2 ^ 32 - y) % 2 ^ 32

/-- The value of a `char`. -/
def toChar (b : Byte) : ℤ := (b.toNat : ℤ).bmod (2 ^ 8)

/-- The four bytes of an `int` or `unsigned int` in memory. -/
def intBytes (x : ℤ) : List Byte := toLE 4 (x % 2 ^ 32).toNat

@[simp] theorem length_intBytes (x : ℤ) : (intBytes x).length = 4 := length_toLE ..

theorem toInt_of_lt {x : ℤ} (h₀ : -2 ^ 31 ≤ x) (h : x < 2 ^ 31) : toInt x = x := by
  unfold toInt
  rw [Int.bmod_def]
  split <;> omega

theorem toInt_natCast_lt {n : ℕ} (h : n < 2 ^ 31) : toInt n = n := toInt_of_lt (by omega) (by omega)

/-- Incrementing a counter that may have run over. -/
theorem toInt_succ (n : ℕ) : toInt (toInt n + 1) = toInt (n + 1 : ℕ) := by
  rw [toInt, toInt, toInt, Int.bmod_add_bmod, Nat.cast_succ]

theorem usub_of_le {x y : ℕ} (h : y ≤ x) (hx : x < 2 ^ 32) : usub x y = x - y := by
  unfold usub
  omega

/-- The characters of a C string literal. -/
def ascii (s : String) : List Byte := s.toList.map fun c => UInt8.ofNat c.toNat

/-- What the conversion `%d` prints. -/
def decimal (x : ℤ) : List Byte := ascii (toString x)

theorem decimal_natCast (n : ℕ) :
    decimal n = (Nat.toDigits 10 n).map fun c => UInt8.ofNat c.toNat := by
  rw [decimal, ascii, show toString (n : ℤ) = toString n from rfl, Nat.toString_eq_repr,
    Nat.toList_repr]

theorem toNat_of_mem_toDigits {n : ℕ} {c : Char} (h : c ∈ Nat.toDigits 10 n) :
    48 ≤ c.toNat ∧ c.toNat ≤ 57 := by
  have hd := Nat.isDigit_of_mem_toDigits (by decide) (by decide) h
  rw [Char.isDigit_iff_toNat] at hd
  simpa using hd

/-- The decimal text of a number has digits only. -/
theorem decimal_mem {n : ℕ} {b : Byte} (h : b ∈ decimal n) : 48 ≤ b.toNat ∧ b.toNat ≤ 57 := by
  rw [decimal_natCast, List.mem_map] at h
  obtain ⟨c, hc, rfl⟩ := h
  have hd := toNat_of_mem_toDigits hc
  rw [UInt8.toNat_ofNat']
  omega

/-- Different numbers have different decimal texts. -/
theorem decimal_injective {m n : ℕ} (h : decimal m = decimal n) : m = n := by
  have hback : ∀ k : ℕ, (decimal k).map (fun b : Byte => Char.ofNat b.toNat) =
      Nat.toDigits 10 k := by
    intro k
    rw [decimal_natCast, List.map_map]
    refine (List.map_congr_left fun c hc => ?_).trans (List.map_id _)
    have hlt : c.toNat < 256 := by
      have := toNat_of_mem_toDigits hc
      omega
    simp only [Function.comp, UInt8.toNat_ofNat', Nat.mod_eq_of_lt hlt, Char.ofNat_toNat, id]
  have hdigits : Nat.toDigits 10 m = Nat.toDigits 10 n := by rw [← hback, h, hback]
  simpa using congrArg (fun l => Nat.ofDigitChars 10 l 0) hdigits

theorem length_decimal_le {n k : ℕ} (hk : 0 < k) (h : n < 10 ^ k) : (decimal n).length ≤ k := by
  rw [decimal_natCast, List.length_map]
  exact (Nat.length_toDigits_le_iff (by decide) hk).2 h

theorem ascii_append (s t : String) : ascii (s ++ t) = ascii s ++ ascii t := by
  simp [ascii]

theorem decimal_negSucc (n : ℕ) : decimal (Int.negSucc n) = 45 :: decimal (n + 1 : ℕ) := by
  have h : toString (Int.negSucc n) = "-" ++ toString ((n + 1 : ℕ) : ℤ) := rfl
  rw [decimal, h, ascii_append]
  rfl

theorem isdigit_of_mem_decimal {n : ℕ} {b : Byte} (h : b ∈ decimal n) : isdigit b = true := by
  have hb := decimal_mem h
  simp only [isdigit, Bool.and_eq_true, decide_eq_true_eq, UInt8.le_iff_toNat_le]
  exact hb

/-- The number that the text of a number stands for. -/
theorem leadingNat_decimal (n : ℕ) : leadingNat (decimal n) = n := by
  have hall : (decimal n).takeWhile isdigit = decimal n :=
    List.takeWhile_eq_self_iff.2 fun b hb => isdigit_of_mem_decimal hb
  have hback : Nat.ofDigitChars 10 (Nat.toDigits 10 n) 0 = n := Nat.ofDigitChars_ten_toDigits
  rw [Nat.ofDigitChars_eq_foldl] at hback
  rw [leadingNat, hall, decimal_natCast, List.foldl_map]
  refine (List.foldl_ext _ _ _ fun k c hc => ?_).trans hback
  have hdigit := toNat_of_mem_toDigits hc
  rw [UInt8.toNat_ofNat', Nat.mod_eq_of_lt (by omega)]
  rfl

/-- The text of a number has no separators and no backslash. -/
theorem notMem_decimal (x : ℤ) {b : Byte} (hb : isdigit b = false) (h : b ≠ 45) :
    b ∉ decimal x := by
  have hnat : ∀ n : ℕ, b ∉ decimal n := by
    intro n hmem
    rw [isdigit_of_mem_decimal hmem] at hb
    cases hb
  cases x with
  | ofNat n => exact hnat n
  | negSucc n =>
    rw [decimal_negSucc, List.mem_cons, not_or]
    exact ⟨h, hnat (n + 1)⟩

/-- It does not begin with a space. -/
theorem dropWhile_isspace_decimal (x : ℤ) : (decimal x).dropWhile isspace = decimal x := by
  rw [List.dropWhile_eq_self_iff]
  intro hlen
  have hmem := List.getElem_mem hlen
  generalize (decimal x)[0] = b at hmem ⊢
  intro hsp
  simp only [isspace, Bool.or_eq_true, Bool.and_eq_true, decide_eq_true_eq,
    UInt8.le_iff_toNat_le, ← UInt8.toNat_inj] at hsp
  simp only [UInt8.reduceToNat] at hsp
  have hdigit : isdigit b = false := by
    simp only [isdigit, Bool.and_eq_false_iff, decide_eq_false_iff_not, UInt8.le_iff_toNat_le,
      UInt8.reduceToNat]
    omega
  have hne : b ≠ 45 := by
    rintro rfl
    simp at hsp
  exact notMem_decimal x hdigit hne hmem

/-- The C string at the start of a memory: the bytes before the first zero. -/
def cstr (m : List Byte) : List Byte := m.takeWhile (· ≠ 0)

/-- The string `snprintf(tmp, n, ...)` leaves in `tmp` when the formatted text is `t`. -/
def snprintf (n : ℕ) (t : List Byte) : List Byte := cstr (t.take (n - 1))

/-- A byte of memory that lies in its first `n` bytes. -/
theorem getD_take {m : List Byte} {i n : ℕ} (h : i < n) : (m.take n).getD i 0 = m.getD i 0 := by
  simp [List.getD, h]

end BorderPatrol
