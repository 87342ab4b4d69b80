import Mathlib.Algebra.Group.Nat.Defs
import Mathlib.Algebra.Ring.Int.Defs
import Mathlib.Tactic.Common

/-! The integer conversions and the division of C on a machine with a 32-bit `int` and a 64-bit
`long`. A value is an `Int` or a `Nat`; a conversion reduces it to the range of the target type. -/

namespace CharDriver.Base

def intMax : Nat := 2 ^ 31 - 1

/-- Conversion to `int`. -/
def toInt (x : Int) : Int := Int.bmod x (2 ^ 32)

/-- Conversion to `long`, and to `loff_t` and `ssize_t`. -/
def toLong (x : Int) : Int := Int.bmod x (2 ^ 64)

/-- Conversion to `unsigned long` and `size_t`. -/
def toULong (x : Int) : Nat := (x % 2 ^ 64).toNat

/-- The truncating division instruction on `w` bits: it traps when the divisor is zero and when the
quotient does not fit. -/
def divide (w : Nat) (a b : Int) : Option Int :=
  if b = 0 ∨ 2 ^ (w - 1) ≤ a.tdiv b then none else some (a.tdiv b)

/-- The remainder, by the same instruction. -/
def remainder (w : Nat) (a b : Int) : Option Int :=
  if b = 0 ∨ 2 ^ (w - 1) ≤ a.tdiv b then none else some (a.tmod b)

theorem toInt_natCast {n : Nat} (h : n ≤ intMax) : toInt n = n := by
  simp only [intMax] at h
  rw [toInt, Int.bmod_eq_of_le] <;> omega

/-- Conversion to `int` keeps the low 32 bits. -/
theorem toInt_emod (x : Int) : toInt x % 2 ^ 32 = x % 2 ^ 32 := Int.bmod_emod

theorem toNat_toInt_emod (n : Nat) : (toInt n % 2 ^ 32).toNat = n % 2 ^ 32 := by
  rw [toInt_emod]
  omega

theorem toLong_natCast {n : Nat} (h : n < 2 ^ 63) : toLong n = n := by
  rw [toLong, Int.bmod_eq_of_le] <;> omega

theorem toULong_natCast {n : Nat} (h : n < 2 ^ 64) : toULong n = n := by
  rw [toULong, Int.emod_eq_of_lt] <;> omega

/-- Conversion to `long` and on to `unsigned long` keeps the 64 bits. -/
theorem toULong_toLong_natCast {n : Nat} (h : n < 2 ^ 64) : toULong (toLong n) = n := by
  have hmod : toLong n % 2 ^ 64 = (n : Int) % 2 ^ 64 := Int.bmod_emod
  rw [toULong, hmod, Int.emod_eq_of_lt] <;> omega

theorem not_traps {w a b : Nat} (hb : 0 < b) (hfit : a / b < 2 ^ (w - 1)) :
    ¬((b : Int) = 0 ∨ 2 ^ (w - 1) ≤ (a : Int).tdiv b) := by
  rw [← Int.ofNat_tdiv, not_or, Int.not_le]
  exact ⟨by omega, by exact_mod_cast hfit⟩

theorem divide_natCast {w a b : Nat} (hb : 0 < b) (hfit : a / b < 2 ^ (w - 1)) :
    divide w a b = some ((a / b : Nat) : Int) := by
  rw [divide, if_neg (not_traps hb hfit), ← Int.ofNat_tdiv]

theorem remainder_natCast {w a b : Nat} (hb : 0 < b) (hfit : a / b < 2 ^ (w - 1)) :
    remainder w a b = some ((a % b : Nat) : Int) := by
  rw [remainder, if_neg (not_traps hb hfit), ← Int.ofNat_tmod]

end CharDriver.Base
