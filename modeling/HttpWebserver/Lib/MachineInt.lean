import Mathlib.Data.Int.Basic
import Mathlib.Tactic.NormNum

/-!
# Machine integers

The conversions between the 64-bit unsigned and the 32-bit signed integers of an LP64
target, on `Nat` and `Int`: a value keeps its mathematical type and is brought back into
its range where the program converts it.

* `toInt32`: conversion to a 32-bit signed integer;
* `toSizeT`: conversion of a signed value to a 64-bit unsigned one;
* `sizeSub`: subtraction of 64-bit unsigned values, wrapping below zero.
-/

namespace MachineInt

/-- Conversion to a 32-bit signed integer: the value modulo `2 ^ 32` in `[-2 ^ 31, 2 ^ 31)`. -/
def toInt32 (x : Int) : Int := Int.bmod x (2 ^ 32)

/-- Conversion of a signed value to a 64-bit unsigned one. -/
def toSizeT (x : Int) : Nat := (x % 2 ^ 64).toNat

/-- Subtraction of 64-bit unsigned values. -/
def sizeSub (a b : Nat) : Nat := if b ≤ a then a - b else 2 ^ 64 - (b - a)

theorem toInt32_of_range {x : Int} (hlo : -2 ^ 31 ≤ x) (hhi : x < 2 ^ 31) : toInt32 x = x := by
  unfold toInt32
  rw [Int.bmod_def]
  split <;> omega

theorem toInt32_natCast {n : Nat} (h : n < 2 ^ 31) : toInt32 n = n :=
  toInt32_of_range (by omega) (by omega)

/-- A value too large for the type comes out smaller. -/
theorem toInt32_lt_of_ge {x : Int} (h : 2 ^ 31 ≤ x) : toInt32 x < x := by
  unfold toInt32
  rw [Int.bmod_def]
  split <;> omega

theorem toInt32_lt (x : Int) : toInt32 x < 2 ^ 31 := by
  unfold toInt32
  rw [Int.bmod_def]
  split <;> omega

theorem toInt32_natCast_lt {n : Nat} (h : 2 ^ 31 ≤ n) : toInt32 n < n :=
  toInt32_lt_of_ge (by omega)

theorem toInt32_natCast_le (n : Nat) : toInt32 n ≤ n := by
  rcases Nat.lt_or_ge n (2 ^ 31) with hlt | hge
  · rw [toInt32_natCast hlt]
  · exact Int.le_of_lt (toInt32_natCast_lt hge)

theorem toSizeT_natCast {n : Nat} (h : n < 2 ^ 64) : toSizeT n = n := by
  unfold toSizeT
  omega

theorem toSizeT_of_nonneg {x : Int} (hlo : 0 ≤ x) (hhi : x < 2 ^ 64) : (toSizeT x : Int) = x := by
  unfold toSizeT
  omega

/-- A negative value comes out large. -/
theorem toSizeT_of_neg {x : Int} (hlo : -2 ^ 64 ≤ x) (hhi : x < 0) :
    (toSizeT x : Int) = x + 2 ^ 64 := by
  unfold toSizeT
  omega

theorem sizeSub_of_le {a b : Nat} (h : b ≤ a) : sizeSub a b = a - b := if_pos h

end MachineInt
