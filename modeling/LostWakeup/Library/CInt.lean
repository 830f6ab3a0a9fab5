/-
# LostWakeup.Library.CInt — C integers, as wrapped numbers.

A C `int` is modelled as an `Int` that every arithmetic operation brings back into
`[-2^31, 2^31)`, which is what the compiled code does; a `uint64` is a `Nat` below `2^64`.
-/
import Mathlib.Algebra.Order.Ring.Int

namespace LostWakeup.Library

/-- The value an `int` holds after the exact result `x` has been stored in it. -/
def int32 (x : Int) : Int := x.bmod (2 ^ 32)

def INT_MAX : Int := 2 ^ 31 - 1

def INT_MIN : Int := -2 ^ 31

/-- The `int` expression `1 << n` as it is compiled for RV64: `sllw` uses the low five bits of the
shift amount and sign-extends a 32-bit result. -/
def int_shl_one (n : Nat) : Int := int32 (2 ^ (n % 32))

/-- An `int` converted to `uint64`. -/
def toUint64 (x : Int) : Nat := (x % 2 ^ 64).toNat

/-! ## `uint64` -/

def add64 (a b : Nat) : Nat := (a + b) % 2 ^ 64

def sub64 (a b : Nat) : Nat := (a + (2 ^ 64 - b)) % 2 ^ 64

/-- `(sz + unit - 1) & ~(unit - 1)` for a power of two `unit`. -/
def roundUp (unit sz : Nat) : Nat := (sz + unit - 1) % 2 ^ 64 / unit * unit

theorem int32_of_range {x : Int} (hlo : INT_MIN ≤ x) (hhi : x ≤ INT_MAX) : int32 x = x := by
  simp only [INT_MIN, INT_MAX] at hlo hhi
  simp only [int32, Int.bmod]
  omega

theorem int32_le (x : Int) : int32 x ≤ INT_MAX := by
  simp only [int32, INT_MAX, Int.bmod]
  omega

theorem int32_add (x y : Int) : int32 (int32 x + y) = int32 (x + y) := Int.bmod_add_bmod

end LostWakeup.Library
