import Mathlib.Algebra.Order.Ring.Int
import Mathlib.Tactic.Ring

/-!
# Conversions

`size_t` and `ssize_t` have 64 bits, `int` has 32. Times of the clock are in nanoseconds.
-/

namespace VideoStream

/-- `static_cast<size_t>` of an `int`. -/
def sizeT (n : Int) : Nat := (n % 2 ^ 64).toNat

/-- The conversion of a `ssize_t` to an `int`. -/
def toInt (n : Nat) : Int := (n : Int).bmod (2 ^ 32)

/-- `duration_cast<milliseconds>` -/
def milliseconds (nanoseconds : Int) : Int := nanoseconds.tdiv 1000000

theorem sizeT_ofNat {n : Nat} (h : n < 2 ^ 64) : sizeT n = n := by
  unfold sizeT
  omega

/-- A negative `int` becomes a huge `size_t`. -/
theorem sizeT_of_neg {n : Int} (hneg : n < 0) (hmin : -2 ^ 31 ≤ n) :
    (sizeT n : Int) = 2 ^ 64 + n := by
  unfold sizeT
  omega

theorem toInt_of_lt {n : Nat} (h : n < 2 ^ 31) : toInt n = n := by
  exact Int.bmod_eq_of_le (by omega) (by omega)

theorem milliseconds_le {m n : Int} (h : m ≤ n) : milliseconds m ≤ milliseconds n :=
  Int.tdiv_le_tdiv (by decide) h

end VideoStream
