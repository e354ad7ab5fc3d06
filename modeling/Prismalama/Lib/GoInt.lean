import Mathlib.Tactic

/-!
# Go's fixed-width integers

An `int32` is an integer in `[-2^31, 2^31)`; its arithmetic wraps. `i32`
reduces an exact result to the value the machine keeps, and `i32_eq` says that
nothing happens to a result that already fits.
-/

namespace Prismalama.Lib

/-- `math.MaxInt32`. -/
def maxInt32 : Int := 2147483647

/-- `math.MaxInt` on a 64-bit machine, as a bound on lengths and indices. -/
def maxInt : Nat := 9223372036854775807

/-- The `int32` that an exact integer result wraps to. -/
def i32 (x : Int) : Int := x.bmod 4294967296

/-- A result in range is kept as it is. -/
theorem i32_eq {x : Int} (hlo : -2147483648 ≤ x) (hhi : x ≤ maxInt32) : i32 x = x := by
  unfold i32 maxInt32 at *
  apply Int.bmod_eq_of_le <;> omega

/-- Only the last reduction of a difference counts. -/
theorem i32_sub (x y : Int) : i32 (i32 x - y) = i32 (x - y) := by
  unfold i32
  exact Int.bmod_sub_bmod

/-- Only the last reduction of a sum counts. -/
theorem i32_add (x y : Int) : i32 (x + i32 y) = i32 (x + y) := by
  unfold i32
  exact Int.add_bmod_bmod

theorem i32_range (x : Int) : -2147483648 ≤ i32 x ∧ i32 x ≤ maxInt32 := by
  unfold i32 maxInt32
  constructor
  · have := Int.le_bmod (x := x) (m := 4294967296) (by norm_num)
    simpa using this
  · have := Int.bmod_lt (x := x) (m := 4294967296) (by norm_num)
    simp at this
    omega

end Prismalama.Lib
