import Mathlib.Data.Nat.Size
import Mathlib.Tactic.Ring

/-!
# Integers in Go

`int` and `int64` are integers of 64 bits whose arithmetic wraps around. `float64` of one is the
closest number with a significand of 53 bits, which is an integer too.
-/

namespace GoInt

/-- `strconv.Atoi`. -/
def atoi (s : String) : Option ℤ :=
  let parse (neg : Bool) (ds : List Char) : Option ℤ :=
    if ds ≠ [] ∧ ds.all Char.isDigit then
      let n : ℤ := ds.foldl (fun n c => 10 * n + (c.toNat - 48)) 0
      let v := if neg then -n else n
      if -2 ^ 63 ≤ v ∧ v < 2 ^ 63 then some v else none
    else none
  match s.toList with
  | '-' :: ds => parse true ds
  | '+' :: ds => parse false ds
  | ds => parse false ds

/-- The 64-bit integer that is left of the integer `x`. -/
def int64 (x : ℤ) : ℤ := (x + 2 ^ 63) % 2 ^ 64 - 2 ^ 63

theorem int64_lt (x : ℤ) : int64 x < 2 ^ 63 := by
  unfold int64
  omega

theorem int64_eq {x : ℤ} (hlo : -2 ^ 63 ≤ x) (hhi : x < 2 ^ 63) : int64 x = x := by
  unfold int64
  omega

/-- The multiple of `u` closest to `n`, the even one of two. -/
def roundToEven (n u : ℕ) : ℕ :=
  let q := n / u
  if 2 * (n % u) < u ∨ 2 * (n % u) = u ∧ q % 2 = 0 then q * u else (q + 1) * u

/-- `float64(x)`. -/
def float64 (x : ℤ) : ℤ := x.sign * roundToEven x.natAbs (2 ^ (x.natAbs.size - 53))

/-- Integers of 53 bits are exact. -/
theorem float64_eq {x : ℤ} (h : x.natAbs < 2 ^ 53) : float64 x = x := by
  have hunit : x.natAbs.size - 53 = 0 := Nat.sub_eq_zero_of_le (Nat.size_le.mpr h)
  have hround : roundToEven x.natAbs 1 = x.natAbs := by
    simp [roundToEven, Nat.mod_one]
  unfold float64
  rw [hunit, pow_zero, hround, Int.sign_mul_natAbs]

end GoInt
