import Mathlib.Tactic.Linarith
import PortfolioEngine.Lib.ExactFloat

/-!
# Floats with a range

An operation of IEEE 754 is the exact one with its result rounded to the format. What matters here
of a rounding is where it leaves the format: from `limit` on it gives an infinity, and up to `tiny`
a positive value becomes zero.
-/

namespace Flt

variable {K : Type*}

/-- A result, rounded; an infinity and NaN stay what they are. -/
def rounded (round : K → Flt K) : Flt K → Flt K
  | fin x => round x
  | x => x

theorem rounded_fin (x : Flt K) : rounded fin x = x := by
  cases x <;> rfl

variable [Field K] [LinearOrder K]

/-- The rounding of a format with the range from `tiny` to `limit`, to the nearest value, so that
a value is less than doubled. -/
structure Range (round : K → Flt K) (tiny limit : K) : Prop where
  tiny_lt_one : tiny < 1
  one_lt_limit : 1 < limit
  round_fin : ∀ x, |x| < limit → ∃ y, round x = fin y ∧ |y| < limit ∧ |y| ≤ 2 * |x|
  round_inf : ∀ x, limit ≤ x → round x = inf
  round_pos : ∀ x, tiny < x → x < limit → ∃ y, round x = fin y ∧ 0 < y
  round_tiny : ∀ x, 0 ≤ x → x ≤ tiny → round x = fin 0
  round_round : ∀ x y, round x = fin y → round y = fin y

namespace Range

variable {round : K → Flt K} {tiny limit : K} (h : Range round tiny limit)

include h

theorem lt_limit {x : K} (hx : round x = fin x) : x < limit := by
  by_contra hle
  rw [h.round_inf x (not_lt.mp hle)] at hx
  cases hx

variable [IsStrictOrderedRing K]

theorem round_nonneg {x : K} (hx : 0 ≤ x) (hlt : x < limit) :
    ∃ y, round x = fin y ∧ 0 ≤ y ∧ y < limit := by
  obtain ⟨y, hy, hylt, -⟩ := h.round_fin x ((abs_of_nonneg hx).trans_lt hlt)
  refine ⟨y, hy, ?_, (le_abs_self y).trans_lt hylt⟩
  rcases le_or_gt x tiny with hle | hgt
  · rw [h.round_tiny x hx hle] at hy
    exact (fin.inj hy).le
  · obtain ⟨y', hy', hpos⟩ := h.round_pos x hgt hlt
    obtain rfl := fin.inj (hy.symm.trans hy')
    exact hpos.le

/-- A rounded value that is not negative is finite exactly below the limit. -/
theorem round_eq_fin_iff {x : K} (hx : 0 ≤ x) : (∃ y, round x = fin y) ↔ x < limit := by
  constructor
  · rintro ⟨y, hy⟩
    by_contra hle
    rw [h.round_inf x (not_lt.mp hle)] at hy
    cases hy
  · exact fun hlt => (h.round_nonneg hx hlt).imp fun _ hy => hy.1

omit [IsStrictOrderedRing K] in
/-- Where a positive value can go: to zero, to a positive value of the format, to infinity. -/
theorem round_cases {x : K} (hx : 0 < x) :
    x ≤ tiny ∧ round x = fin 0 ∨
      (tiny < x ∧ x < limit ∧ ∃ y, round x = fin y ∧ 0 < y ∧ round y = fin y) ∨
      limit ≤ x ∧ round x = inf := by
  rcases le_or_gt x tiny with hle | hgt
  · exact Or.inl ⟨hle, h.round_tiny x hx.le hle⟩
  rcases lt_or_ge x limit with hlt | hge
  · obtain ⟨y, hy, hpos⟩ := h.round_pos x hgt hlt
    exact Or.inr (Or.inl ⟨hgt, hlt, y, hy, hpos, h.round_round x y hy⟩)
  · exact Or.inr (Or.inr ⟨hge, h.round_inf x hge⟩)

end Range

end Flt
