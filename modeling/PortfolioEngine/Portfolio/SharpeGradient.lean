import PortfolioEngine.Lib.RatioAscent
import PortfolioEngine.Portfolio.Allocator

/-!
# The gradient of the Sharpe ratio

The direction of `optimize_sharpe_proxy` and the value of `sharpe_proxy` are written separately.

`gradient_isGradient`: where the floor of the variance does not matter, the direction is the
gradient of the value, and it is orthogonal to the weights.
-/

namespace PortfolioEngine.Allocator

open RatioAscent
open scoped Matrix

variable {n : ℕ} {mu : Fin n → ℝ} {cov : Matrix (Fin n) (Fin n) ℝ} {w : Fin n → ℝ}

theorem gradient_eq_direction (mu : Fin n → ℝ) (h : 1e-16 ≤ quad cov w) :
    gradient Real.sqrt mu cov w = some (direction mu cov w) :=
  gradient_eq (fun _ => Real.sqrt_pos_of_pos) mu h

theorem portfolioVolatility_eq (cov : Matrix (Fin n) (Fin n) ℝ) (w : Fin n → ℝ) :
    portfolioVolatility Real.sqrt w cov = √(quad cov w) := by
  unfold portfolioVolatility
  rcases le_total 0 (quad cov w) with h | h
  · exact congrArg Real.sqrt (max_eq_left h)
  · rw [Real.sqrt_eq_zero_of_nonpos h]
    exact (congrArg Real.sqrt (max_eq_right h)).trans Real.sqrt_zero

theorem sharpeProxy_eq_ratio (mu : Fin n → ℝ) (h : 1e-12 < portfolioVolatility Real.sqrt w cov) :
    sharpeProxy Real.sqrt w mu cov = some (ratio mu cov w) := by
  have hpos : 0 < portfolioVolatility Real.sqrt w cov := (by norm_num : (0 : ℝ) < 1e-12).trans h
  unfold sharpeProxy
  dsimp only
  rw [if_neg (not_le.mpr h), divide_eq_some hpos.ne', portfolioVolatility_eq]
  rfl

/-- A variance above the floor of the optimizer is one above the threshold of the Sharpe ratio. -/
theorem lt_portfolioVolatility (h : 1e-16 < quad cov w) :
    1e-12 < portfolioVolatility Real.sqrt w cov := by
  rw [portfolioVolatility_eq]
  refine Real.lt_sqrt_of_sq_lt (lt_trans ?_ h)
  norm_num

/-- **The direction is the gradient** of the Sharpe ratio that is reported. -/
theorem gradient_isGradient (hcov : cov.IsSymm) (mu : Fin n → ℝ)
    (h : 1e-16 < w ⬝ᵥ (cov *ᵥ w)) :
    ∃ g, gradient Real.sqrt mu cov w = some g ∧
      HasGradientAt (fun x : EuclideanSpace ℝ (Fin n) =>
          mu ⬝ᵥ x.ofLp / √(x.ofLp ⬝ᵥ (cov *ᵥ x.ofLp)))
        (WithLp.toLp 2 g) (WithLp.toLp 2 w) ∧
      g ⬝ᵥ w = 0 ∧
      sharpeProxy Real.sqrt w mu cov = some (mu ⬝ᵥ w / √(w ⬝ᵥ (cov *ᵥ w))) ∧
      ∀ x, 1e-12 < portfolioVolatility Real.sqrt x cov →
        sharpeProxy Real.sqrt x mu cov = some (mu ⬝ᵥ x / √(x ⬝ᵥ (cov *ᵥ x))) := by
  have hpos : 0 < quad cov w := (by norm_num : (0 : ℝ) < 1e-16).trans h
  exact ⟨direction mu cov w, gradient_eq_direction mu h.le, hasGradientAt_ratio hcov hpos,
    direction_dotProduct_self hpos, sharpeProxy_eq_ratio mu (lt_portfolioVolatility h),
    fun _ hx => sharpeProxy_eq_ratio mu hx⟩

/-- The theorem for two assets with unit variances, at the first one. -/
theorem gradient_isGradient_two :
    ∃ g, gradient Real.sqrt ![1, 2] (1 : Matrix (Fin 2) (Fin 2) ℝ) ![1, 0] = some g ∧
      HasGradientAt (fun x : EuclideanSpace ℝ (Fin 2) =>
          ![1, 2] ⬝ᵥ x.ofLp / √(x.ofLp ⬝ᵥ ((1 : Matrix (Fin 2) (Fin 2) ℝ) *ᵥ x.ofLp)))
        (WithLp.toLp 2 g) (WithLp.toLp 2 ![1, 0]) ∧
      g ⬝ᵥ ![1, 0] = 0 ∧
      sharpeProxy Real.sqrt ![1, 0] ![1, 2] (1 : Matrix (Fin 2) (Fin 2) ℝ) =
        some (![1, 2] ⬝ᵥ ![1, 0] / √(![1, 0] ⬝ᵥ ((1 : Matrix (Fin 2) (Fin 2) ℝ) *ᵥ ![1, 0]))) ∧
      ∀ x, 1e-12 < portfolioVolatility Real.sqrt x (1 : Matrix (Fin 2) (Fin 2) ℝ) →
        sharpeProxy Real.sqrt x ![1, 2] (1 : Matrix (Fin 2) (Fin 2) ℝ) =
          some (![1, 2] ⬝ᵥ x / √(x ⬝ᵥ ((1 : Matrix (Fin 2) (Fin 2) ℝ) *ᵥ x))) :=
  gradient_isGradient Matrix.isSymm_one ![1, 2] (by
    rw [Matrix.one_mulVec]
    norm_num [dotProduct, Fin.sum_univ_two])

end PortfolioEngine.Allocator
