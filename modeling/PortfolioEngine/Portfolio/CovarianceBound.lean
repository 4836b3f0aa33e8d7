import PortfolioEngine.Portfolio.Allocator
import PortfolioEngine.Portfolio.Estimates

/-!
# The estimated covariance is uniformly positive definite

A sample covariance is a Gram matrix of the deviations from the means, as every missing return is
filled before it is taken. The columns that were dropped have deviation zero.

`estimateCovariance_bounds`: whatever the prices are, the quadratic form of the estimate is at least
the shrinkage, so neither floor of the variance matters for weights that are not tiny.
-/

namespace PortfolioEngine.Estimates

open Matrix

/-! ## Gram matrices -/

section Gram

variable {K ι ρ : Type*} [Field K] [LinearOrder K] [IsStrictOrderedRing K] [Fintype ι]

omit [LinearOrder K] [IsStrictOrderedRing K] in
/-- The quadratic form of a Gram matrix is a sum of squares. -/
theorem quadratic_gram (rows : List ρ) (dev : ρ → ι → K) (x : ι → K) :
    x ⬝ᵥ ((Matrix.of fun i j => (rows.map fun r => dev r i * dev r j).sum) *ᵥ x) =
      (rows.map fun r => (x ⬝ᵥ dev r) ^ 2).sum := by
  induction rows with
  | nil =>
    have hzero : (Matrix.of fun i j : ι =>
        (([] : List ρ).map fun r => dev r i * dev r j).sum) = 0 := by
      ext i j
      rfl
    rw [hzero, zero_mulVec, dotProduct_zero]
    rfl
  | cons r rows ih =>
    have hsplit : (Matrix.of fun i j => ((r :: rows).map fun r => dev r i * dev r j).sum) =
        vecMulVec (dev r) (dev r) +
          Matrix.of fun i j => (rows.map fun r => dev r i * dev r j).sum := by
      ext i j
      simp [vecMulVec_apply]
    rw [hsplit, add_mulVec, dotProduct_add, ih, vecMulVec_mulVec, op_smul_eq_smul,
      dotProduct_smul, List.map_cons, List.sum_cons, dotProduct_comm (dev r) x, smul_eq_mul,
      pow_two]

theorem quadratic_gram_nonneg (rows : List ρ) (dev : ρ → ι → K) (x : ι → K) :
    0 ≤ x ⬝ᵥ ((Matrix.of fun i j => (rows.map fun r => dev r i * dev r j).sum) *ᵥ x) := by
  rw [quadratic_gram]
  refine List.sum_nonneg fun y hy => ?_
  obtain ⟨r, _, rfl⟩ := List.mem_map.mp hy
  exact sq_nonneg _

end Gram

/-! ## The sample covariance -/

section Sample

variable {K : Type*} [Field K] [LinearOrder K] {n : ℕ}

/-- The deviation of a row from the mean of column `i`; 0 in a column that was dropped. -/
def deviation (returns : List (Fin n → Option K)) (row : Fin n → Option K) (i : Fin n) : K :=
  if Kept returns i then (row i).getD 0 - mean (filled returns i) else 0

omit [LinearOrder K] in
theorem entry_eq (returns : List (Fin n → Option K)) (i j : Fin n) :
    (if Kept returns i ∧ Kept returns j then
      sampleCov (filled returns i) (filled returns j) else 0) =
      (returns.map fun row => deviation returns row i * deviation returns row j).sum /
        (returns.length - 1) := by
  unfold deviation
  by_cases hi : Kept returns i
  · by_cases hj : Kept returns j
    · simp only [hi, hj, and_self, if_true]
      unfold sampleCov
      rw [length_filled]
      unfold filled
      rw [List.zipWith_map, List.zipWith_self]
    · simp [hj]
  · simp [hi]

variable [IsStrictOrderedRing K]

theorem sampleCov_nonneg {returns : List (Fin n → Option K)} (h : 2 ≤ returns.length)
    (x : Fin n → K) :
    0 ≤ x ⬝ᵥ ((Matrix.of fun i j => if Kept returns i ∧ Kept returns j then
      sampleCov (filled returns i) (filled returns j) else 0) *ᵥ x) := by
  have hlength : (0 : K) < returns.length - 1 := by
    have hone : (1 : K) < returns.length := by exact_mod_cast h
    exact sub_pos.mpr hone
  have hgram : (Matrix.of fun i j => if Kept returns i ∧ Kept returns j then
      sampleCov (filled returns i) (filled returns j) else 0) =
        (returns.length - 1 : K)⁻¹ • Matrix.of fun i j =>
          (returns.map fun row => deviation returns row i * deviation returns row j).sum := by
    ext i j
    rw [Matrix.smul_apply, Matrix.of_apply, Matrix.of_apply, entry_eq, smul_eq_mul, mul_comm,
      div_eq_mul_inv]
  rw [hgram, smul_mulVec, dotProduct_smul, smul_eq_mul]
  exact mul_nonneg (inv_nonneg.mpr hlength.le) (quadratic_gram_nonneg returns _ x)

/-! ## The estimate -/

omit [LinearOrder K] [IsStrictOrderedRing K] in
theorem quadratic_smul_one (c : K) (x : Fin n → K) :
    x ⬝ᵥ ((c • (1 : Matrix (Fin n) (Fin n) K)) *ᵥ x) = c * (x ⬝ᵥ x) := by
  rw [smul_mulVec, one_mulVec, dotProduct_smul, smul_eq_mul]

theorem estimateCovariance_ge (log : Flt K → Flt K) (prices : List (Quote K))
    (symbols : Fin n → Symbol) (shrinkageLambda : K) (x : Fin n → K) :
    max shrinkageLambda 1e-12 * (x ⬝ᵥ x) ≤
      x ⬝ᵥ (estimateCovariance log prices symbols shrinkageLambda *ᵥ x) := by
  have hx : 0 ≤ x ⬝ᵥ x := Finset.sum_nonneg fun i _ => mul_self_nonneg (x i)
  unfold estimateCovariance
  dsimp only
  split_ifs with h
  · -- too few returns: a multiple of the identity
    rw [quadratic_smul_one]
    exact mul_le_mul_of_nonneg_right (max_le_max le_rfl (by norm_num)) hx
  · have hlength : 2 ≤ (toReturnMatrix log prices symbols).length := by
      rw [not_or, not_lt] at h
      exact h.2
    rw [add_mulVec, dotProduct_add, quadratic_smul_one]
    exact le_add_of_nonneg_left (sampleCov_nonneg hlength x)

theorem floor_lt_variance (log : Flt K → Flt K) (prices : List (Quote K))
    (symbols : Fin n → Symbol) (shrinkageLambda : K) {w : Fin n → K} (hw : 1e-4 < w ⬝ᵥ w) :
    1e-16 < w ⬝ᵥ (estimateCovariance log prices symbols shrinkageLambda *ᵥ w) :=
  calc (1e-16 : K) = 1e-12 * 1e-4 := by norm_num
    _ < 1e-12 * (w ⬝ᵥ w) := mul_lt_mul_of_pos_left hw (by norm_num)
    _ ≤ max shrinkageLambda 1e-12 * (w ⬝ᵥ w) :=
      mul_le_mul_of_nonneg_right (le_max_right _ _) ((by norm_num : (0 : K) ≤ 1e-4).trans hw.le)
    _ ≤ _ := estimateCovariance_ge log prices symbols shrinkageLambda w

end Sample

open Allocator in
/-- **The estimated covariance** is symmetric and at least the shrinkage times the identity. For
weights that are not tiny, the direction of the optimizer and the portfolio volatility are those
without the floor and the clamp. -/
theorem estimateCovariance_bounds {n : ℕ} (log : Flt ℝ → Flt ℝ) (prices : List (Quote ℝ))
    (symbols : Fin n → Symbol) (shrinkageLambda : ℝ) :
    let cov := estimateCovariance log prices symbols shrinkageLambda
    cov.IsSymm ∧
      (∀ x, max shrinkageLambda 1e-12 * (x ⬝ᵥ x) ≤ x ⬝ᵥ (cov *ᵥ x)) ∧
      ∀ w, 1e-4 < w ⬝ᵥ w →
        let variance := w ⬝ᵥ (cov *ᵥ w)
        max variance 1e-16 = variance ∧ max variance 0 = variance ∧
          (∀ mu, gradient Real.sqrt mu cov w = some fun i =>
            mu i / Real.sqrt variance -
              mu ⬝ᵥ w / Real.sqrt variance ^ 3 * (cov *ᵥ w) i) ∧
          portfolioVolatility Real.sqrt w cov = Real.sqrt variance := by
  intro cov
  refine ⟨estimateCovariance_isSymm log prices symbols shrinkageLambda,
    estimateCovariance_ge log prices symbols shrinkageLambda, fun w hw => ?_⟩
  have hfloor := floor_lt_variance log prices symbols shrinkageLambda hw
  have hpos : 0 ≤ w ⬝ᵥ (cov *ᵥ w) := (by norm_num : (0 : ℝ) ≤ 1e-16).trans hfloor.le
  refine ⟨max_eq_left hfloor.le, max_eq_left hpos, fun mu => ?_, ?_⟩
  · exact gradient_eq (fun _ => Real.sqrt_pos_of_pos) mu hfloor.le
  · unfold portfolioVolatility
    rw [max_eq_left hpos]

end PortfolioEngine.Estimates
