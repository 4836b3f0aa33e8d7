import Mathlib.Analysis.SpecialFunctions.Sqrt
import Mathlib.Data.Matrix.Mul
import PortfolioEngine.Portfolio.Projection

/-!
# The allocator

`inverse_vol_weights`, `optimize_sharpe_proxy`, `portfolio_volatility`, `sharpe_proxy` and
`choose_target_vols` of `allocator.py`, and the choice of the weights in `_run_rebalance`, in
exact arithmetic. Every division can fail, so that a result `some v` says that no division by
zero occurred on the way to `v`. The square root is a parameter, to keep the definitions
executable over `ℚ`; the theorems take it over `ℝ`.

`allocations_invested`: whatever the estimates, every vector of weights is long-only and fully
invested.
-/

namespace PortfolioEngine.Allocator

open Matrix

variable {K : Type*} [Field K] [LinearOrder K] {n : ℕ}

/-! ## The code -/

/-- `np.where(vols > 1e-12, vols, 1e-12)`. -/
def safeVol (vol : Flt K) : Flt K := if Flt.fin 1e-12 < vol then vol else Flt.fin 1e-12

/-- `1.0 / x`. -/
def recip : Flt K → Option K
  | .fin x => divide 1 x
  | .inf => some 0
  | .negInf => some 0
  | .nan => none

/-- `inverse_vol_weights`. -/
def inverseVolWeights (vols : Fin n → Flt K) (cap : K) : Option (Fin n → K) := do
  let inv ← collect fun i => recip (safeVol (vols i))
  let raw ← if 0 < ∑ i, inv i then divideAll inv (∑ i, inv i) else uniform n
  projectWeights raw cap defaultMaxIter

/-- The direction `grad` of one iteration of `optimize_sharpe_proxy`. -/
def gradient (sqrt : K → K) (mu : Fin n → K) (cov : Matrix (Fin n) (Fin n) K)
    (weights : Fin n → K) : Option (Fin n → K) := do
  let covW := cov *ᵥ weights
  let variance := max (weights ⬝ᵥ covW) 1e-16
  let sigma := sqrt variance
  let numerator := mu ⬝ᵥ weights
  let muTerm ← divideAll mu sigma
  let covCoeff ← divide numerator (sigma ^ 3)
  some fun i => muTerm i - covCoeff * covW i

/-- The iterations of `optimize_sharpe_proxy`, `k` of them. -/
def ascend (sqrt : K → K) (mu : Fin n → K) (cov : Matrix (Fin n) (Fin n) K) (cap stepSize : K) :
    ℕ → (Fin n → K) → Option (Fin n → K)
  | 0, weights => some weights
  | k + 1, weights => do
    let grad ← gradient sqrt mu cov weights
    let candidate := fun i => weights i + stepSize * grad i
    let weights ← projectWeights candidate cap defaultMaxIter
    ascend sqrt mu cov cap stepSize k weights

/-- `optimize_sharpe_proxy`. -/
def optimizeSharpeProxy (sqrt : K → K) (mu : Fin n → K) (cov : Matrix (Fin n) (Fin n) K) (cap : K)
    (maxIters : ℕ) (stepSize : K) : Option (Fin n → K) :=
  -- With no assets the array is empty: every function on `Fin 0` is it.
  if n = 0 then some fun _ => 0
  else do
    let weights ← uniform n
    ascend sqrt mu cov cap stepSize maxIters weights

/-- `portfolio_volatility`. -/
def portfolioVolatility (sqrt : K → K) (weights : Fin n → K) (cov : Matrix (Fin n) (Fin n) K) : K :=
  sqrt (max (weights ⬝ᵥ (cov *ᵥ weights)) 0)

/-- `sharpe_proxy`. -/
def sharpeProxy (sqrt : K → K) (weights mu : Fin n → K) (cov : Matrix (Fin n) (Fin n) K) :
    Option K :=
  let vol := portfolioVolatility sqrt weights cov
  if vol ≤ 1e-12 then some 0 else divide (mu ⬝ᵥ weights) vol

/-- A row of `fetch_latest_forecasts`. -/
structure Forecast (K : Type*) where
  garchVol : Option (Flt K)
  xgbVol : Option (Flt K)

/-- The volatility `choose_target_vols` takes from one entry of the forecasts. -/
def targetVol (row : Option (Forecast K)) : Flt K :=
  match row.bind Forecast.garchVol, row.bind Forecast.xgbVol with
  | some garch, some xgb => Flt.div (Flt.add garch xgb) (.fin 2.0)
  | none, some xgb => xgb
  | some garch, none => garch
  | none, none => .fin 0

/-- `choose_target_vols`. -/
def chooseTargetVols {Symbol : Type*} (forecasts : Symbol → Option (Forecast K))
    (symbols : Fin n → Symbol) : Fin n → Flt K := fun i => targetVol (forecasts (symbols i))

/-- The optimizer's weights as `_run_rebalance` takes them: uniform weights if one is negative. -/
def guardOptimized (weightsOpt : Fin n → K) : Option (Fin n → K) :=
  if ∃ i, weightsOpt i < -1e-12 then uniform n else some weightsOpt

/-- `0.5 * weights_opt + 0.5 * weights_iv`, divided by its sum. -/
def blend (weightsOpt weightsIv : Fin n → K) : Option (Fin n → K) :=
  let weights := fun i => 0.5 * weightsOpt i + 0.5 * weightsIv i
  divideAll weights (∑ i, weights i)

/-- The weights of `_run_rebalance`, from the estimates to the final vector. -/
def finalWeights (sqrt : K → K) (mu : Fin n → K) (cov : Matrix (Fin n) (Fin n) K)
    (modelVols : Fin n → Flt K) (cap : K) (maxIters : ℕ) (stepSize : K) : Option (Fin n → K) := do
  let weightsOpt ← optimizeSharpeProxy sqrt mu cov cap maxIters stepSize
  let weightsOpt ← guardOptimized weightsOpt
  let weightsIv ← inverseVolWeights modelVols cap
  if ∃ i, modelVols i ≤ .fin 0 then some weightsOpt else blend weightsOpt weightsIv

/-! ## Long-only and fully invested -/

section Invested

variable [IsStrictOrderedRing K]

theorem recip_safeVol (vol : Flt K) : ∃ x, recip (safeVol vol) = some x ∧ 0 ≤ x := by
  have hfloor : ∃ x, recip (.fin 1e-12 : Flt K) = some x ∧ 0 ≤ x :=
    ⟨1 / 1e-12, divide_eq_some (by norm_num) _, by norm_num⟩
  unfold safeVol
  by_cases hv : Flt.fin 1e-12 < vol
  · rw [if_pos hv]
    cases vol with
    | fin x =>
      have hx : 0 < x := (by norm_num : (0 : K) < 1e-12).trans (Flt.fin_lt_fin.mp hv)
      exact ⟨1 / x, divide_eq_some hx.ne' _, by positivity⟩
    | inf => exact ⟨0, rfl, le_rfl⟩
    | negInf => exact absurd hv id
    | nan => exact absurd hv id
  · rw [if_neg hv]; exact hfloor

theorem inverseVolWeights_eq (hn : 0 < n) (vols : Fin n → Flt K) (cap : K) :
    ∃ raw : Fin n → K, inverseVolWeights vols cap = projectWeights raw cap defaultMaxIter := by
  choose inv hinv h0 using fun i => recip_safeVol (vols i)
  have hc : collect (fun i => recip (safeVol (vols i))) = some inv := collect_eq_some hinv
  unfold inverseVolWeights
  rw [hc]
  by_cases hpos : 0 < ∑ i, inv i
  · exact ⟨_, by
      rw [Option.bind_eq_bind, Option.bind_some, if_pos hpos, divideAll_eq_some hpos.ne']
      rfl⟩
  · exact ⟨_, by rw [Option.bind_eq_bind, Option.bind_some, if_neg hpos, (uniform_spec hn).1]; rfl⟩

theorem inverseVolWeights_invested (hn : 0 < n) {cap : K} (hcap : 0 ≤ cap) (vols : Fin n → Flt K) :
    ∃ v, inverseVolWeights vols cap = some v ∧ Invested v := by
  obtain ⟨raw, hraw⟩ := inverseVolWeights_eq hn vols cap
  rw [hraw]
  exact projectWeights_invested hn hcap raw _

theorem gradient_spec {sqrt : K → K} (hsqrt : ∀ x, 0 < x → 0 < sqrt x) (mu : Fin n → K)
    (cov : Matrix (Fin n) (Fin n) K) (w : Fin n → K) : ∃ g, gradient sqrt mu cov w = some g := by
  have hvar : (0 : K) < max (w ⬝ᵥ (cov *ᵥ w)) 1e-16 := lt_max_of_lt_right (by norm_num)
  have hsigma := hsqrt _ hvar
  unfold gradient
  simp only [divideAll_eq_some hsigma.ne', divide_eq_some (pow_pos hsigma 3).ne']
  exact ⟨_, rfl⟩

/-- The direction where the floor of the variance does not matter. -/
theorem gradient_eq {sqrt : K → K} (hsqrt : ∀ x, 0 < x → 0 < sqrt x) (mu : Fin n → K)
    {cov : Matrix (Fin n) (Fin n) K} {w : Fin n → K} (h : 1e-16 ≤ w ⬝ᵥ (cov *ᵥ w)) :
    gradient sqrt mu cov w = some fun i =>
      mu i / sqrt (w ⬝ᵥ (cov *ᵥ w)) -
        mu ⬝ᵥ w / sqrt (w ⬝ᵥ (cov *ᵥ w)) ^ 3 * (cov *ᵥ w) i := by
  have hsigma := hsqrt _ ((by norm_num : (0 : K) < 1e-16).trans_le h)
  unfold gradient
  simp only [max_eq_left h, divideAll_eq_some hsigma.ne', divide_eq_some (pow_pos hsigma 3).ne']
  rfl

/-- What projection establishes holds after any number of iterations. -/
theorem ascend_rule {sqrt : K → K} (hsqrt : ∀ x, 0 < x → 0 < sqrt x) {P : (Fin n → K) → Prop}
    {cap : K} (hP : ∀ w, ∃ v, projectWeights w cap defaultMaxIter = some v ∧ P v) (mu : Fin n → K)
    (cov : Matrix (Fin n) (Fin n) K) (stepSize : K) :
    ∀ k w, P w → ∃ v, ascend sqrt mu cov cap stepSize k w = some v ∧ P v := by
  intro k
  induction k with
  | zero => intro w hw; exact ⟨w, rfl, hw⟩
  | succ k ih =>
    intro w _
    obtain ⟨g, hg⟩ := gradient_spec hsqrt mu cov w
    obtain ⟨v, hv, hPv⟩ := hP fun i => w i + stepSize * g i
    obtain ⟨u, hu, hPu⟩ := ih v hPv
    refine ⟨u, ?_, hPu⟩
    unfold ascend
    rw [hg, Option.bind_eq_bind, Option.bind_some]
    show (projectWeights _ cap defaultMaxIter).bind _ = some u
    rw [hv]
    exact hu

theorem optimizeSharpeProxy_rule {sqrt : K → K} (hsqrt : ∀ x, 0 < x → 0 < sqrt x)
    {P : (Fin n → K) → Prop} {cap : K} (hn : 0 < n)
    (hP : ∀ w, ∃ v, projectWeights w cap defaultMaxIter = some v ∧ P v)
    (hP₀ : P fun _ => 1 / (n : K)) (mu : Fin n → K) (cov : Matrix (Fin n) (Fin n) K)
    (maxIters : ℕ) (stepSize : K) :
    ∃ v, optimizeSharpeProxy sqrt mu cov cap maxIters stepSize = some v ∧ P v := by
  unfold optimizeSharpeProxy
  rw [if_neg hn.ne', (uniform_spec hn).1]
  exact ascend_rule hsqrt hP mu cov stepSize maxIters _ hP₀

theorem uniform_invested (hn : 0 < n) : Invested fun _ : Fin n => 1 / (n : K) :=
  invested_of_sum_eq (fun _ => by positivity) (uniform_spec hn).2

theorem guardOptimized_eq {w : Fin n → K} (h : ∀ i, 0 ≤ w i) : guardOptimized w = some w := by
  unfold guardOptimized
  rw [if_neg]
  rintro ⟨i, hi⟩
  have := h i
  have : (0 : K) < 1e-12 := by norm_num
  linarith

theorem blend_spec {a b : Fin n → K} (ha : Invested a) (hb : Invested b) :
    ∃ v, blend a b = some v ∧ (∀ i, 0 ≤ v i) ∧ ∑ i, v i = 1 := by
  have h0 : ∀ i, 0 ≤ 0.5 * a i + 0.5 * b i := fun i => by
    have := ha.nonneg i
    have := hb.nonneg i
    positivity
  have hpos : 0 < ∑ i, (0.5 * a i + 0.5 * b i) := by
    rw [Finset.sum_add_distrib, ← Finset.mul_sum, ← Finset.mul_sum]
    have := ha.sum_pos
    have := hb.sum_pos
    positivity
  obtain ⟨hd, hv0, hv1⟩ := normalized h0 hpos
  exact ⟨_, hd, hv0, hv1⟩

theorem finalWeights_eq {sqrt : K → K} {mu : Fin n → K} {cov : Matrix (Fin n) (Fin n) K}
    {vols : Fin n → Flt K} {cap : K} {maxIters : ℕ} {stepSize : K} {a b : Fin n → K}
    (ha : optimizeSharpeProxy sqrt mu cov cap maxIters stepSize = some a) (ha0 : ∀ i, 0 ≤ a i)
    (hb : inverseVolWeights vols cap = some b) :
    finalWeights sqrt mu cov vols cap maxIters stepSize =
      if ∃ i, vols i ≤ .fin 0 then some a else blend a b := by
  unfold finalWeights
  rw [ha, Option.bind_eq_bind, Option.bind_some, guardOptimized_eq ha0, hb]
  rfl

theorem finalWeights_invested {sqrt : K → K} (hsqrt : ∀ x, 0 < x → 0 < sqrt x) (hn : 0 < n)
    {cap : K} (hcap : 0 ≤ cap) (mu : Fin n → K) (cov : Matrix (Fin n) (Fin n) K)
    (vols : Fin n → Flt K) (maxIters : ℕ) (stepSize : K) :
    ∃ v, finalWeights sqrt mu cov vols cap maxIters stepSize = some v ∧ Invested v := by
  obtain ⟨a, ha, hai⟩ := optimizeSharpeProxy_rule hsqrt hn
    (fun w => projectWeights_invested hn hcap w _) (uniform_invested hn) mu cov maxIters stepSize
  obtain ⟨b, hb, hbi⟩ := inverseVolWeights_invested hn hcap vols
  rw [finalWeights_eq ha hai.nonneg hb]
  by_cases h : ∃ i, vols i ≤ .fin 0
  · exact ⟨a, by rw [if_pos h], hai⟩
  · obtain ⟨v, hv, h0, h1⟩ := blend_spec hai hbi
    exact ⟨v, by rw [if_neg h, hv], invested_of_sum_eq h0 h1⟩

end Invested

/-- **Allocations are long-only and fully invested**, and no division by zero occurs. -/
theorem allocations_invested (hn : 0 < n) {cap : ℝ} (hcap : 0 < cap) (w mu : Fin n → ℝ)
    (cov : Matrix (Fin n) (Fin n) ℝ) (vols : Fin n → Flt ℝ) (maxIter maxIters : ℕ) (stepSize : ℝ) :
    (∃ v, projectWeights w cap maxIter = some v ∧ Invested v) ∧
    (∃ v, optimizeSharpeProxy Real.sqrt mu cov cap maxIters stepSize = some v ∧ Invested v) ∧
    (∃ v, inverseVolWeights vols cap = some v ∧ Invested v) ∧
    (∃ v, finalWeights Real.sqrt mu cov vols cap maxIters stepSize = some v ∧ Invested v) := by
  have hsqrt : ∀ x : ℝ, 0 < x → 0 < Real.sqrt x := fun _ => Real.sqrt_pos_of_pos
  exact ⟨projectWeights_invested hn hcap.le w maxIter,
    optimizeSharpeProxy_rule hsqrt hn (fun w => projectWeights_invested hn hcap.le w _)
      (uniform_invested hn) mu cov maxIters stepSize,
    inverseVolWeights_invested hn hcap.le vols,
    finalWeights_invested hsqrt hn hcap.le mu cov vols maxIters stepSize⟩

/-- Two assets under a cap of 0.6, with 120 steps of 0.05. -/
theorem allocations_invested_two_assets :
    (∃ v, projectWeights ![(1 : ℝ), 0] (3 / 5) defaultMaxIter = some v ∧ Invested v) ∧
    (∃ v, optimizeSharpeProxy Real.sqrt ![(1 : ℝ), 0] 1 (3 / 5) 120 0.05 = some v ∧ Invested v) ∧
    (∃ v, inverseVolWeights ![.fin (1 : ℝ), .fin 2] (3 / 5) = some v ∧ Invested v) ∧
    (∃ v, finalWeights Real.sqrt ![(1 : ℝ), 0] 1 ![.fin 1, .fin 2] (3 / 5) 120 0.05 = some v ∧
      Invested v) :=
  allocations_invested (by norm_num) (by norm_num) _ _ _ _ _ _ _

end PortfolioEngine.Allocator
