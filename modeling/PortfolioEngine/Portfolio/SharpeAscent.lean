import PortfolioEngine.Portfolio.SharpeGradient

/-!
# Does the optimization help?

The iterations have a fixed step size, and nothing keeps the best weights. While the sum of the
weights stays close to 1 the projection is the clip into the box, and a small step then never lowers
the Sharpe ratio.

`small_steps_not_worse`: for any number of iterations, small enough steps end at least as well as
equal weights, unless the variance of these is at its floor.
-/

namespace PortfolioEngine.Allocator

open RatioAscent
open scoped Matrix

variable {n : ℕ} {mu : Fin n → ℝ} {cov : Matrix (Fin n) (Fin n) ℝ} {cap eta : ℝ} {x : Fin n → ℝ}

/-! ## Steps into the box -/

theorem sq_clip_sub_le (hx : InBox cap x) (z : Fin n → ℝ) (i : Fin n) :
    (clip cap z i - x i) * (clip cap z i - x i) ≤ (z i - x i) * (clip cap z i - x i) := by
  obtain ⟨h0, hcap⟩ := hx i
  unfold clip
  rcases le_total (z i) 0 with hz | hz
  · rw [max_eq_right hz, min_eq_left (h0.trans hcap)]
    nlinarith
  · rw [max_eq_left hz]
    rcases le_total (z i) cap with hzc | hzc
    · rw [min_eq_left hzc]
    · rw [min_eq_right hzc]
      nlinarith

theorem abs_clip_sub_le (hx : InBox cap x) (z : Fin n → ℝ) (i : Fin n) :
    |clip cap z i - x i| ≤ |z i - x i| := by
  have h := (sq_clip_sub_le hx z i).trans (le_abs_self _)
  rw [← abs_mul_abs_self, abs_mul] at h
  by_contra hlt
  have hpos : 0 < |clip cap z i - x i| := (abs_nonneg _).trans_lt (not_le.mp hlt)
  exact hlt (le_of_mul_le_mul_right h hpos)

theorem projectWeights_of_close {w : Fin n → ℝ} (h : isCloseToOne (∑ i, clip cap w i)) (k : ℕ) :
    projectWeights w cap k = some (clip cap w) := by
  unfold projectWeights
  rw [if_pos h]

theorem isCloseToOne_of_near (hn : 0 < n) {y : Fin n → ℝ}
    (h : dist y (fun _ => 1 / (n : ℝ)) ≤ 1e-5 / n) : isCloseToOne (∑ i, y i) := by
  have hpos : (0 : ℝ) < n := Nat.cast_pos.mpr hn
  have hentry : ∀ i, |y i - 1 / n| ≤ 1e-5 / n := by
    intro i
    rw [← Real.dist_eq]
    exact (dist_le_pi_dist y (fun _ => 1 / (n : ℝ)) i).trans h
  have hsum : ∑ i, y i - 1 = ∑ i, (y i - 1 / n) := by
    rw [Finset.sum_sub_distrib, (uniform_spec hn).2]
  rw [isCloseToOne_iff, hsum]
  calc |∑ i, (y i - 1 / n)| ≤ ∑ i, |y i - 1 / n| := Finset.abs_sum_le_sum_abs _ _
    _ ≤ ∑ _i : Fin n, (1e-5 / n : ℝ) := Finset.sum_le_sum fun i _ => hentry i
    _ = 1e-5 := by
      rw [Finset.sum_const, Finset.card_univ, Fintype.card_fin, nsmul_eq_mul,
        mul_div_cancel₀ _ hpos.ne']
    _ ≤ 1e-5 + 1e-8 := by norm_num

/-! ## The iterations -/

section Run

variable {r G eta₀ : ℝ}

/-- What holds near equal weights: the variance is above its floor, the direction is bounded, and a
small step into the box does not lower the ratio. -/
structure Climbs (mu : Fin n → ℝ) (cov : Matrix (Fin n) (Fin n) ℝ) (r G eta₀ : ℝ) : Prop where
  close : r ≤ 1e-5 / n
  bound_nonneg : 0 ≤ G
  above : ∀ x, dist x (fun _ => 1 / (n : ℝ)) ≤ r → 1e-16 < quad cov x
  bound : ∀ x, dist x (fun _ => 1 / (n : ℝ)) ≤ r → ∀ i, |direction mu cov x i| ≤ G
  climb : ∀ x y eta, dist x (fun _ => 1 / (n : ℝ)) ≤ r → dist y (fun _ => 1 / (n : ℝ)) ≤ r →
    0 < eta → eta ≤ eta₀ →
      (y - x) ⬝ᵥ (y - x) ≤ eta * (direction mu cov x ⬝ᵥ (y - x)) →
        ratio mu cov x ≤ ratio mu cov y

/-- The weights after one iteration. -/
theorem Climbs.step (h : Climbs mu cov r G eta₀) (hn : 0 < n) (hx : InBox cap x)
    (heta : 0 < eta) (hle : eta ≤ eta₀) (hnear : dist x (fun _ => 1 / (n : ℝ)) + eta * G ≤ r) :
    ∃ g y, gradient Real.sqrt mu cov x = some g ∧
      projectWeights (fun i => x i + eta * g i) cap defaultMaxIter = some y ∧ InBox cap y ∧
      dist y x ≤ eta * G ∧ ratio mu cov x ≤ ratio mu cov y := by
  have hmove : 0 ≤ eta * G := mul_nonneg heta.le h.bound_nonneg
  have hxr : dist x (fun _ => 1 / (n : ℝ)) ≤ r := by linarith
  have hcap : 0 ≤ cap := (hx ⟨0, hn⟩).1.trans (hx ⟨0, hn⟩).2
  set z := fun i => x i + eta * direction mu cov x i with hz
  have hzx : ∀ i, z i - x i = eta * direction mu cov x i := fun i => add_sub_cancel_left _ _
  have hdist : dist (clip cap z) x ≤ eta * G := by
    refine (dist_pi_le_iff hmove).mpr fun i => ?_
    rw [Real.dist_eq]
    refine (abs_clip_sub_le hx z i).trans ?_
    rw [hzx, abs_mul, abs_of_pos heta]
    exact mul_le_mul_of_nonneg_left (h.bound x hxr i) heta.le
  have hyr : dist (clip cap z) (fun _ => 1 / (n : ℝ)) ≤ r := by
    linarith [dist_triangle (clip cap z) x fun _ => 1 / (n : ℝ)]
  have hascent : (clip cap z - x) ⬝ᵥ (clip cap z - x) ≤
      eta * (direction mu cov x ⬝ᵥ (clip cap z - x)) := by
    unfold dotProduct
    rw [Finset.mul_sum]
    refine Finset.sum_le_sum fun i _ => ?_
    rw [← mul_assoc, ← hzx]
    exact sq_clip_sub_le hx z i
  exact ⟨direction mu cov x, clip cap z, gradient_eq_direction mu (h.above x hxr).le,
    projectWeights_of_close (isCloseToOne_of_near hn (hyr.trans h.close)) _,
    clip_inBox hcap z, hdist, h.climb x _ eta hxr hyr heta hle hascent⟩

/-- The iterations stay near equal weights and do not lower the ratio. -/
theorem Climbs.run (h : Climbs mu cov r G eta₀) (hn : 0 < n) (heta : 0 < eta) (hle : eta ≤ eta₀) :
    ∀ (k : ℕ) x, InBox cap x → dist x (fun _ => 1 / (n : ℝ)) + k * (eta * G) ≤ r →
      ∃ w, ascend Real.sqrt mu cov cap eta k x = some w ∧
        dist w (fun _ => 1 / (n : ℝ)) ≤ r ∧ ratio mu cov x ≤ ratio mu cov w := by
  have hmove : 0 ≤ eta * G := mul_nonneg heta.le h.bound_nonneg
  intro k
  induction k with
  | zero =>
    intro x _ hnear
    rw [Nat.cast_zero, zero_mul, add_zero] at hnear
    exact ⟨x, rfl, hnear, le_rfl⟩
  | succ k ih =>
    intro x hx hnear
    rw [Nat.cast_succ, add_mul, one_mul] at hnear
    have hk : 0 ≤ k * (eta * G) := mul_nonneg (Nat.cast_nonneg k) hmove
    obtain ⟨g, y, hg, hy, hbox, hdist, hratio⟩ := h.step hn hx heta hle (by linarith)
    obtain ⟨w, hw, hwr, hratio'⟩ := ih y hbox
      (by linarith [dist_triangle y x fun _ => 1 / (n : ℝ)])
    refine ⟨w, ?_, hwr, hratio.trans hratio'⟩
    unfold ascend
    rw [hg, Option.bind_eq_bind, Option.bind_some]
    dsimp only
    rw [hy]
    exact hw

end Run

/-! ## The whole optimization -/

/-- The optimization returns weights whose Sharpe ratio is at least that of equal weights. -/
def NotWorse (mu : Fin n → ℝ) (cov : Matrix (Fin n) (Fin n) ℝ) (cap : ℝ) (maxIters : ℕ)
    (stepSize : ℝ) : Prop :=
  ∃ w a b, optimizeSharpeProxy Real.sqrt mu cov cap maxIters stepSize = some w ∧
    sharpeProxy Real.sqrt w mu cov = some a ∧
    sharpeProxy Real.sqrt (fun _ => 1 / (n : ℝ)) mu cov = some b ∧ b ≤ a

theorem exists_climbs (hn : 0 < n) (mu : Fin n → ℝ) (hcov : cov.IsSymm)
    (hpsd : ∀ x, 0 ≤ x ⬝ᵥ (cov *ᵥ x))
    (hfloor : 1e-16 < (fun _ => 1 / (n : ℝ)) ⬝ᵥ (cov *ᵥ fun _ => 1 / (n : ℝ))) :
    ∃ r G eta₀, 0 < r ∧ 0 < eta₀ ∧ Climbs mu cov r G eta₀ := by
  have hclose : (0 : ℝ) < 1e-5 / n := div_pos (by norm_num) (Nat.cast_pos.mpr hn)
  obtain ⟨r, G, eta₀, hr, hrclose, hG, heta, hnear, hclimb⟩ :=
    exists_small_step mu hcov hpsd (by norm_num : (0 : ℝ) < 1e-16) hfloor hclose
  exact ⟨r, G, eta₀, hr, heta, hrclose, hG, fun x hx => (hnear x hx).1,
    fun x hx => (hnear x hx).2, hclimb⟩

/-- **Small steps do not make things worse.** For every number of iterations there is a threshold
for the step size up to which the optimization ends at least as well as equal weights, if the floor
does not hide the variance of these. -/
theorem small_steps_not_worse (hn : 0 < n) (mu : Fin n → ℝ) (hcov : cov.IsSymm)
    (hpsd : ∀ x, 0 ≤ x ⬝ᵥ (cov *ᵥ x)) (hcap : 1 ≤ n * cap)
    (hfloor : 1e-16 < (fun _ => 1 / (n : ℝ)) ⬝ᵥ (cov *ᵥ fun _ => 1 / (n : ℝ))) (maxIters : ℕ) :
    ∃ eta₀, 0 < eta₀ ∧ ∀ stepSize, 0 < stepSize → stepSize ≤ eta₀ →
      NotWorse mu cov cap maxIters stepSize := by
  have hpos : (0 : ℝ) < n := Nat.cast_pos.mpr hn
  have hbox : InBox cap fun _ : Fin n => 1 / (n : ℝ) := fun _ =>
    ⟨by positivity, (div_le_iff₀' hpos).mpr hcap⟩
  obtain ⟨r, G, eta₀, hr, heta₀, hclimbs⟩ := exists_climbs hn mu hcov hpsd hfloor
  have hG := hclimbs.bound_nonneg
  refine ⟨min eta₀ (r / (maxIters * G + 1)), lt_min heta₀ (by positivity), fun eta heta hle => ?_⟩
  have hmoves : maxIters * (eta * G) ≤ r := by
    have hscaled : eta * (maxIters * G + 1) ≤ r :=
      (le_div_iff₀ (by positivity)).mp (hle.trans (min_le_right _ _))
    linarith
  obtain ⟨w, hw, hnear, hratio⟩ := hclimbs.run hn heta (hle.trans (min_le_left _ _)) maxIters
    (fun _ => 1 / (n : ℝ)) hbox (by rw [dist_self, zero_add]; exact hmoves)
  have hoptimize : optimizeSharpeProxy Real.sqrt mu cov cap maxIters eta = some w := by
    unfold optimizeSharpeProxy
    rw [if_neg hn.ne', (uniform_spec hn).1]
    exact hw
  exact ⟨w, _, _, hoptimize,
    sharpeProxy_eq_ratio mu (lt_portfolioVolatility (hclimbs.above w hnear)),
    sharpeProxy_eq_ratio mu (lt_portfolioVolatility hfloor), hratio⟩

/-! ## Steps that are too large, and a variance at its floor -/

section Worse

theorem optimizeSharpeProxy_one (hn : 0 < n) {g : Fin n → ℝ}
    (hg : gradient Real.sqrt mu cov (fun _ => 1 / (n : ℝ)) = some g) (cap eta : ℝ) :
    optimizeSharpeProxy Real.sqrt mu cov cap 1 eta =
      projectWeights (fun i => 1 / (n : ℝ) + eta * g i) cap defaultMaxIter := by
  unfold optimizeSharpeProxy
  rw [if_neg hn.ne', (uniform_spec hn).1, Option.bind_eq_bind, Option.bind_some]
  unfold ascend
  rw [hg, Option.bind_eq_bind, Option.bind_some]
  dsimp only
  cases projectWeights (fun i => 1 / (n : ℝ) + eta * g i) cap defaultMaxIter with
  | none => rfl
  | some w => rfl

theorem not_notWorse {maxIters : ℕ} {w : Fin n → ℝ}
    (hw : optimizeSharpeProxy Real.sqrt mu cov cap maxIters eta = some w)
    (habove : 1e-12 < portfolioVolatility Real.sqrt w cov)
    (habove₀ : 1e-12 < portfolioVolatility Real.sqrt (fun _ => 1 / (n : ℝ)) cov)
    (hlt : ratio mu cov w < ratio mu cov fun _ => 1 / (n : ℝ)) :
    ¬NotWorse mu cov cap maxIters eta := by
  rintro ⟨w', a, b, hw', ha, hb, hle⟩
  obtain rfl : w' = w := Option.some.inj (hw'.symm.trans hw)
  rw [sharpeProxy_eq_ratio mu habove] at ha
  rw [sharpeProxy_eq_ratio mu habove₀] at hb
  rw [← Option.some.inj ha, ← Option.some.inj hb] at hle
  exact absurd hlt (not_lt.mpr hle)

/-- Two uncorrelated assets. -/
def uncorrelated (a b : ℝ) : Matrix (Fin 2) (Fin 2) ℝ := Matrix.diagonal ![a, b]

theorem uncorrelated_mulVec (a b : ℝ) (x : Fin 2 → ℝ) :
    uncorrelated a b *ᵥ x = ![a * x 0, b * x 1] := by
  funext i
  rw [uncorrelated, Matrix.mulVec_diagonal]
  fin_cases i <;> rfl

theorem quad_uncorrelated (a b : ℝ) (x : Fin 2 → ℝ) :
    quad (uncorrelated a b) x = a * x 0 ^ 2 + b * x 1 ^ 2 := by
  unfold quad
  rw [uncorrelated_mulVec, dotProduct, Fin.sum_univ_two]
  show x 0 * (a * x 0) + x 1 * (b * x 1) = _
  ring

/-- A symmetric positive definite matrix. -/
def PositiveDefinite (cov : Matrix (Fin n) (Fin n) ℝ) : Prop :=
  cov.IsSymm ∧ ∀ x, x ≠ 0 → 0 < x ⬝ᵥ (cov *ᵥ x)

theorem positiveDefinite_uncorrelated {a b : ℝ} (ha : 0 < a) (hb : 0 < b) :
    PositiveDefinite (uncorrelated a b) := by
  refine ⟨Matrix.isSymm_diagonal _, fun x hx => ?_⟩
  show 0 < quad (uncorrelated a b) x
  rw [quad_uncorrelated]
  by_cases h0 : x 0 = 0
  · have h1 : x 1 ≠ 0 := fun h1 => hx (by funext i; fin_cases i; exacts [h0, h1])
    positivity
  · positivity

/-- One step of size 10 overshoots: it leaves the first asset alone. -/
theorem large_step_worse : ¬NotWorse ![1, 9 / 10] (uncorrelated 2 2) 1 1 10 := by
  have hequal : quad (uncorrelated 2 2) (fun _ => 1 / ((2 : ℕ) : ℝ)) = 1 := by
    rw [quad_uncorrelated]
    norm_num
  have hfirst : quad (uncorrelated 2 2) ![1, 0] = 2 := by
    rw [quad_uncorrelated]
    norm_num
  -- from equal weights the gradient favours the first asset, and a step of 10 is clipped to it
  have hg : gradient Real.sqrt ![1, 9 / 10] (uncorrelated 2 2) (fun _ => 1 / ((2 : ℕ) : ℝ)) =
      some ![1 / 20, -1 / 20] := by
    rw [gradient_eq_direction _ (by rw [hequal]; norm_num)]
    congr 1
    funext i
    unfold direction
    rw [hequal, Real.sqrt_one, uncorrelated_mulVec]
    fin_cases i <;> norm_num [dotProduct, Fin.sum_univ_two]
  have hclip : clip 1 (fun i => 1 / ((2 : ℕ) : ℝ) + 10 * ![(1 / 20 : ℝ), -1 / 20] i) = ![1, 0] := by
    funext i
    unfold clip
    fin_cases i <;> norm_num
  have hclose : isCloseToOne
      (∑ i, clip 1 (fun i => 1 / ((2 : ℕ) : ℝ) + 10 * ![(1 / 20 : ℝ), -1 / 20] i) i) := by
    rw [hclip, isCloseToOne_iff, Fin.sum_univ_two]
    norm_num
  have hw : optimizeSharpeProxy Real.sqrt ![1, 9 / 10] (uncorrelated 2 2) 1 1 10 =
      some ![1, 0] := by
    rw [optimizeSharpeProxy_one Nat.two_pos hg, projectWeights_of_close hclose, hclip]
  refine not_notWorse hw (lt_portfolioVolatility ?_) (lt_portfolioVolatility ?_) ?_
  · rw [hfirst]
    norm_num
  · rw [hequal]
    norm_num
  · have hroot : 10 / 9 < √2 := Real.lt_sqrt_of_sq_lt (by norm_num)
    unfold ratio
    rw [hequal, hfirst, Real.sqrt_one, div_one, div_lt_iff₀ (by linarith)]
    norm_num [dotProduct, Fin.sum_univ_two]
    linarith

/-! ### A variance at its floor

The variance of equal weights is below the floor of the code, so the code divides by the volatility
of the floor and its gradient is not one of the ratio.
-/

theorem quad_floored : quad (uncorrelated 1e-20 3e-20) (fun _ => 1 / ((2 : ℕ) : ℝ)) = 1e-20 := by
  rw [quad_uncorrelated]
  norm_num

theorem gradient_floored :
    gradient Real.sqrt ![3, 5] (uncorrelated 1e-20 3e-20) (fun _ => 1 / ((2 : ℕ) : ℝ)) =
      some ![299980000, 499940000] := by
  have hroot : √(1e-16 : ℝ) = 1e-8 := by
    rw [show (1e-16 : ℝ) = 1e-8 ^ 2 by norm_num, Real.sqrt_sq (by norm_num)]
  have hfloor : max ((fun _ => 1 / ((2 : ℕ) : ℝ)) ⬝ᵥ
      (uncorrelated 1e-20 3e-20 *ᵥ fun _ => 1 / ((2 : ℕ) : ℝ))) 1e-16 = 1e-16 :=
    max_eq_right (quad_floored.le.trans (by norm_num))
  unfold gradient
  dsimp only
  rw [hfloor, hroot, divideAll_eq_some (by norm_num), divide_eq_some (by norm_num),
    uncorrelated_mulVec]
  show some _ = some _
  congr 1
  funext i
  fin_cases i <;> norm_num [dotProduct, Fin.sum_univ_two]

/-- The weights after one step along that gradient. -/
noncomputable def flooredStep (eta : ℝ) : Fin 2 → ℝ :=
  ![0.5 + eta * 2.9998e8, 0.5 + eta * 4.9994e8]

theorem sum_flooredStep (eta : ℝ) : ∑ i, flooredStep eta i = 1 + eta * 799920000 := by
  rw [Fin.sum_univ_two]
  show 0.5 + eta * 2.9998e8 + (0.5 + eta * 4.9994e8) = _
  ring

theorem quad_flooredStep (eta : ℝ) : quad (uncorrelated 1e-20 3e-20) (flooredStep eta) =
    1e-20 * (0.5 + eta * 2.9998e8) ^ 2 + 3e-20 * (0.5 + eta * 4.9994e8) ^ 2 :=
  quad_uncorrelated _ _ _

/-- A small step stays in the box and near the simplex, so the projection leaves it alone. -/
theorem optimizeSharpeProxy_flooredStep (heta : 0 < eta) (hle : eta ≤ 1e-20) :
    optimizeSharpeProxy Real.sqrt ![3, 5] (uncorrelated 1e-20 3e-20) 1 1 eta =
      some (flooredStep eta) := by
  have hclip : clip 1 (fun i => 1 / ((2 : ℕ) : ℝ) + eta * ![(299980000 : ℝ), 499940000] i) =
      flooredStep eta := by
    funext i
    unfold clip
    fin_cases i
    · show min (max (1 / ((2 : ℕ) : ℝ) + eta * 299980000) 0) 1 = 0.5 + eta * 2.9998e8
      rw [max_eq_left (by norm_num; linarith), min_eq_left (by norm_num; linarith)]
      norm_num
    · show min (max (1 / ((2 : ℕ) : ℝ) + eta * 499940000) 0) 1 = 0.5 + eta * 4.9994e8
      rw [max_eq_left (by norm_num; linarith), min_eq_left (by norm_num; linarith)]
      norm_num
  have hclose : isCloseToOne (∑ i, flooredStep eta i) := by
    rw [isCloseToOne_iff, sum_flooredStep, add_sub_cancel_left, abs_of_pos (by positivity)]
    linarith [(by norm_num : (1e-20 : ℝ) * 799920000 ≤ 1e-5 + 1e-8)]
  rw [optimizeSharpeProxy_one Nat.two_pos gradient_floored,
    projectWeights_of_close (by rw [hclip]; exact hclose), hclip]

theorem ratio_flooredStep_lt (heta : 0 < eta) :
    ratio ![3, 5] (uncorrelated 1e-20 3e-20) (flooredStep eta) <
      ratio ![3, 5] (uncorrelated 1e-20 3e-20) fun _ => 1 / ((2 : ℕ) : ℝ) := by
  have hroot : √(1e-20 : ℝ) = 1e-10 := by
    rw [show (1e-20 : ℝ) = 1e-10 ^ 2 by norm_num, Real.sqrt_sq (by norm_num)]
  have hgrowth : 1e-10 * (1 + eta * 849910000) <
      √(quad (uncorrelated 1e-20 3e-20) (flooredStep eta)) := by
    refine Real.lt_sqrt_of_sq_lt ?_
    rw [quad_flooredStep]
    nlinarith [mul_pos heta heta]
  have hlinear : ![3, 5] ⬝ᵥ flooredStep eta = 4 * (1 + eta * 849910000) := by
    rw [dotProduct, Fin.sum_univ_two]
    show 3 * (0.5 + eta * 2.9998e8) + 5 * (0.5 + eta * 4.9994e8) = _
    ring
  have hlinear₀ : ![(3 : ℝ), 5] ⬝ᵥ (fun _ => 1 / ((2 : ℕ) : ℝ)) = 4 := by
    norm_num [dotProduct, Fin.sum_univ_two]
  unfold ratio
  rw [quad_floored, hroot, hlinear, hlinear₀, div_lt_iff₀ (lt_trans (by positivity) hgrowth)]
  linarith

/-- With the variance at its floor every small step goes the wrong way. -/
theorem floor_step_worse {eta : ℝ} (heta : 0 < eta) (hle : eta ≤ 1e-20) :
    ¬NotWorse ![3, 5] (uncorrelated 1e-20 3e-20) 1 1 eta := by
  have hlarger : 1e-20 < quad (uncorrelated 1e-20 3e-20) (flooredStep eta) := by
    rw [quad_flooredStep]
    nlinarith [mul_pos heta heta]
  have habove : ∀ x, 1e-20 ≤ quad (uncorrelated 1e-20 3e-20) x →
      1e-12 < portfolioVolatility Real.sqrt x (uncorrelated 1e-20 3e-20) := by
    intro x hx
    rw [portfolioVolatility_eq]
    exact Real.lt_sqrt_of_sq_lt (lt_of_lt_of_le (by norm_num) hx)
  exact not_notWorse (optimizeSharpeProxy_flooredStep heta hle) (habove _ hlarger.le)
    (habove _ quad_floored.ge) (ratio_flooredStep_lt heta)

/-- The optimization can end worse than equal weights: with one large step, and with a step as small
as one likes where the variance is at its floor. -/
theorem optimization_can_worsen :
    (PositiveDefinite (uncorrelated 2 2) ∧ ¬NotWorse ![1, 9 / 10] (uncorrelated 2 2) 1 1 10) ∧
      PositiveDefinite (uncorrelated 1e-20 3e-20) ∧
        ∀ eta, 0 < eta → eta ≤ 1e-20 → ¬NotWorse ![3, 5] (uncorrelated 1e-20 3e-20) 1 1 eta :=
  ⟨⟨positiveDefinite_uncorrelated two_pos two_pos, large_step_worse⟩,
    positiveDefinite_uncorrelated (by norm_num) (by norm_num),
    fun _ heta hle => floor_step_worse heta hle⟩

end Worse

/-- The theorem for two assets with unit variances. -/
theorem small_steps_not_worse_two :
    ∃ eta₀, 0 < eta₀ ∧ ∀ stepSize, 0 < stepSize → stepSize ≤ eta₀ →
      NotWorse ![1, 9 / 10] (1 : Matrix (Fin 2) (Fin 2) ℝ) 1 120 stepSize := by
  refine small_steps_not_worse Nat.two_pos ![1, 9 / 10] Matrix.isSymm_one (fun x => ?_)
    (by norm_num) ?_ 120
  · rw [Matrix.one_mulVec]
    exact Finset.sum_nonneg fun i _ => mul_self_nonneg (x i)
  · rw [Matrix.one_mulVec]
    norm_num [dotProduct, Fin.sum_univ_two]

end PortfolioEngine.Allocator
