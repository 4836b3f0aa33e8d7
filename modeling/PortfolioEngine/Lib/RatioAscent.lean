import Mathlib.Analysis.Calculus.Deriv.Inv
import Mathlib.Analysis.Calculus.Gradient.Basic
import Mathlib.Analysis.InnerProductSpace.PiL2
import Mathlib.Analysis.SpecialFunctions.Sqrt
import Mathlib.LinearAlgebra.Matrix.Symmetric

/-!
# Ascent of a linear form over the root of a quadratic form

The ratio `m · x / √(x · C x)`, its gradient, and steps that do not lower it.

1. `hasGradientAt_ratio`: `direction` is the gradient where the quadratic form is positive.
2. `ratio_le_ratio`: a step that goes far enough along the direction for its length raises the
   ratio.
-/

namespace PortfolioEngine.RatioAscent

open scoped Matrix

variable {ι : Type*} [Fintype ι]

/-! ## The ratio -/

/-- The quadratic form. -/
def quad (C : Matrix ι ι ℝ) (x : ι → ℝ) : ℝ := x ⬝ᵥ (C *ᵥ x)

/-- The linear form over the root of the quadratic form. -/
noncomputable def ratio (m : ι → ℝ) (C : Matrix ι ι ℝ) (x : ι → ℝ) : ℝ := m ⬝ᵥ x / √(quad C x)

/-- The gradient of the ratio. -/
noncomputable def direction (m : ι → ℝ) (C : Matrix ι ι ℝ) (x : ι → ℝ) : ι → ℝ := fun i =>
  m i / √(quad C x) - m ⬝ᵥ x / √(quad C x) ^ 3 * (C *ᵥ x) i

variable {m : ι → ℝ} {C : Matrix ι ι ℝ} {x : ι → ℝ}

theorem direction_dotProduct (v : ι → ℝ) :
    direction m C x ⬝ᵥ v =
      m ⬝ᵥ v / √(quad C x) - m ⬝ᵥ x / √(quad C x) ^ 3 * ((C *ᵥ x) ⬝ᵥ v) := by
  have hvector : direction m C x =
      (√(quad C x))⁻¹ • m - (m ⬝ᵥ x / √(quad C x) ^ 3) • (C *ᵥ x) := by
    funext i
    simp [direction, div_eq_inv_mul]
  rw [hvector, sub_dotProduct, smul_dotProduct, smul_dotProduct, smul_eq_mul, smul_eq_mul,
    inv_mul_eq_div]

theorem direction_dotProduct_self (h : 0 < quad C x) : direction m C x ⬝ᵥ x = 0 := by
  have hroot : 0 < √(quad C x) := Real.sqrt_pos.mpr h
  have hquad : (C *ᵥ x) ⬝ᵥ x = √(quad C x) ^ 2 := by
    rw [Real.sq_sqrt h.le, dotProduct_comm]
    rfl
  rw [direction_dotProduct, hquad]
  field_simp
  ring

theorem dotProduct_mulVec_comm (hC : C.IsSymm) (x v : ι → ℝ) :
    x ⬝ᵥ (C *ᵥ v) = (C *ᵥ x) ⬝ᵥ v := by
  rw [Matrix.dotProduct_mulVec, ← Matrix.mulVec_transpose, hC.eq]

/-! ## The gradient -/

/-- The linear form as a continuous one. -/
noncomputable def dotL (g : ι → ℝ) : (ι → ℝ) →L[ℝ] ℝ :=
  ∑ i, g i • ContinuousLinearMap.proj i

theorem dotL_apply (g v : ι → ℝ) : dotL g v = g ⬝ᵥ v := by
  simp [dotL, dotProduct]

theorem hasFDerivAt_dot (g x : ι → ℝ) : HasFDerivAt (fun y => g ⬝ᵥ y) (dotL g) x := by
  have hfun : (fun y => g ⬝ᵥ y) = dotL g := by
    funext y
    rw [dotL_apply]
  rw [hfun]
  exact (dotL g).hasFDerivAt

theorem hasFDerivAt_quad (hC : C.IsSymm) (x : ι → ℝ) :
    HasFDerivAt (quad C) ((2 : ℝ) • dotL (C *ᵥ x)) x := by
  have hsum : HasFDerivAt (fun y : ι → ℝ => ∑ i, y i * (C i ⬝ᵥ y))
      (∑ i, (x i • dotL (C i) + (C i ⬝ᵥ x) • ContinuousLinearMap.proj i)) x :=
    HasFDerivAt.fun_sum fun i _ => (hasFDerivAt_apply i x).mul (hasFDerivAt_dot (C i) x)
  have hderiv : ∑ i, (x i • dotL (C i) + (C i ⬝ᵥ x) • ContinuousLinearMap.proj i) =
      (2 : ℝ) • dotL (C *ᵥ x) := by
    refine ContinuousLinearMap.ext fun v => ?_
    simp only [sum_apply, add_apply, smul_apply, ContinuousLinearMap.proj_apply, dotL_apply,
      smul_eq_mul]
    calc ∑ i, (x i * (C i ⬝ᵥ v) + C i ⬝ᵥ x * v i) = x ⬝ᵥ (C *ᵥ v) + (C *ᵥ x) ⬝ᵥ v :=
        Finset.sum_add_distrib
      _ = 2 * ((C *ᵥ x) ⬝ᵥ v) := by rw [dotProduct_mulVec_comm hC]; ring
  rw [← hderiv]
  exact hsum

theorem hasFDerivAt_ratio (hC : C.IsSymm) (h : 0 < quad C x) :
    HasFDerivAt (ratio m C) (dotL (direction m C x)) x := by
  have hroot : 0 < √(quad C x) := Real.sqrt_pos.mpr h
  have hsqrt := (hasFDerivAt_quad hC x).sqrt h.ne'
  have hinv := (hasDerivAt_inv hroot.ne').comp_hasFDerivAt x hsqrt
  have hratio := (hasFDerivAt_dot m x).mul hinv
  have hderiv : dotL (direction m C x) = (m ⬝ᵥ x) • (-(√(quad C x) ^ 2)⁻¹ •
      (1 / (2 * √(quad C x))) • (2 : ℝ) • dotL (C *ᵥ x)) + (√(quad C x))⁻¹ • dotL m := by
    refine ContinuousLinearMap.ext fun v => ?_
    simp only [add_apply, smul_apply, dotL_apply, smul_eq_mul, direction_dotProduct]
    field_simp
    ring
  rw [hderiv]
  exact hratio

theorem hasGradientAt_ratio (hC : C.IsSymm) (h : 0 < quad C x) :
    HasGradientAt (fun y : EuclideanSpace ℝ ι => ratio m C y.ofLp)
      (WithLp.toLp 2 (direction m C x)) (WithLp.toLp 2 x) := by
  have hcoords : HasFDerivAt (fun y : EuclideanSpace ℝ ι => y.ofLp)
      (PiLp.continuousLinearEquiv 2 ℝ fun _ : ι => ℝ).toContinuousLinearMap (WithLp.toLp 2 x) :=
    (PiLp.continuousLinearEquiv 2 ℝ fun _ : ι => ℝ).hasFDerivAt
  have hratio : HasFDerivAt (ratio m C) (dotL (direction m C x)) (WithLp.toLp 2 x).ofLp :=
    hasFDerivAt_ratio hC h
  rw [hasGradientAt_iff_hasFDerivAt]
  refine (hratio.comp _ hcoords).congr_fderiv (ContinuousLinearMap.ext fun v => ?_)
  rw [InnerProductSpace.toDual_apply_apply, EuclideanSpace.inner_eq_star_dotProduct]
  show dotL (direction m C x) v.ofLp = _
  rw [dotL_apply, dotProduct_comm]
  simp

/-! ## Steps -/

theorem quad_add (hC : C.IsSymm) (x v : ι → ℝ) :
    quad C (x + v) = quad C x + 2 * ((C *ᵥ x) ⬝ᵥ v) + quad C v := by
  unfold quad
  rw [Matrix.mulVec_add, dotProduct_add, add_dotProduct, add_dotProduct,
    dotProduct_mulVec_comm hC x v, dotProduct_comm v (C *ᵥ x)]
  ring

theorem quad_smul (r : ℝ) (x : ι → ℝ) : quad C (r • x) = r ^ 2 * quad C x := by
  unfold quad
  rw [Matrix.mulVec_smul, dotProduct_smul, smul_dotProduct, smul_eq_mul, smul_eq_mul]
  ring

section Step

variable {y : ι → ℝ}

/-- The Cauchy-Schwarz inequality of the form. -/
theorem dotProduct_le_sqrt_mul_sqrt (hC : C.IsSymm) (hpsd : ∀ v, 0 ≤ quad C v) (hx : 0 < quad C x)
    (hy : 0 < quad C y) : (C *ᵥ x) ⬝ᵥ y ≤ √(quad C x) * √(quad C y) := by
  set s := √(quad C x) with hs
  set t := √(quad C y) with ht
  have hspos : 0 < s := Real.sqrt_pos.mpr hx
  have htpos : 0 < t := Real.sqrt_pos.mpr hy
  have hsquare : quad C (t • x + (-s) • y) = 2 * (s * t) * (s * t - (C *ᵥ x) ⬝ᵥ y) := by
    rw [quad_add hC, quad_smul, quad_smul, Matrix.mulVec_smul, smul_dotProduct, dotProduct_smul,
      smul_eq_mul, smul_eq_mul, ← Real.sq_sqrt hx.le, ← Real.sq_sqrt hy.le, ← hs, ← ht]
    ring
  have hnonneg : 0 ≤ 2 * (s * t) * (s * t - (C *ᵥ x) ⬝ᵥ y) := hsquare ▸ hpsd _
  have hpos : 0 < 2 * (s * t) := by positivity
  exact sub_nonneg.mp (nonneg_of_mul_nonneg_right hnonneg hpos)

/-- The step in numbers: `a` and `b` are the linear form at `x` and along the step, `s` and `t` the
roots at `x` and `y`, `p` and `q` the bilinear and the quadratic form along the step. -/
theorem div_le_div_of_step {a b p q l s t eta : ℝ} (hs : 0 < s) (ht : 0 < t) (heta : 0 < eta)
    (hl : 0 ≤ l) (hquad : t ^ 2 = s ^ 2 + 2 * p + q) (hbilinear : s ^ 2 + p ≤ s * t)
    (hstep : l ≤ eta * (b / s - a / s ^ 3 * p)) (hsmall : eta * a * q ≤ 2 * s ^ 3 * l) :
    a / s ≤ (a + b) / t := by
  have hcube : 0 < s ^ 3 := pow_pos hs 3
  have hscaled : s ^ 3 * (b / s - a / s ^ 3 * p) = s ^ 2 * b - a * p := by field_simp
  have hlong : s ^ 3 * l ≤ eta * (s ^ 2 * b - a * p) := by
    rw [← hscaled, mul_left_comm]
    exact mul_le_mul_of_nonneg_left hstep hcube.le
  have hgain : 0 ≤ s ^ 2 * b - a * p :=
    nonneg_of_mul_nonneg_right ((mul_nonneg hcube.le hl).trans hlong) heta
  have hloss : a * q ≤ 2 * (s ^ 2 * b - a * p) := by
    refine le_of_mul_le_mul_left ?_ heta
    calc eta * (a * q) = eta * a * q := by ring
      _ ≤ 2 * (s ^ 3 * l) := by rw [← mul_assoc]; exact hsmall
      _ ≤ 2 * (eta * (s ^ 2 * b - a * p)) := by gcongr
      _ = eta * (2 * (s ^ 2 * b - a * p)) := by ring
  rw [div_le_div_iff₀ hs ht]
  rcases le_or_gt 0 a with ha | ha
  · -- the root is below its tangent
    have hroot : 2 * (s * t) ≤ 2 * s ^ 2 + 2 * p + q := by nlinarith [sq_nonneg (s - t)]
    refine le_of_mul_le_mul_left ?_ (mul_pos two_pos hs)
    calc 2 * s * (a * t) = a * (2 * (s * t)) := by ring
      _ ≤ a * (2 * s ^ 2 + 2 * p + q) := mul_le_mul_of_nonneg_left hroot ha
      _ ≤ 2 * s * ((a + b) * s) := by linarith
  · -- the root is above its tangent
    refine le_of_mul_le_mul_left ?_ hs
    calc s * (a * t) = a * (s * t) := by ring
      _ ≤ a * (s ^ 2 + p) := mul_le_mul_of_nonpos_left hbilinear ha.le
      _ ≤ s * ((a + b) * s) := by linarith

/-- A step that goes far enough along the direction for its length does not lower the ratio. -/
theorem ratio_le_ratio (hC : C.IsSymm) (hpsd : ∀ v, 0 ≤ quad C v) (hx : 0 < quad C x)
    (hy : 0 < quad C y) {eta : ℝ} (heta : 0 < eta)
    (hstep : (y - x) ⬝ᵥ (y - x) ≤ eta * (direction m C x ⬝ᵥ (y - x)))
    (hsmall : eta * (m ⬝ᵥ x) * quad C (y - x) ≤
      2 * √(quad C x) ^ 3 * ((y - x) ⬝ᵥ (y - x))) : ratio m C x ≤ ratio m C y := by
  have hlinear : m ⬝ᵥ y = m ⬝ᵥ x + m ⬝ᵥ (y - x) := by rw [← dotProduct_add, add_sub_cancel]
  have hform : (C *ᵥ x) ⬝ᵥ y = quad C x + (C *ᵥ x) ⬝ᵥ (y - x) := by
    rw [dotProduct_sub, dotProduct_comm (C *ᵥ x) x]
    exact (add_sub_cancel _ _).symm
  have hbilinear : √(quad C x) ^ 2 + (C *ᵥ x) ⬝ᵥ (y - x) ≤ √(quad C x) * √(quad C y) := by
    rw [Real.sq_sqrt hx.le, ← hform]
    exact dotProduct_le_sqrt_mul_sqrt hC hpsd hx hy
  have hquad : √(quad C y) ^ 2 =
      √(quad C x) ^ 2 + 2 * ((C *ᵥ x) ⬝ᵥ (y - x)) + quad C (y - x) := by
    rw [Real.sq_sqrt hx.le, Real.sq_sqrt hy.le, ← quad_add hC, add_sub_cancel]
  have hlength : 0 ≤ (y - x) ⬝ᵥ (y - x) := Finset.sum_nonneg fun i _ => mul_self_nonneg _
  rw [direction_dotProduct] at hstep
  unfold ratio
  rw [hlinear]
  exact div_le_div_of_step (Real.sqrt_pos.mpr hx) (Real.sqrt_pos.mpr hy) heta hlength hquad
    hbilinear hstep hsmall

end Step

/-! ## Small steps -/

theorem continuous_quad (C : Matrix ι ι ℝ) : Continuous (quad C) := by
  unfold quad dotProduct Matrix.mulVec dotProduct
  fun_prop

theorem continuousOn_direction (m : ι → ℝ) (C : Matrix ι ι ℝ) :
    ContinuousOn (direction m C) {x | 0 < quad C x} := by
  have hroot : ContinuousOn (fun x => √(quad C x)) {x | 0 < quad C x} :=
    (Real.continuous_sqrt.comp (continuous_quad C)).continuousOn
  have hne : ∀ x ∈ {x | 0 < quad C x}, √(quad C x) ≠ 0 :=
    fun x hx => (Real.sqrt_pos.mpr hx).ne'
  have hlinear : ContinuousOn (fun x => m ⬝ᵥ x) {x | 0 < quad C x} := by
    unfold dotProduct
    fun_prop
  refine continuousOn_pi.mpr fun i => ?_
  refine (continuousOn_const.div hroot hne).sub
    ((hlinear.div (hroot.pow 3) fun x hx => pow_ne_zero 3 (hne x hx)).mul ?_)
  unfold Matrix.mulVec dotProduct
  fun_prop

theorem exists_quad_le (C : Matrix ι ι ℝ) : ∃ L, 0 ≤ L ∧ ∀ v, quad C v ≤ L * (v ⬝ᵥ v) := by
  refine ⟨∑ i, ∑ j, |C i j|,
    Finset.sum_nonneg fun i _ => Finset.sum_nonneg fun j _ => abs_nonneg _, fun v => ?_⟩
  have hle : ∀ i, v i ^ 2 ≤ v ⬝ᵥ v := fun i => by
    rw [pow_two]
    exact Finset.single_le_sum (f := fun i => v i * v i) (fun j _ => mul_self_nonneg (v j))
      (Finset.mem_univ i)
  have hterm : ∀ i j, v i * (C i j * v j) ≤ |C i j| * (v ⬝ᵥ v) := by
    intro i j
    have hproduct : |v i * v j| ≤ v ⬝ᵥ v := by
      rw [abs_le]
      constructor <;> nlinarith [hle i, hle j, sq_nonneg (v i - v j), sq_nonneg (v i + v j)]
    calc v i * (C i j * v j) = C i j * (v i * v j) := by ring
      _ ≤ |C i j * (v i * v j)| := le_abs_self _
      _ = |C i j| * |v i * v j| := abs_mul _ _
      _ ≤ |C i j| * (v ⬝ᵥ v) := mul_le_mul_of_nonneg_left hproduct (abs_nonneg _)
  calc quad C v = ∑ i, ∑ j, v i * (C i j * v j) :=
        Finset.sum_congr rfl fun i _ => Finset.mul_sum _ _ _
    _ ≤ ∑ i, ∑ j, |C i j| * (v ⬝ᵥ v) :=
        Finset.sum_le_sum fun i _ => Finset.sum_le_sum fun j _ => hterm i j
    _ = (∑ i, ∑ j, |C i j|) * (v ⬝ᵥ v) := by
        simp only [Finset.sum_mul]

/-- Around a point where the form is above `c` the direction is bounded, and no small step that
goes far enough along the direction for its length lowers the ratio. -/
theorem exists_small_step (m : ι → ℝ) (hC : C.IsSymm) (hpsd : ∀ v, 0 ≤ quad C v) {u : ι → ℝ} {c : ℝ}
    (hc : 0 < c) (hu : c < quad C u) {R : ℝ} (hR : 0 < R) :
    ∃ r G eta₀ : ℝ, 0 < r ∧ r ≤ R ∧ 0 ≤ G ∧ 0 < eta₀ ∧
      (∀ x, dist x u ≤ r → c < quad C x ∧ ∀ i, |direction m C x i| ≤ G) ∧
      ∀ x y eta, dist x u ≤ r → dist y u ≤ r → 0 < eta → eta ≤ eta₀ →
        (y - x) ⬝ᵥ (y - x) ≤ eta * (direction m C x ⬝ᵥ (y - x)) → ratio m C x ≤ ratio m C y := by
  have hopen : IsOpen {x | c < quad C x} := isOpen_lt continuous_const (continuous_quad C)
  obtain ⟨ε, hε, hball⟩ := Metric.isOpen_iff.mp hopen u hu
  obtain ⟨L, hL, hquad⟩ := exists_quad_le C
  -- on a closed ball where the risk stays above `c`, everything is continuous, so bounded
  set r := min (ε / 2) R with hr
  have hrpos : 0 < r := lt_min (half_pos hε) hR
  have habove : ∀ x, dist x u ≤ r → c < quad C x := fun x hx =>
    hball (Metric.mem_ball.mpr (hx.trans_lt ((min_le_left _ _).trans_lt (half_lt_self hε))))
  have hcompact : IsCompact (Metric.closedBall u r) := isCompact_closedBall u r
  have hdirection : ContinuousOn (direction m C) (Metric.closedBall u r) :=
    (continuousOn_direction m C).mono fun x hx => hc.trans (habove x hx)
  have hlinear : Continuous fun x => m ⬝ᵥ x := by
    unfold dotProduct
    fun_prop
  obtain ⟨G, hG⟩ := hcompact.exists_bound_of_continuousOn hdirection
  obtain ⟨M, hM⟩ := hcompact.exists_bound_of_continuousOn hlinear.continuousOn
  have hu' : u ∈ Metric.closedBall u r := Metric.mem_closedBall_self hrpos.le
  have hGnonneg : 0 ≤ G := (norm_nonneg _).trans (hG u hu')
  have hMnonneg : 0 ≤ M := (norm_nonneg _).trans (hM u hu')
  have hroot : 0 < √c := Real.sqrt_pos.mpr hc
  refine ⟨r, G, 2 * √c ^ 3 / ((M + 1) * (L + 1)), hrpos, min_le_right _ _, hGnonneg,
    by positivity, fun x hx => ⟨habove x hx, fun i => ?_⟩, fun x y eta hx hy heta hle hstep => ?_⟩
  · exact (norm_le_pi_norm (direction m C x) i).trans (hG x hx)
  · refine ratio_le_ratio hC hpsd (hc.trans (habove x hx)) (hc.trans (habove y hy)) heta hstep ?_
    have hl : 0 ≤ (y - x) ⬝ᵥ (y - x) := Finset.sum_nonneg fun i _ => mul_self_nonneg _
    have hm : m ⬝ᵥ x ≤ M + 1 := by
      have := (le_abs_self _).trans (hM x hx)
      linarith
    have hq : quad C (y - x) ≤ (L + 1) * ((y - x) ⬝ᵥ (y - x)) := by
      have := hquad (y - x)
      linarith
    -- the loss of second order is below the gain of first order once `eta` is below the bound
    calc eta * (m ⬝ᵥ x) * quad C (y - x)
        ≤ eta * (M + 1) * quad C (y - x) :=
          mul_le_mul_of_nonneg_right (mul_le_mul_of_nonneg_left hm heta.le) (hpsd _)
      _ ≤ eta * (M + 1) * ((L + 1) * ((y - x) ⬝ᵥ (y - x))) :=
          mul_le_mul_of_nonneg_left hq (by positivity)
      _ = eta * ((M + 1) * (L + 1)) * ((y - x) ⬝ᵥ (y - x)) := by ring
      _ ≤ 2 * √c ^ 3 * ((y - x) ⬝ᵥ (y - x)) :=
          mul_le_mul_of_nonneg_right ((le_div_iff₀ (by positivity)).mp hle) hl
      _ ≤ 2 * √(quad C x) ^ 3 * ((y - x) ⬝ᵥ (y - x)) := by
          have := Real.sqrt_le_sqrt (habove x hx).le
          gcongr

end PortfolioEngine.RatioAscent
