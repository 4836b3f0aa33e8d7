import Mathlib.Analysis.SpecialFunctions.Sqrt
import Mathlib.Tactic.Linarith
import PortfolioEngine.Lib.ExactFloat

/-!
# The GARCH wrapper

`GARCHModel` of `forecasting/models/garch_model.py`, in exact arithmetic, over what it uses of the
`arch` package. Two factors stand between the returns and the data that are fitted: the scale of
the class itself, and the factor that `arch` picks because of `rescale=True`. The forecast variance
is in the units of the fitted data, and `predict` undoes the first factor only.

1. `fit_converged`: what a converged fit has stored.
2. `predict_eq`: the prediction is off by the factor that `arch` picked.
3. `predict_in_units_iff`: it is in the units of the returns exactly if that factor is 1.
-/

namespace PortfolioEngine.Garch

variable {K : Type*} [Field K] [LinearOrder K]

/-! ## The arch package -/

inductive Dist where
  | normal
  | t
  deriving DecidableEq

/-- A fitted model: its `convergence_flag`, if it has one, and the variance it forecasts at a
horizon, in the units of the data it was fitted on. The forecast can raise, and it need not be a
number. -/
structure Fitted (K : Type*) where
  convergenceFlag : Option ℤ
  forecast : ℕ → Except String (Flt K)

/-- The mean of the squared deviations. -/
def sumSqDev (xs : List K) : K := (xs.map fun x => (x - xs.sum / xs.length) ^ 2).sum

/-- `np.var`. -/
def variance (xs : List K) : K := sumSqDev xs / xs.length

/-- What is used of `arch`: the factor that `rescale=True` picks for data of a variance, and the
fit of the data as they are, which can raise. -/
structure Arch (K : Type*) [Field K] [LinearOrder K] where
  kappa : K → K
  kappa_pow : ∀ x, ∃ z : ℤ, kappa x = 10 ^ z
  kappa_eq_one : ∀ x, 0 < x → (kappa x = 1 ↔ 0.1 ≤ x ∧ x < 10000)
  fit : List K → Dist → Except String (Fitted K)

/-- The fit of `arch_model(data, .., dist=dist, rescale=True)`. -/
def Arch.fitRescaled (arch : Arch K) (data : List K) (dist : Dist) : Except String (Fitted K) :=
  arch.fit (data.map fun x => x * arch.kappa (variance data)) dist

/-! ## The code -/

/-- `GARCHModel`, without the attribute `model`, which nothing reads. -/
structure GARCHModel (K : Type*) where
  fitted : Option (Fitted K)
  scale : K
  fallbackVol : Option K

/-- `clean[np.isfinite(clean)]`. -/
def finiteReturns (returns : List (Flt K)) : List K := returns.filterMap Flt.toFin?

/-- `clean - np.mean(clean)`. -/
def demean (clean : List K) : List K := clean.map fun x => x - clean.sum / clean.length

/-- `np.std(clean, ddof=1)`. -/
def sampleStd (sqrt : K → K) (clean : List K) : K :=
  if 1 < clean.length then sqrt (sumSqDev clean / (clean.length - 1)) else 0

/-- The scale of the class, for demeaned returns. -/
def internalScale (sqrt : K → K) (clean : List K) : K :=
  if sampleStd sqrt clean < 1e-4 then 1e4 else 1

/-- `scaled`. -/
def scaledReturns (sqrt : K → K) (clean : List K) : List K :=
  clean.map fun x => x * internalScale sqrt clean

/-- The loop over the distributions: the first fit that converges. -/
def firstConverged (fit : Dist → Except String (Fitted K)) : List Dist → Option (Fitted K)
  | [] => none
  | dist :: attempts =>
    match fit dist with
    | .ok fitted =>
      if fitted.convergenceFlag.getD 0 = 0 then some fitted else firstConverged fit attempts
    | .error _ => firstConverged fit attempts

/-- `GARCHModel.fit`. -/
def GARCHModel.fit (sqrt : K → K) (arch : Arch K) (returns : Option (List (Flt K))) :
    Except String (GARCHModel K) :=
  match returns with
  | none => .error "Not enough return observations to fit GARCH"
  | some returns =>
    if returns.length < 20 then .error "Not enough return observations to fit GARCH"
    else
      let clean := finiteReturns returns
      if clean.length < 20 then .error "Not enough finite return observations to fit GARCH"
      else
        let clean := demean clean
        if sampleStd sqrt clean ≤ 1e-12 then .ok ⟨none, 1, some 0⟩
        else
          let scale := internalScale sqrt clean
          match firstConverged (arch.fitRescaled (scaledReturns sqrt clean)) [.normal, .t] with
          | some fitted => .ok ⟨some fitted, scale, none⟩
          | none => .ok ⟨none, scale, some (sampleStd sqrt clean)⟩

/-- `max(x, 0.0)`, which leaves NaN as it is. -/
def maxZero (x : Flt K) : Flt K := if x < .fin 0 then .fin 0 else x

/-- `np.sqrt`. -/
def npSqrt (sqrt : K → K) : Flt K → Flt K
  | .fin x => if x < 0 then .nan else .fin (sqrt x)
  | .inf => .inf
  | _ => .nan

/-- `GARCHModel.predict`. -/
def GARCHModel.predict (sqrt : K → K) (m : GARCHModel K) (steps : ℕ) : Except String (Flt K) :=
  match m.fitted with
  | none =>
    match m.fallbackVol with
    | some vol => .ok (maxZero (.fin vol))
    | none => .error "GARCH model not fitted"
  | some fitted =>
    (fitted.forecast steps).map fun raw =>
      let variance := if raw < .fin 0 then .fin 0 else raw
      let unscaled := variance.div (.fin (m.scale ^ 2))
      npSqrt sqrt (maxZero unscaled)

/-! ## Deviations -/

section Deviations

variable [IsStrictOrderedRing K]

theorem sumSqDev_nonneg (xs : List K) : 0 ≤ sumSqDev xs := by
  unfold sumSqDev
  refine List.sum_nonneg fun y hy => ?_
  obtain ⟨x, _, rfl⟩ := List.mem_map.mp hy
  exact sq_nonneg _

omit [LinearOrder K] [IsStrictOrderedRing K] in
theorem sumSqDev_map_mul (xs : List K) (c : K) :
    sumSqDev (xs.map fun x => x * c) = c ^ 2 * sumSqDev xs := by
  unfold sumSqDev
  rw [List.sum_map_mul_right, List.map_id', List.length_map, List.map_map, ← List.sum_map_mul_left]
  refine congrArg List.sum (List.map_congr_left fun x _ => ?_)
  simp only [Function.comp_apply]
  ring

end Deviations

/-! ## A converged fit -/

/-- The demeaned returns that a fit works on. -/
def cleanReturns (returns : List (Flt K)) : List K := demean (finiteReturns returns)

/-- The factor that `arch` picks for the returns. -/
def archFactor (sqrt : K → K) (arch : Arch K) (returns : List (Flt K)) : K :=
  arch.kappa (variance (scaledReturns sqrt (cleanReturns returns)))

/-- A forecast variance in the units of the returns: both factors undone. -/
def rawVariance (sqrt : K → K) (arch : Arch K) (returns : List (Flt K)) (v : K) : K :=
  v / (archFactor sqrt arch returns * internalScale sqrt (cleanReturns returns)) ^ 2

theorem fit_converged {sqrt : K → K} {arch : Arch K} {returns : List (Flt K)} {m : GARCHModel K}
    {fitted : Fitted K} (h : GARCHModel.fit sqrt arch (some returns) = .ok m)
    (hm : m.fitted = some fitted) :
    1e-12 < sampleStd sqrt (cleanReturns returns) ∧
      m.scale = internalScale sqrt (cleanReturns returns) := by
  unfold GARCHModel.fit at h
  dsimp only at h
  split_ifs at h with hlen hclean hstd
  · cases h
    cases hm
  · refine ⟨not_le.mp hstd, ?_⟩
    split at h
    · cases h
      rfl
    · cases h
      cases hm

theorem internalScale_pos [IsStrictOrderedRing K] (sqrt : K → K) (clean : List K) :
    0 < internalScale sqrt clean := by
  unfold internalScale
  split_ifs <;> norm_num

theorem archFactor_pos [IsStrictOrderedRing K] (sqrt : K → K) (arch : Arch K)
    (returns : List (Flt K)) : 0 < archFactor sqrt arch returns := by
  obtain ⟨z, hz⟩ := arch.kappa_pow (variance (scaledReturns sqrt (cleanReturns returns)))
  unfold archFactor
  rw [hz]
  positivity

theorem variance_scaledReturns_pos {clean : List ℝ} (h : 1e-12 < sampleStd Real.sqrt clean) :
    0 < variance (scaledReturns Real.sqrt clean) := by
  have hstd : 0 < sampleStd Real.sqrt clean := lt_trans (by norm_num) h
  unfold sampleStd at hstd
  split_ifs at hstd with hlen
  · have hlen' : (1 : ℝ) < clean.length := by exact_mod_cast hlen
    have hdev : 0 < sumSqDev clean := by
      have hquot := Real.sqrt_pos.mp hstd
      rcases (sumSqDev_nonneg clean).eq_or_lt with h0 | hpos
      · rw [← h0, zero_div] at hquot
        exact absurd hquot (lt_irrefl 0)
      · exact hpos
    have hscale := internalScale_pos Real.sqrt clean
    unfold variance scaledReturns
    rw [sumSqDev_map_mul, List.length_map]
    positivity
  · exact absurd hstd (lt_irrefl 0)

section Predict

variable {arch : Arch ℝ} {returns : List (Flt ℝ)} {m : GARCHModel ℝ} {fitted : Fitted ℝ}
  (h : GARCHModel.fit Real.sqrt arch (some returns) = .ok m) (hm : m.fitted = some fitted)

theorem rawVariance_nonneg_iff (arch : Arch ℝ) (returns : List (Flt ℝ)) {v : ℝ} :
    0 ≤ rawVariance Real.sqrt arch returns v ↔ 0 ≤ v := by
  have hfactor := mul_pos (archFactor_pos Real.sqrt arch returns)
    (internalScale_pos Real.sqrt (cleanReturns returns))
  exact le_div_iff₀ (pow_pos hfactor 2) |>.trans (by rw [zero_mul])

include h hm in
/-- The prediction is the volatility in the units of the returns, times the factor of `arch`. -/
theorem predict_eq {steps : ℕ} {v : ℝ} (hv : fitted.forecast steps = .ok (.fin v))
    (hnonneg : 0 ≤ v) : m.predict Real.sqrt steps =
      .ok (.fin (archFactor Real.sqrt arch returns *
        Real.sqrt (rawVariance Real.sqrt arch returns v))) := by
  obtain ⟨_, hscale⟩ := fit_converged h hm
  have hfactor := archFactor_pos Real.sqrt arch returns
  have hinternal := internalScale_pos Real.sqrt (cleanReturns returns)
  have hunscaled : v / m.scale ^ 2 = archFactor Real.sqrt arch returns ^ 2 *
      rawVariance Real.sqrt arch returns v := by
    rw [hscale]
    unfold rawVariance
    field_simp
  have hunscaled_nonneg : 0 ≤ v / m.scale ^ 2 := div_nonneg hnonneg (sq_nonneg _)
  have hscale_ne : m.scale ^ 2 ≠ 0 := by
    rw [hscale]
    exact (pow_pos hinternal 2).ne'
  have hvariance : (if Flt.fin v < .fin 0 then Flt.fin 0 else .fin v) = .fin v :=
    if_neg (not_lt.mpr hnonneg)
  have hmax : maxZero (.fin (v / m.scale ^ 2)) = .fin (v / m.scale ^ 2) :=
    if_neg (not_lt.mpr hunscaled_nonneg)
  have hroot : npSqrt Real.sqrt (.fin (v / m.scale ^ 2)) = .fin (Real.sqrt (v / m.scale ^ 2)) :=
    if_neg (not_lt.mpr hunscaled_nonneg)
  unfold GARCHModel.predict
  rw [hm]
  dsimp only
  rw [hv, Except.map, hvariance, Flt.div_fin hscale_ne, hmax, hroot, hunscaled,
    Real.sqrt_mul (sq_nonneg _), Real.sqrt_sq hfactor.le]

include h hm in
theorem archFactor_eq_one_iff : archFactor Real.sqrt arch returns = 1 ↔
    0.1 ≤ variance (scaledReturns Real.sqrt (cleanReturns returns)) ∧
      variance (scaledReturns Real.sqrt (cleanReturns returns)) < 10000 :=
  arch.kappa_eq_one _ (variance_scaledReturns_pos (fit_converged h hm).1)

end Predict

theorem mul_sqrt_eq_iff {a b v : ℝ} (hv : 0 ≤ v) :
    a * Real.sqrt v = b * Real.sqrt v ↔ a = b ∨ v = 0 := by
  rw [mul_eq_mul_right_iff, Real.sqrt_eq_zero hv]

theorem ok_fin_inj {a b : ℝ} :
    (Except.ok (.fin a) : Except String (Flt ℝ)) = .ok (.fin b) ↔ a = b := by
  rw [Except.ok.injEq, Flt.fin.injEq]

/-- **The units of a forecast.** After a converged fit that forecasts a variance, the prediction is
in the units of the returns exactly if the variance of the scaled returns is one that `arch` leaves
alone, or the forecast variance is zero; and a factor on the returns comes out as the same factor
on the prediction exactly if `arch` picks the same factor for both, or the forecast variance is
zero. -/
theorem predict_in_units_iff (arch : Arch ℝ) {returns : List (Flt ℝ)} {m : GARCHModel ℝ}
    {fitted : Fitted ℝ} {v : ℝ} (h : GARCHModel.fit Real.sqrt arch (some returns) = .ok m)
    (hm : m.fitted = some fitted) (hv : fitted.forecast 1 = .ok (.fin v)) (hnonneg : 0 ≤ v) :
    (m.predict Real.sqrt 1 = .ok (.fin (Real.sqrt (rawVariance Real.sqrt arch returns v))) ↔
      (0.1 ≤ variance (scaledReturns Real.sqrt (cleanReturns returns)) ∧
        variance (scaledReturns Real.sqrt (cleanReturns returns)) < 10000) ∨
      rawVariance Real.sqrt arch returns v = 0) ∧
    ∀ (c : ℝ) (m' : GARCHModel ℝ) (fitted' : Fitted ℝ) (v' : ℝ), 0 < c →
      GARCHModel.fit Real.sqrt arch (some (returns.map (Flt.mul (.fin c)))) = .ok m' →
      m'.fitted = some fitted' → fitted'.forecast 1 = .ok (.fin v') →
      rawVariance Real.sqrt arch (returns.map (Flt.mul (.fin c))) v' =
        c ^ 2 * rawVariance Real.sqrt arch returns v →
      (m'.predict Real.sqrt 1 = (m.predict Real.sqrt 1).map (Flt.mul (.fin c)) ↔
        archFactor Real.sqrt arch (returns.map (Flt.mul (.fin c))) =
          archFactor Real.sqrt arch returns ∨
        rawVariance Real.sqrt arch returns v = 0) := by
  have hraw := (rawVariance_nonneg_iff arch returns).mpr hnonneg
  refine ⟨?_, fun c m' fitted' v' hc h' hm' hv' hscaled => ?_⟩
  · rw [predict_eq h hm hv hnonneg, ← archFactor_eq_one_iff h hm, ok_fin_inj]
    conv_lhs => rhs; rw [← one_mul (Real.sqrt _)]
    exact mul_sqrt_eq_iff hraw
  · have hnonneg' : 0 ≤ v' := by
      rw [← rawVariance_nonneg_iff arch, hscaled]
      exact mul_nonneg (sq_nonneg c) hraw
    rw [predict_eq h' hm' hv' hnonneg', predict_eq h hm hv hnonneg, hscaled,
      Real.sqrt_mul (sq_nonneg c), Real.sqrt_sq hc.le]
    refine ok_fin_inj.trans ?_
    rw [mul_left_comm, mul_right_inj' hc.ne']
    exact mul_sqrt_eq_iff hraw

/-! ## Returns of a tenth of a percent -/

/-- An `arch` that picks 1000 outside its range, as the real one does for a variance of `1e-6`, and
forecasts the variance of its data. -/
noncomputable def sampleArch : Arch ℝ where
  kappa x := if 0.1 ≤ x ∧ x < 10000 then 1 else 1000
  kappa_pow x := by
    split_ifs
    · exact ⟨0, by norm_num⟩
    · exact ⟨3, by norm_num⟩
  kappa_eq_one x _ := by
    split_ifs with h
    · simp [h]
    · simp [h]
  fit data _ := .ok ⟨some 0, fun _ => .ok (.fin (variance data))⟩

/-- Twenty returns, up and down by 0.001 in turn. -/
noncomputable def sampleReturns : List (Flt ℝ) :=
  (List.range 20).map fun i => .fin (if i % 2 = 0 then 1 / 1000 else -1 / 1000)

theorem cleanReturns_sample : cleanReturns sampleReturns =
    (List.range 20).map fun i => if i % 2 = 0 then 1 / 1000 else -1 / 1000 := by
  simp [cleanReturns, demean, finiteReturns, sampleReturns, List.range_succ]
  norm_num

theorem sumSqDev_sample : sumSqDev (cleanReturns sampleReturns) = 1 / 50000 := by
  rw [cleanReturns_sample]
  simp [sumSqDev, List.range_succ]
  norm_num

theorem length_sample : (cleanReturns sampleReturns).length = 20 := by
  rw [cleanReturns_sample, List.length_map, List.length_range]

theorem sampleStd_sample : 1e-4 ≤ sampleStd Real.sqrt (cleanReturns sampleReturns) := by
  unfold sampleStd
  rw [if_pos (by rw [length_sample]; decide), sumSqDev_sample, length_sample]
  exact Real.le_sqrt_of_sq_le (by norm_num)

theorem internalScale_sample : internalScale Real.sqrt (cleanReturns sampleReturns) = 1 := by
  unfold internalScale
  rw [if_neg (not_lt.mpr sampleStd_sample)]

theorem variance_sample :
    variance (scaledReturns Real.sqrt (cleanReturns sampleReturns)) = 1 / 1000000 := by
  unfold variance scaledReturns
  rw [sumSqDev_map_mul, List.length_map, internalScale_sample, sumSqDev_sample, length_sample]
  norm_num

theorem archFactor_sample : archFactor Real.sqrt sampleArch sampleReturns = 1000 := by
  unfold archFactor
  rw [variance_sample]
  show (if (0.1 : ℝ) ≤ 1 / 1000000 ∧ (1 : ℝ) / 1000000 < 10000 then (1 : ℝ) else 1000) = 1000
  rw [if_neg (by norm_num)]

/-- The sample fit converges, with the variance of data that are 1000 times the returns. -/
theorem fit_sample : ∃ m fitted, GARCHModel.fit Real.sqrt sampleArch (some sampleReturns) = .ok m ∧
    m.fitted = some fitted ∧ fitted.forecast 1 = .ok (.fin 1) := by
  have hlen : ¬ sampleReturns.length < 20 := by
    unfold sampleReturns
    rw [List.length_map, List.length_range]
    exact lt_irrefl 20
  have hfinite : ¬ (finiteReturns sampleReturns).length < 20 := by
    have := length_sample
    unfold cleanReturns demean at this
    rw [List.length_map] at this
    rw [this]
    exact lt_irrefl 20
  have hstd : ¬ sampleStd Real.sqrt (demean (finiteReturns sampleReturns)) ≤ 1e-12 :=
    not_le.mpr (lt_of_lt_of_le (by norm_num) sampleStd_sample)
  unfold GARCHModel.fit
  dsimp only
  rw [if_neg hlen, if_neg hfinite, if_neg hstd]
  refine ⟨_, _, rfl, rfl, congrArg (fun v : ℝ => Except.ok (Flt.fin v)) ?_⟩
  show variance ((scaledReturns Real.sqrt (cleanReturns sampleReturns)).map fun x =>
    x * archFactor Real.sqrt sampleArch sampleReturns) = 1
  unfold variance
  have hvar := variance_sample
  unfold variance at hvar
  rw [sumSqDev_map_mul, List.length_map, mul_div_assoc, hvar, archFactor_sample]
  norm_num

/-- The equivalence for the sample. -/
theorem predict_in_units_iff_sample : ∃ m : GARCHModel ℝ,
    (m.predict Real.sqrt 1 =
        .ok (.fin (Real.sqrt (rawVariance Real.sqrt sampleArch sampleReturns 1))) ↔
      (0.1 ≤ variance (scaledReturns Real.sqrt (cleanReturns sampleReturns)) ∧
        variance (scaledReturns Real.sqrt (cleanReturns sampleReturns)) < 10000) ∨
      rawVariance Real.sqrt sampleArch sampleReturns 1 = 0) := by
  obtain ⟨m, fitted, hfit, hm, hv⟩ := fit_sample
  exact ⟨m, (predict_in_units_iff sampleArch hfit hm hv zero_le_one).1⟩

/-- The prediction for the sample is 1000 times its volatility. -/
theorem percentReturns_off_by_1000 : ¬ ∀ (arch : Arch ℝ) (returns : List (Flt ℝ)) (m : GARCHModel ℝ)
    (fitted : Fitted ℝ) (v : ℝ), GARCHModel.fit Real.sqrt arch (some returns) = .ok m →
      m.fitted = some fitted → fitted.forecast 1 = .ok (.fin v) → 0 ≤ v →
      m.predict Real.sqrt 1 = .ok (.fin (Real.sqrt (rawVariance Real.sqrt arch returns v))) := by
  intro hall
  obtain ⟨m, fitted, hfit, hm, hv⟩ := fit_sample
  have hunits := hall sampleArch sampleReturns m fitted 1 hfit hm hv zero_le_one
  have hraw : rawVariance Real.sqrt sampleArch sampleReturns 1 = 1 / 1000000 := by
    unfold rawVariance
    rw [archFactor_sample, internalScale_sample]
    norm_num
  have hpos : 0 < Real.sqrt (1 / 1000000) := Real.sqrt_pos.mpr (by norm_num)
  rw [predict_eq hfit hm hv zero_le_one, hraw, archFactor_sample, ok_fin_inj] at hunits
  linarith

end PortfolioEngine.Garch
