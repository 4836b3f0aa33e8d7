import Mathlib.Data.Rat.Sqrt
import PortfolioEngine.Portfolio.RunRebalance

/-!
# Volatilities that cannot be used

`_run_rebalance` leaves out the inverse-volatility weights if a volatility is not above 0. The
comparison is false for NaN, and `inverse_vol_weights` takes NaN for the smallest volatility.

`optimizer_only_iff`: for given forecasts, an unusable volatility always leaves the weights to the
optimizer, if and only if none is unusable or one is at most 0.
-/

namespace PortfolioEngine.RunRebalance

open Estimates Allocator
open Forecasting (ForecastRow)

variable {K : Type*} [Field K] [LinearOrder K] {n : ℕ}

/-! ## The volatilities and the weights of the optimizer -/

/-- A strictly positive number. -/
def Usable (vol : Flt K) : Prop := ∃ x, 0 < x ∧ vol = .fin x

/-- `model_vols`, from the rows of `forecasts`. -/
def modelVols (symbols : Fin n → Symbol) (forecasts : List (ForecastRow K)) (asOf : ℤ) :
    Fin n → Flt K :=
  let rows := (latestPerSymbol symbols ForecastRow.symbol ForecastRow.time
    (fun r => r.garchVol.isSome || r.xgbVol.isSome) asOf forecasts).map
      fun r => (r.symbol, ⟨r.garchVol, r.xgbVol⟩)
  chooseTargetVols (fun symbol => rows.lookup symbol) symbols

/-- `mu`. -/
def rebalanceMu (log : Flt K → Flt K) (cfg : Config K n) (s : Snapshot K) : Fin n → K :=
  estimateMu log (quotesSince cfg.symbols s.prices
    (s.returnClock - cfg.returnLookbackMinutes * minute)) cfg.symbols

/-- `cov`. -/
def rebalanceCov (log : Flt K → Flt K) (cfg : Config K n) (s : Snapshot K) :
    Matrix (Fin n) (Fin n) K :=
  estimateCovariance log (quotesSince cfg.symbols s.prices
    (s.covarianceClock - cfg.covarianceLookbackDays * day)) cfg.symbols
    cfg.diagonalShrinkageLambda

/-- `weights_opt`. -/
def weightsOpt (log : Flt K → Flt K) (sqrt : K → K) (cfg : Config K n) (s : Snapshot K) :
    Option (Fin n → K) := do
  let weights ← optimizeSharpeProxy sqrt (rebalanceMu log cfg s) (rebalanceCov log cfg s)
    cfg.weightCap cfg.maxOptIters.toNat cfg.optStepSize
  guardOptimized weights

/-- The weights that are stored are those of the optimizer alone. -/
def OptimizerOnly (log : Flt K → Flt K) (sqrt : K → K) (cfg : Config K n) (s : Snapshot K)
    (p : Outputs.Payload K) : Prop :=
  ∃ w, weightsOpt log sqrt cfg s = some w ∧
    p.weights = Dict.ofPairs (List.ofFn fun i => (cfg.symbols i, .fin (w i)))

/-! ## What a rebalance stores -/

section Stored

variable {log : Flt K → Flt K} {sqrt : K → K} {cfg : Config K n} {s : Snapshot K}

theorem allocate_eq {adapts : Param K → Bool} (hadapts : AdaptsPlain adapts) :
    allocate adapts log sqrt cfg s =
      (orZeroDivision (finalWeights sqrt (rebalanceMu log cfg s) (rebalanceCov log cfg s)
        (modelVols cfg.symbols s.forecasts (truncMinute s.clock)) cfg.weightCap
        cfg.maxOptIters.toNat cfg.optStepSize)).map
          fun weights => ⟨rebalanceMu log cfg s, rebalanceCov log cfg s, weights⟩ := by
  unfold allocate fetchReturnHistory fetchShortReturnHistory fetchLatestForecasts
  rw [hadapts.execute rfl, ok_bind, hadapts.execute rfl, ok_bind, hadapts.execute rfl, ok_bind]
  rfl

theorem weights_of_computePayload {table : List (Ledger.PortfolioRow (Flt K))}
    {p : Outputs.Payload K} (h : computePayload psycopg log sqrt cfg s table = .ok p) :
    ∃ w, finalWeights sqrt (rebalanceMu log cfg s) (rebalanceCov log cfg s)
        (modelVols cfg.symbols s.forecasts (truncMinute s.clock)) cfg.weightCap
        cfg.maxOptIters.toNat cfg.optStepSize = some w ∧
      p.weights = Dict.ofPairs (List.ofFn fun i => (cfg.symbols i, .fin (w i))) := by
  unfold computePayload at h
  obtain ⟨a, ha, h⟩ := exists_ok_of_bind h
  obtain ⟨state, _, h⟩ := exists_ok_of_bind h
  obtain ⟨periodReturns, _, h⟩ := exists_ok_of_bind h
  obtain ⟨pSharpe, _, h⟩ := exists_ok_of_bind h
  rw [allocate_eq fun _ hp => hp] at ha
  cases hw : finalWeights sqrt (rebalanceMu log cfg s) (rebalanceCov log cfg s)
      (modelVols cfg.symbols s.forecasts (truncMinute s.clock)) cfg.weightCap
      cfg.maxOptIters.toNat cfg.optStepSize with
  | none =>
    rw [hw] at ha
    cases ha
  | some w =>
    rw [hw] at ha
    cases ha
    cases h
    exact ⟨w, rfl, rfl⟩

theorem exists_payload [IsStrictOrderedRing K] (hsqrt : ∀ x, 0 < x → 0 < sqrt x) (hn : 0 < n)
    (hcap : 0 < cfg.weightCap) (log : Flt K → Flt K) (table : List (Ledger.PortfolioRow (Flt K)))
    (hsome : ∀ r ∈ s.prices, r.close ≠ none) :
    ∃ p, computePayload psycopg log sqrt cfg s table = .ok p := by
  have hplain : AdaptsPlain (psycopg : Param K → Bool) := fun _ hp => hp
  rcases computePayload_spec hplain hsqrt hn hcap s table with ⟨⟨p, hp, _⟩, _⟩ | ⟨_, hnull⟩
  · exact ⟨p, hp⟩
  · exact absurd hnull (not_or.mpr ⟨not_seesNull hsome, not_seesNull hsome⟩)

theorem weightsOpt_of_nonpos {vols : Fin n → Flt K} {w : Fin n → K}
    (h : finalWeights sqrt (rebalanceMu log cfg s) (rebalanceCov log cfg s) vols cfg.weightCap
      cfg.maxOptIters.toNat cfg.optStepSize = some w) (hvols : ∃ i, vols i ≤ .fin 0) :
    weightsOpt log sqrt cfg s = some w := by
  unfold finalWeights at h
  obtain ⟨a, ha, h⟩ := Option.bind_eq_some_iff.mp h
  obtain ⟨b, hb, h⟩ := Option.bind_eq_some_iff.mp h
  obtain ⟨c, hc, h⟩ := Option.bind_eq_some_iff.mp h
  rw [if_pos hvols] at h
  unfold weightsOpt
  rw [ha]
  exact hb.trans h

end Stored

/-! ## A rebalance without prices -/

section Quiet

/-- A cap a little below equal weights. -/
def stillCap (K : Type*) [Field K] (n : ℕ) : K := (1 - 5e-6) / n

variable {symbols : Fin n → Symbol}

/-- One step of size 0. -/
def stillConfig (K : Type*) [Field K] (h : Function.Injective symbols) : Config K n where
  symbols := symbols
  covarianceLookbackDays := 0
  returnLookbackMinutes := 0
  diagonalShrinkageLambda := 0
  maxOptIters := 1
  optStepSize := 0
  weightCap := stillCap K n
  turnoverFeeRate := 0
  distinct := h

/-- The forecasts, without any price. -/
def emptySnapshot {forecasts : List (ForecastRow K)} (h : (forecasts.map ForecastRow.key).Nodup)
    (clock : ℤ) : Snapshot K where
  prices := []
  forecasts := forecasts
  clock := clock
  covarianceClock := clock
  returnClock := clock
  uniquePrices := List.nodup_nil
  uniqueForecasts := h

variable [IsStrictOrderedRing K]

theorem stillCap_pos (hn : 0 < n) : 0 < stillCap K n :=
  div_pos (by norm_num) (Nat.cast_pos.mpr hn)

theorem sum_stillCap (hn : 0 < n) : ∑ _i : Fin n, stillCap K n = 1 - 5e-6 := by
  have hne : (n : K) ≠ 0 := Nat.cast_ne_zero.mpr hn.ne'
  unfold stillCap
  rw [Finset.sum_const, Finset.card_univ, Fintype.card_fin, nsmul_eq_mul, mul_div_cancel₀ _ hne]

theorem stillCap_invested (hn : 0 < n) : Invested fun _ : Fin n => stillCap K n where
  nonneg _ := (stillCap_pos hn).le
  sum_close := by
    rw [sum_stillCap hn, abs_le]
    constructor <;> norm_num

/-- Clipped equal weights are left as they are, as their sum is close to 1. -/
theorem projectWeights_uniform (hn : 0 < n) :
    projectWeights (fun _ : Fin n => 1 / (n : K)) (stillCap K n) defaultMaxIter =
      some fun _ => stillCap K n := by
  have hle : stillCap K n ≤ 1 / n := div_le_div_of_nonneg_right (by norm_num) (Nat.cast_nonneg n)
  have hclip : clip (stillCap K n) (fun _ : Fin n => 1 / (n : K)) = fun _ => stillCap K n := by
    funext i
    unfold clip
    rw [max_eq_left ((stillCap_pos hn).le.trans hle), min_eq_right hle]
  have hclose : isCloseToOne (∑ _i : Fin n, stillCap K n) :=
    (isCloseToOne_iff _).mpr (stillCap_invested hn).sum_close
  unfold projectWeights
  dsimp only
  rw [hclip, if_pos hclose]

theorem optimizeSharpeProxy_still {sqrt : K → K} (hsqrt : ∀ x, 0 < x → 0 < sqrt x) (hn : 0 < n)
    (mu : Fin n → K) (cov : Matrix (Fin n) (Fin n) K) :
    optimizeSharpeProxy sqrt mu cov (stillCap K n) 1 0 = some fun _ => stillCap K n := by
  obtain ⟨g, hg⟩ := gradient_spec hsqrt mu cov fun _ => 1 / (n : K)
  have hstep : (fun i => 1 / (n : K) + 0 * g i) = fun _ => 1 / (n : K) := by
    funext i
    rw [zero_mul, add_zero]
  unfold optimizeSharpeProxy
  rw [if_neg hn.ne', (uniform_spec hn).1, Option.bind_eq_bind, Option.bind_some]
  unfold ascend
  rw [hg, Option.bind_eq_bind, Option.bind_some]
  dsimp only
  rw [hstep, projectWeights_uniform hn]
  rfl

/-- The weights of the optimizer do not sum to 1 there, and every blend does. -/
theorem blend_stored (log : Flt K → Flt K) {sqrt : K → K} (hsqrt : ∀ x, 0 < x → 0 < sqrt x)
    (hn : 0 < n) (h : Function.Injective symbols) {forecasts : List (ForecastRow K)}
    (hforecasts : (forecasts.map ForecastRow.key).Nodup) (clock : ℤ)
    (hvols : ¬∃ i, modelVols symbols forecasts (truncMinute clock) i ≤ .fin 0) :
    ∃ p, computePayload psycopg log sqrt (stillConfig K h) (emptySnapshot hforecasts clock) [] =
        .ok p ∧ ¬OptimizerOnly log sqrt (stillConfig K h) (emptySnapshot hforecasts clock) p := by
  set cfg := stillConfig K h with hcfg
  set s := emptySnapshot hforecasts clock with hs
  have hcap : 0 < cfg.weightCap := stillCap_pos hn
  have hopt : optimizeSharpeProxy sqrt (rebalanceMu log cfg s) (rebalanceCov log cfg s)
      cfg.weightCap cfg.maxOptIters.toNat cfg.optStepSize = some fun _ => stillCap K n :=
    optimizeSharpeProxy_still hsqrt hn _ _
  obtain ⟨b, hb, hinvested⟩ := inverseVolWeights_invested hn hcap.le
    (modelVols symbols forecasts (truncMinute clock))
  obtain ⟨v, hv, _, hsum⟩ := blend_spec (stillCap_invested hn) hinvested
  have hfinal := finalWeights_eq hopt (fun _ => (stillCap_pos hn).le) hb
  rw [if_neg hvols, hv] at hfinal
  obtain ⟨p, hp⟩ := exists_payload (s := s) hsqrt hn hcap log [] fun r hr =>
    absurd hr List.not_mem_nil
  refine ⟨p, hp, ?_⟩
  rintro ⟨w, hw, hstored⟩
  obtain ⟨v', hv', hweights⟩ := weights_of_computePayload hp
  obtain rfl : v' = v := Option.some.inj (hv'.symm.trans hfinal)
  have hwopt : weightsOpt log sqrt cfg s = some fun _ => stillCap K n := by
    unfold weightsOpt
    rw [hopt]
    exact guardOptimized_eq fun _ => (stillCap_pos hn).le
  obtain rfl : w = fun _ => stillCap K n := Option.some.inj (hw.symm.trans hwopt)
  have hsame := Dict.ofPairs_ofFn_injective cfg.distinct (hweights.symm.trans hstored)
  have heq : ∑ i, v' i = ∑ _i : Fin n, stillCap K n :=
    Finset.sum_congr rfl fun i _ => Flt.fin.inj (congrFun hsame i)
  rw [hsum, sum_stillCap hn] at heq
  norm_num at heq

end Quiet

/-- **Unusable volatilities.** For given forecasts, every rebalance that meets an unusable
volatility stores the weights of the optimizer alone, if and only if all volatilities are usable or
one is at most 0: with a NaN and no such one the blend is stored. -/
theorem optimizer_only_iff [IsStrictOrderedRing K] {sqrt : K → K}
    (hsqrt : ∀ x, 0 < x → 0 < sqrt x) (log : Flt K → Flt K) {symbols : Fin n → Symbol}
    (hsymbols : Function.Injective symbols) {forecasts : List (ForecastRow K)}
    (hforecasts : (forecasts.map ForecastRow.key).Nodup) (clock : ℤ) :
    let vols := modelVols symbols forecasts (truncMinute clock)
    (∀ (cfg : Config K n) (s : Snapshot K) table p, cfg.symbols = symbols →
        s.forecasts = forecasts → s.clock = clock →
        computePayload psycopg log sqrt cfg s table = .ok p → (∃ i, ¬Usable (vols i)) →
        OptimizerOnly log sqrt cfg s p) ↔
      (∀ i, Usable (vols i)) ∨ ∃ i, vols i ≤ .fin 0 := by
  intro vols
  constructor
  · intro hmeets
    by_contra hnot
    obtain ⟨hunusable, hvols⟩ := not_or.mp hnot
    obtain ⟨i, hi⟩ := not_forall.mp hunusable
    obtain ⟨p, hp, honly⟩ := blend_stored log hsqrt i.pos hsymbols hforecasts clock hvols
    exact honly (hmeets _ _ [] p rfl rfl rfl hp ⟨i, hi⟩)
  · rintro hcases cfg s table p rfl rfl rfl hp ⟨i, hi⟩
    have hvols : ∃ i, vols i ≤ .fin 0 := hcases.resolve_left fun hall => hi (hall i)
    obtain ⟨w, hw, hstored⟩ := weights_of_computePayload hp
    exact ⟨w, weightsOpt_of_nonpos hw hvols, hstored⟩

/-! Two symbols, the first of which has a NaN forecast. -/

def btcEth : Fin 2 → Symbol := ![("BTCUSDT" : Symbol), "ETHUSDT"]

theorem btcEth_injective : Function.Injective btcEth := by decide

/-- Two symbols under a cap of 0.6, with no gradient step. -/
def btcEthConfig : Config ℚ 2 where
  symbols := btcEth
  covarianceLookbackDays := 7
  returnLookbackMinutes := 120
  diagonalShrinkageLambda := 1e-6
  maxOptIters := 0
  optStepSize := 0.05
  weightCap := 0.6
  turnoverFeeRate := 0.001
  distinct := btcEth_injective

def nanForecasts : List (ForecastRow ℚ) :=
  [⟨0, "BTCUSDT", some .nan, none, none⟩, ⟨0, "ETHUSDT", some (.fin 0.01), none, none⟩]

theorem nanForecasts_nodup : (nanForecasts.map ForecastRow.key).Nodup := by decide

theorem ratSqrt_pos {x : ℚ} (hx : 0 < x) : 0 < Rat.sqrt x := by
  have hnum : 0 < x.num.toNat := Int.pos_iff_toNat_pos.mp (Rat.num_pos.mpr hx)
  have hsqrt : 0 < Int.sqrt x.num := Int.natCast_pos.mpr (Nat.sqrt_pos.mpr hnum)
  unfold Rat.sqrt
  rw [Rat.mkRat_eq_div]
  exact div_pos (Int.cast_pos.mpr hsqrt) (Nat.cast_pos.mpr (Nat.sqrt_pos.mpr x.den_pos))

/-- The NaN gets 0.6 of the inverse-volatility weights, and the stored weights are not those of
the optimizer. -/
theorem nan_vol_earns_weight :
    let s := emptySnapshot nanForecasts_nodup day
    modelVols btcEth nanForecasts (truncMinute day) = ![.nan, .fin 0.01] ∧
      ∃ p, computePayload psycopg id Rat.sqrt btcEthConfig s [] = .ok p ∧
        p.weights = [("BTCUSDT", .fin (11 / 20)), ("ETHUSDT", .fin (9 / 20))] ∧
        weightsOpt id Rat.sqrt btcEthConfig s = some ![1 / 2, 1 / 2] := by
  intro s
  have hvols : modelVols btcEth nanForecasts (truncMinute day) = ![.nan, .fin 0.01] := by
    decide +kernel
  have hopt : weightsOpt id Rat.sqrt btcEthConfig s = some ![1 / 2, 1 / 2] := by decide +kernel
  have hfinal : finalWeights Rat.sqrt (rebalanceMu id btcEthConfig s)
      (rebalanceCov id btcEthConfig s) (modelVols btcEth nanForecasts (truncMinute day))
      btcEthConfig.weightCap 0 btcEthConfig.optStepSize = some ![11 / 20, 9 / 20] := by
    decide +kernel
  obtain ⟨p, hp⟩ := exists_payload (s := s) (fun _ => ratSqrt_pos) Nat.two_pos
    (show 0 < btcEthConfig.weightCap by decide +kernel) id [] fun r hr => absurd hr List.not_mem_nil
  obtain ⟨w, hw, hstored⟩ := weights_of_computePayload hp
  obtain rfl : w = ![11 / 20, 9 / 20] := Option.some.inj (hw.symm.trans hfinal)
  refine ⟨hvols, p, hp, hstored.trans ?_, hopt⟩
  decide +kernel

/-- The theorem for these forecasts. -/
theorem optimizer_only_iff_nan :
    let vols := modelVols btcEth nanForecasts (truncMinute day)
    (∀ (cfg : Config ℚ 2) (s : Snapshot ℚ) table p, cfg.symbols = btcEth →
        s.forecasts = nanForecasts → s.clock = day →
        computePayload psycopg id Rat.sqrt cfg s table = .ok p → (∃ i, ¬Usable (vols i)) →
        OptimizerOnly id Rat.sqrt cfg s p) ↔
      (∀ i, Usable (vols i)) ∨ ∃ i, vols i ≤ .fin 0 :=
  optimizer_only_iff (fun _ => ratSqrt_pos) id btcEth_injective nanForecasts_nodup day

end PortfolioEngine.RunRebalance
