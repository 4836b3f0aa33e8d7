import PortfolioEngine.Forecasting.RollingMetrics
import PortfolioEngine.Lib.Scores

/-!
# QLIKE and the perfect forecast

`_qlike` is a mean of strict scores of the clamped variances, and so is the expression of the query.
`perfect_forecast_first`: the realized volatilities themselves have the least loss, and any
forecast with the same loss has the same clamped variances.
-/

namespace PortfolioEngine.Forecasting

open Scores

variable {eps : ℝ}

/-- The variance of a volatility, clamped. -/
def clamped (eps v : ℝ) : ℝ := max (v ^ 2) eps

theorem clamped_pos (heps : 0 < eps) (v : ℝ) : 0 < clamped eps v := lt_max_of_lt_right heps

/-- The score of one prediction. -/
noncomputable def qlikeScore (a x : ℝ) : ℝ := Real.log x + a / x

theorem qlike_pairs (f g : ℝ × ℝ → ℝ) (ps : List (ℝ × ℝ)) :
    qlike Real.log (ps.map f) (ps.map g) eps =
      (ps.map fun x => qlikeScore (clamped eps (f x)) (clamped eps (g x))).sum / ps.length := by
  unfold qlike npMean
  simp only [List.map_map, List.zipWith_map, List.zipWith_self, List.length_map]
  rfl

/-- The loss of pairs is least if each prediction has the clamped variance of the realized value. -/
theorem qlike_le_qlike (heps : 0 < eps) (ps : List (ℝ × ℝ)) :
    qlike Real.log (ps.map Prod.fst) (ps.map Prod.fst) eps ≤
        qlike Real.log (ps.map Prod.fst) (ps.map Prod.snd) eps ∧
      (qlike Real.log (ps.map Prod.fst) (ps.map Prod.snd) eps =
          qlike Real.log (ps.map Prod.fst) (ps.map Prod.fst) eps ↔
        ∀ x ∈ ps, max (x.2 ^ 2) eps = max (x.1 ^ 2) eps) := by
  have hpos : ∀ p ∈ ps.map fun x => (clamped eps x.1, clamped eps x.2), 0 < p.1 ∧ 0 < p.2 := by
    intro p hp
    obtain ⟨x, _, rfl⟩ := List.mem_map.mp hp
    exact ⟨clamped_pos heps x.1, clamped_pos heps x.2⟩
  obtain ⟨hle, heq⟩ := strict_log_add_div.mean hpos
  rw [List.length_map, List.map_map, List.map_map] at hle heq
  rw [List.forall_mem_map] at heq
  rw [qlike_pairs, qlike_pairs]
  exact ⟨hle, heq⟩

/-- The realized volatility where there is a prediction. -/
def perfect (col : Forecast ℝ → Option ℝ) (r : Forecast ℝ) : Option ℝ :=
  (col r).bind fun _ => r.realizedVol

theorem pairs_perfect (col : Forecast ℝ → Option ℝ) (rows : List (Forecast ℝ)) :
    pairs (perfect col) rows = (pairs col rows).map fun x => (x.1, x.1) := by
  unfold pairs perfect
  rw [List.map_filterMap]
  refine List.filterMap_congr fun r _ => ?_
  cases r.realizedVol <;> cases col r <;> rfl

/-- **The perfect forecast has the least loss.** Of all predictions of some realized volatilities
these themselves have the least `_qlike`, and another one has the same only with the same clamped
variances. The average of the query is least in the same way if the realized volatility stands in
for each prediction. -/
theorem perfect_forecast_first (heps : 0 < eps) :
    (∀ y p : List ℝ, y.length = p.length →
      qlike Real.log y y eps ≤ qlike Real.log y p eps ∧
      (qlike Real.log y p eps = qlike Real.log y y eps ↔
        ∀ x ∈ y.zip p, max (x.2 ^ 2) eps = max (x.1 ^ 2) eps)) ∧
    ∀ (col : Forecast ℝ → Option ℝ) (rows : List (Forecast ℝ)) (loss : ℝ),
      avgWhere col (qlikeTerm Real.log eps eps eps col) rows = some loss →
      ∃ best, avgWhere (perfect col) (qlikeTerm Real.log eps eps eps (perfect col)) rows =
          some best ∧ best ≤ loss ∧
        (loss = best ↔ ∀ x ∈ pairs col rows, max (x.2 ^ 2) eps = max (x.1 ^ 2) eps) := by
  constructor
  · intro y p hlen
    have h := qlike_le_qlike heps (y.zip p)
    rwa [List.map_fst_zip hlen.le, List.map_snd_zip hlen.ge] at h
  · intro col rows loss hloss
    obtain ⟨hle, heq⟩ := qlike_le_qlike heps (pairs col rows)
    rw [avgWhere_qlikeTerm] at hloss
    unfold lossOf at hloss
    split_ifs at hloss with hempty
    obtain rfl := Option.some.inj hloss
    refine ⟨_, ?_, hle, heq⟩
    rw [avgWhere_qlikeTerm, pairs_perfect]
    unfold lossOf
    rw [List.isEmpty_map, if_neg hempty, List.map_map, List.map_map]
    rfl

/-- A forecast of half the realized volatility, as vectors and as a row. -/
theorem perfect_forecast_first_half :
    (qlike Real.log [0.5] [0.5] 1e-12 ≤ qlike Real.log [0.5] [0.25] 1e-12 ∧
      (qlike Real.log [0.5] [0.25] 1e-12 = qlike Real.log [0.5] [0.5] 1e-12 ↔
        ∀ x ∈ List.zip [0.5] [0.25], max (x.2 ^ 2) (1e-12 : ℝ) = max (x.1 ^ 2) 1e-12)) ∧
    ∃ loss, avgWhere Forecast.garchVol (qlikeTerm Real.log 1e-12 1e-12 1e-12 Forecast.garchVol)
        [⟨0, "BTCUSDT", some 0.25, none, some 0.5⟩] = some loss ∧
      ∃ best, avgWhere (perfect Forecast.garchVol)
          (qlikeTerm Real.log 1e-12 1e-12 1e-12 (perfect Forecast.garchVol))
          [⟨0, "BTCUSDT", some 0.25, none, some 0.5⟩] = some best ∧ best ≤ loss ∧
        (loss = best ↔ ∀ x ∈ pairs Forecast.garchVol [⟨0, "BTCUSDT", some 0.25, none, some 0.5⟩],
          max (x.2 ^ 2) (1e-12 : ℝ) = max (x.1 ^ 2) 1e-12) := by
  have heps : (0 : ℝ) < 1e-12 := by norm_num
  obtain ⟨hvectors, hrows⟩ := perfect_forecast_first heps
  exact ⟨hvectors [0.5] [0.25] rfl, _, rfl, hrows Forecast.garchVol _ _ rfl⟩

end PortfolioEngine.Forecasting
