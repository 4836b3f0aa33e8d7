import PortfolioEngine.Features.Consume
import PortfolioEngine.Forecasting.Labels
import PortfolioEngine.Lib.Backlog

/-!
# Inference

`run_inference` of `forecasting/inference.py` with its queries, from the tables `features` and
`prices` to the table `forecasts`. The symbols take turns: at its turn a symbol reads the features
that have no forecast yet, stores a forecast for each complete one, and fills in the realized
volatilities that have become known.

A NULL of `prices` is NaN here, as it is in a frame with numbers. In a frame that has nothing but
NULLs, `np.log` raises; the feature service writes none.
-/

namespace PortfolioEngine.Forecasting

open Tables Features

variable {K : Type*} [Field K] [LinearOrder K]

/-! ## The tables -/

/-- `SYMBOLS`. -/
def symbols : List Symbol := ["BTCUSDT", "ETHUSDT", "SOLUSDT"]

/-- `FORWARD_WINDOW`, in minutes and in rows. -/
def forwardWindow : ℕ := 5

/-- The default of `limit` in `fetch_unforecasted_features`. -/
def queryLimit : ℕ := 5000

/-- A row of `forecasts`. -/
structure ForecastRow (K : Type*) where
  time : ℤ
  symbol : Symbol
  garchVol : Option (Flt K)
  xgbVol : Option (Flt K)
  realizedVol : Option (Flt K)

/-- The primary key of `forecasts`. -/
def ForecastRow.key (r : ForecastRow K) : Symbol × ℤ := (r.symbol, r.time)

/-- The features of `symbol` without a forecast. -/
def pending (features : List (FeatureRow K)) (forecasts : List (ForecastRow K)) (symbol : Symbol) :
    List (FeatureRow K) :=
  features.filter fun f => f.symbol = symbol ∧ f.key ∉ forecasts.map ForecastRow.key

/-- `fetch_unforecasted_features`. -/
def fetchUnforecastedFeatures (features : List (FeatureRow K)) (forecasts : List (ForecastRow K))
    (symbol : Symbol) (limit : ℕ) : List (FeatureRow K) :=
  Backlog.batch FeatureRow.time limit (pending features forecasts symbol)

/-- `insert_forecasts`. -/
def insertForecasts (rows forecasts : List (ForecastRow K)) : List (ForecastRow K) :=
  rows.foldl (fun t r => insertNew ForecastRow.key r t) forecasts

/-- `fetch_forecasts_missing_realized`. -/
def fetchForecastsMissingRealized (forecasts : List (ForecastRow K)) (symbol : Symbol)
    (window : ℕ) (now : ℤ) : List ℤ :=
  (Backlog.ordered ForecastRow.time (forecasts.filter fun r =>
    r.symbol = symbol ∧ r.realizedVol.isNone ∧ r.time ≤ now - window * minute)).map
      ForecastRow.time

/-- `fetch_prices_since`: times and closes. -/
def fetchPricesSince (prices : List (PriceRow (Flt K))) (symbol : Symbol) (start : ℤ) :
    List (ℤ × Flt K) :=
  (Backlog.ordered PriceRow.time (prices.filter fun r => r.symbol = symbol ∧ start ≤ r.time)).map
    fun r => (r.time, r.close)

/-- One row of `update_realized_vol`. -/
def setRealizedVol (symbol : Symbol) (forecasts : List (ForecastRow K)) (update : Flt K × ℤ) :
    List (ForecastRow K) :=
  forecasts.map fun r =>
    if r.time = update.2 ∧ r.symbol = symbol then { r with realizedVol := some update.1 } else r

/-- `update_realized_vol`. -/
def updateRealizedVol (symbol : Symbol) (updates : List (Flt K × ℤ))
    (forecasts : List (ForecastRow K)) : List (ForecastRow K) :=
  updates.foldl (setRealizedVol symbol) forecasts

/-! ## The loop -/

/-- The trained models of a symbol as they answer in one cycle: `none` where `predict` raises. -/
structure Bundle (K : Type*) where
  garch : Option (Flt K)
  xgb : List (List (Option (Flt K))) → Option (List (Flt K))
  length_xgb : ∀ {X ys}, xgb X = some ys → ys.length = X.length

/-- What the turn of a symbol meets. -/
structure Visit (K : Type*) where
  bundle : Option (Bundle K)
  features : List (FeatureRow K)
  prices : List (PriceRow (Flt K))
  now : ℤ

/-- `X.notna().all(axis=1)`: no column is NULL or NaN. -/
def Complete (f : FeatureRow K) : Prop := ∀ v ∈ f.values, (notNan v).isSome

instance : DecidablePred (Complete (K := K)) := fun f =>
  inferInstanceAs (Decidable (∀ v ∈ f.values, (notNan v).isSome))

/-- `xgb_preds`. -/
def xgbPreds (bundle : Bundle K) (valid : List (FeatureRow K)) : List (Option (Flt K)) :=
  match bundle.xgb (valid.map FeatureRow.values) with
  | some ys => ys.map some
  | none => List.replicate valid.length none

/-- `preds`. -/
def preds (symbol : Symbol) (bundle : Bundle K) (valid : List (FeatureRow K)) :
    List (ForecastRow K) :=
  List.zipWith (fun row xgbVol =>
    { time := row.time, symbol, garchVol := bundle.garch, xgbVol, realizedVol := none })
    valid (xgbPreds bundle valid)

/-- `_backfill_realized_vol`. -/
def backfillRealizedVol (P : Numerics K) (symbol : Symbol) (prices : List (PriceRow (Flt K)))
    (now : ℤ) (forecasts : List (ForecastRow K)) : List (ForecastRow K) :=
  match fetchForecastsMissingRealized forecasts symbol forwardWindow now with
  | [] => forecasts
  | first :: rest =>
    let pricesDf := fetchPricesSince prices symbol (first - minute)
    if pricesDf.isEmpty then forecasts
    else
      let rv := computeForwardRealizedVol P (pricesDf.map Prod.snd) forwardWindow
      let rvByTime := (pricesDf.map Prod.fst).zip rv
      updateRealizedVol symbol
        ((first :: rest).filterMap fun ts => (notNan (rvByTime.lookup ts)).map fun v => (v, ts))
        forecasts

/-- The turn of `symbol` in `run_inference`. -/
def inferSymbol (P : Numerics K) (symbol : Symbol) (visit : Visit K)
    (forecasts : List (ForecastRow K)) : List (ForecastRow K) :=
  match visit.bundle with
  | none => forecasts
  | some bundle =>
    let df := fetchUnforecastedFeatures visit.features forecasts symbol queryLimit
    if df.isEmpty then backfillRealizedVol P symbol visit.prices visit.now forecasts
    else
      let valid := df.filter fun f => Complete f
      if valid.isEmpty then backfillRealizedVol P symbol visit.prices visit.now forecasts
      else
        backfillRealizedVol P symbol visit.prices visit.now
          (insertForecasts (preds symbol bundle valid) forecasts)

/-- `run_inference`. -/
def runInference (P : Numerics K) (visits : Symbol → Visit K) (forecasts : List (ForecastRow K)) :
    List (ForecastRow K) :=
  symbols.foldl (fun t symbol => inferSymbol P symbol (visits symbol) t) forecasts

omit [Field K] [LinearOrder K] in
theorem notNan_notNan (v : Option (Flt K)) : notNan (notNan v) = notNan v := by
  unfold notNan
  rw [Option.filter_filter]
  simp

/-! ## What a turn changes -/

/-- A row without its realized volatility. -/
def ForecastRow.predicted (r : ForecastRow K) : (Symbol × ℤ) × Option (Flt K) × Option (Flt K) :=
  (r.key, r.garchVol, r.xgbVol)

section Turn

variable (P : Numerics K) (symbol : Symbol) (visit : Visit K) (forecasts : List (ForecastRow K))

omit [Field K] [LinearOrder K] in
theorem predicted_updateRealizedVol (updates : List (Flt K × ℤ)) :
    (updateRealizedVol symbol updates forecasts).map ForecastRow.predicted =
      forecasts.map ForecastRow.predicted := by
  unfold updateRealizedVol
  induction updates generalizing forecasts with
  | nil => rfl
  | cons u updates ih =>
    rw [List.foldl_cons, ih]
    unfold setRealizedVol
    rw [List.map_map]
    refine List.map_congr_left fun r _ => ?_
    rw [Function.comp_apply]
    split_ifs <;> rfl

theorem predicted_backfillRealizedVol (prices : List (PriceRow (Flt K))) (now : ℤ) :
    (backfillRealizedVol P symbol prices now forecasts).map ForecastRow.predicted =
      forecasts.map ForecastRow.predicted := by
  unfold backfillRealizedVol
  split
  · rfl
  · dsimp only
    split_ifs
    · rfl
    · exact predicted_updateRealizedVol symbol forecasts _

/-- The complete features that a turn reads. -/
def readable (visit : Visit K) (forecasts : List (ForecastRow K)) (symbol : Symbol) :
    List (FeatureRow K) :=
  (fetchUnforecastedFeatures visit.features forecasts symbol queryLimit).filter fun f => Complete f

/-- A turn stores the forecasts of the complete features it reads, and nothing else. -/
theorem predicted_inferSymbol : (inferSymbol P symbol visit forecasts).map ForecastRow.predicted =
    match visit.bundle with
    | none => forecasts.map ForecastRow.predicted
    | some bundle => (insertForecasts (preds symbol bundle (readable visit forecasts symbol))
        forecasts).map ForecastRow.predicted := by
  unfold inferSymbol
  split
  · rfl
  next bundle _ =>
    dsimp only
    have hskip : readable visit forecasts symbol = [] →
        insertForecasts (preds symbol bundle (readable visit forecasts symbol)) forecasts =
          forecasts := by
      intro h
      rw [h]
      rfl
    split_ifs with hdf hvalid
    · rw [predicted_backfillRealizedVol, hskip]
      unfold readable
      rw [List.isEmpty_iff.mp hdf]
      rfl
    · rw [predicted_backfillRealizedVol, hskip (List.isEmpty_iff.mp hvalid)]
    · rw [predicted_backfillRealizedVol]
      rfl

end Turn

end PortfolioEngine.Forecasting
