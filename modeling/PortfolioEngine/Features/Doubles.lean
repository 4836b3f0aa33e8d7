import PortfolioEngine.Features.Compute
import PortfolioEngine.Lib.FloatRange

/-!
# The features in doubles

`feature_engineering/features.py` once more, with the rounding that `Compute` leaves out: each
operation of numpy is rounded, so that a quotient can become infinite or zero, and a rolling
statistic is whatever pandas makes of a column.

`computeFeatures_exact`: without rounding these are the columns of `Compute`.
-/

namespace PortfolioEngine.Features

open Recent

variable {K : Type*} [Field K] [LinearOrder K]

/-- The rolling statistics of pandas. -/
inductive Statistic where
  | sum
  | mean
  | std
  | skew
  | kurt

/-- What is used of numpy and pandas on doubles: the rounding of a result, the elementwise functions
and the rolling statistics of a column. -/
structure Doubles (K : Type*) where
  round : K → Flt K
  log : Flt K → Flt K
  sqrt : Flt K → Flt K
  rolling : Statistic → ℕ → Series K → Series K

namespace Doubles

variable (D : Doubles K)

def sub (x y : Flt K) : Flt K := (x.sub y).rounded D.round

def mul (x y : Flt K) : Flt K := (x.mul y).rounded D.round

def div (x y : Flt K) : Flt K := (x.div y).rounded D.round

def square (x : Flt K) : Flt K := D.mul x x

/-- `log_returns`. -/
def logReturns (close : Series K) : Series K :=
  (List.zipWith D.div close (shift .nan close)).map D.log

/-- `realized_vol`. -/
def realizedVol (returns : Series K) (window : ℕ) : Series K :=
  (D.rolling .sum window (returns.map D.square)).map D.sqrt

/-- `parkinson_vol`. -/
def parkinsonVol (high low : Series K) (window : ℕ) : Series K :=
  let logHlSq := (List.zipWith D.div high low).map fun x => D.square (D.log x)
  (D.rolling .mean window logHlSq).map fun x =>
    D.sqrt (D.div x (D.mul (.fin (4 : ℕ)) (D.log (.fin (2 : ℕ)))))

/-- `pct_change`. -/
def pctChange (s : Series K) : Series K :=
  List.zipWith (fun x p => D.sub (D.div x p) (.fin 1)) s (shift .nan s)

/-- `compute_features`, by columns. -/
def computeFeatures (df : List (PriceRow K)) : List (String × Series K) :=
  let lr := D.logReturns (close df)
  [("log_return", lr),
    ("squared_return", lr.map D.square),
    ("volume_roc", D.pctChange (volume df)),
    ("hl_range", List.zipWith D.div (List.zipWith D.sub (high df) (low df)) (close df))] ++
  rollingWindows.flatMap fun w =>
    [("ret_mean_" ++ toString w, D.rolling .mean w lr),
      ("ret_std_" ++ toString w, D.rolling .std w lr),
      ("realized_vol_" ++ toString w, D.realizedVol lr w),
      ("parkinson_vol_" ++ toString w, D.parkinsonVol (high df) (low df) w),
      ("ret_skew_" ++ toString w, D.rolling .skew w lr),
      ("ret_kurt_" ++ toString w, D.rolling .kurt w lr),
      ("volume_mean_" ++ toString w, D.rolling .mean w (volume df))]

/-- `latest_feature_row`. -/
def latestFeatureRow (df : List (PriceRow K)) : List (String × Option (Flt K)) :=
  (D.computeFeatures df).map fun c => (c.1, notNan c.2.getLast?)

end Doubles

/-- The aggregate of a statistic. -/
def Statistic.aggregate (P : Numerics K) : Statistic → List K → Flt K
  | .sum => Features.sum
  | .mean => Features.mean
  | .std => Features.std P
  | .skew => P.skew
  | .kurt => P.kurt

/-- Exact arithmetic. -/
def Numerics.exact (P : Numerics K) : Doubles K where
  round := .fin
  log := P.log
  sqrt := P.sqrt
  rolling stat w s := rolled w (stat.aggregate P) s

/-- In exact arithmetic the columns are those of `compute_features` without rounding. -/
theorem computeFeatures_exact (P : Numerics K) (df : List (PriceRow K)) :
    P.exact.computeFeatures df = computeFeatures P df := by
  have hsub : P.exact.sub = Flt.sub := funext₂ fun _ _ => Flt.rounded_fin _
  have hmul : P.exact.mul = Flt.mul := funext₂ fun _ _ => Flt.rounded_fin _
  have hdiv : P.exact.div = Flt.div := funext₂ fun _ _ => Flt.rounded_fin _
  have hsquare : P.exact.square = square := funext fun _ => Flt.rounded_fin _
  have hlr : P.exact.logReturns = logReturns P := by
    funext s
    unfold Doubles.logReturns logReturns
    rw [hdiv]
    rfl
  have hpct : P.exact.pctChange = pctChange := by
    funext s
    unfold Doubles.pctChange pctChange
    rw [hsub, hdiv]
  have hrealized : P.exact.realizedVol = realizedVol P := by
    funext s w
    unfold Doubles.realizedVol realizedVol
    rw [hsquare]
    rfl
  have hparkinson : P.exact.parkinsonVol = parkinsonVol P := by
    funext h l w
    unfold Doubles.parkinsonVol parkinsonVol
    rw [hsquare, hmul, hdiv, Nat.cast_ofNat, Nat.cast_ofNat]
    rfl
  unfold Doubles.computeFeatures computeFeatures
  rw [hlr, hpct, hrealized, hparkinson, hsub, hdiv, hsquare]
  rfl

theorem latestFeatureRow_exact (P : Numerics K) (df : List (PriceRow K)) :
    P.exact.latestFeatureRow df = latestFeatureRow P df := by
  unfold Doubles.latestFeatureRow latestFeatureRow
  rw [computeFeatures_exact]

end PortfolioEngine.Features
