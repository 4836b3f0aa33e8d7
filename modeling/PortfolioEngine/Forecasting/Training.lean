import PortfolioEngine.Forecasting.CompleteRows
import PortfolioEngine.Forecasting.Garch
import PortfolioEngine.Forecasting.LabelAgreement
import PortfolioEngine.Forecasting.TrainingLoop

/-!
# The training of a symbol

The body of the loop of `train_models` in `forecasting/train.py`, with the two model classes: the
rows of the training window that have all features and a target, the GARCH model of their returns
and, where `xgboost` works, a regression of the targets. What is logged about the fit, the losses
and the times, is left out of the bundle.

1. `fit_ok_iff`: `GARCHModel.fit` raises exactly if there are not 20 finite returns.
2. `predict_eq_error`: after a fit the model predicts, unless the forecast of `arch` raises.
3. `trainSymbol_of_finite`: on rows with finite returns the training of a symbol fails only then.
-/

namespace PortfolioEngine.Forecasting

open Features Garch

variable {K : Type*} [Field K] [LinearOrder K]

/-! ## The models -/

/-- A fitted `XGBRegressor`; it can raise. -/
structure Regressor (K : Type*) where
  predict : List (List (Option (Flt K))) → Option (List (Flt K))
  length_predict : ∀ {X ys}, predict X = some ys → ys.length = X.length

/-- What is used of `xgboost`: the constructor and the fit, which can raise. -/
structure Xgboost (K : Type*) where
  creates : Bool
  fit : List (List (Option (Flt K))) → List (Flt K) → Option (Regressor K)

/-- `XGBVolModel`: the regressor once it is `fitted`. -/
structure XGBVolModel (K : Type*) where
  fitted : Option (Regressor K)

/-- `XGBVolModel.predict`. -/
def XGBVolModel.predict (m : XGBVolModel K) (X : List (List (Option (Flt K)))) :
    Option (List (Flt K)) :=
  m.fitted.bind fun model => model.predict X

/-- `model_mode`. -/
inductive Mode where
  | garchOnly
  | garchXgb
  deriving DecidableEq

/-- The bundle of a symbol in `models`. -/
structure ModelBundle (K : Type*) where
  garch : GARCHModel K
  xgb : Option (XGBVolModel K)
  featureCols : List String
  samples : ℕ
  mode : Mode

/-- How the turn of a symbol ends. -/
inductive Turn (K : Type*) where
  | skippedNoData
  | skippedNotEnough (rows : ℕ)
  | failed (error : String)
  | trained (bundle : ModelBundle K)

/-! ## The code -/

/-- The frame after `dropna`: complete features with their targets. -/
def trainingRows (P : Numerics K) (df : List (FeatureRow K × Flt K)) :
    List (FeatureRow K × Flt K) :=
  let target := computeForwardRealizedVol P (df.map Prod.snd) forwardWindow
  ((df.map Prod.fst).zip target).filter fun r => Complete r.1 ∧ (notNan (some r.2)).isSome

/-- The value of a row in a column of `FEATURE_COLS`. -/
def column (col : String) (f : FeatureRow K) : Option (Flt K) :=
  notNan ((featureCols.zip f.values).lookup col).join

/-- The `try` around `XGBVolModel`: the model that is left, and the mode. -/
def trainXgb (xgboost : Xgboost K) (X : List (List (Option (Flt K)))) (y : List (Flt K)) :
    Option (XGBVolModel K) × Mode :=
  if xgboost.creates then
    match xgboost.fit X y with
    | none => (some ⟨none⟩, .garchOnly)
    | some model =>
      match XGBVolModel.predict ⟨some model⟩ X with
      | none => (some ⟨some model⟩, .garchOnly)
      | some _ => (some ⟨some model⟩, .garchXgb)
  else (none, .garchOnly)

/-- The turn of `symbol` in `train_models`. -/
def trainSymbol (P : Numerics K) (sqrt : K → K) (arch : Arch K) (xgboost : Xgboost K)
    (features : List (FeatureRow K)) (prices : List (PriceRow (Flt K))) (symbol : Symbol)
    (now : ℤ) :
    Turn K :=
  let df := fetchTrainingData features prices symbol rollingWindowDays now
  if df.isEmpty then .skippedNoData
  else
    let df := trainingRows P df
    if df.length < 100 then .skippedNotEnough df.length
    else
      match GARCHModel.fit sqrt arch (some (df.filterMap fun r => column "log_return" r.1)) with
      | .error e => .failed e
      | .ok garch =>
        match garch.predict sqrt 1 with
        | .error e => .failed e
        | .ok _ =>
          let (xgb, mode) := trainXgb xgboost (df.map fun r => r.1.values) (df.map Prod.snd)
          .trained ⟨garch, xgb, featureCols, df.length, mode⟩

/-- The bundle that a turn stores. -/
def Turn.bundle? : Turn K → Option (ModelBundle K)
  | .trained bundle => some bundle
  | _ => none

/-- The answers of a bundle in `run_inference`. -/
def ModelBundle.answers (sqrt : K → K) (bundle : ModelBundle K) : Bundle K where
  garch := (bundle.garch.predict sqrt 1).toOption
  xgb X := bundle.xgb.bind fun model => model.predict X
  length_xgb h := by
    obtain ⟨model, _, h⟩ := Option.bind_eq_some_iff.mp h
    obtain ⟨regressor, _, h⟩ := Option.bind_eq_some_iff.mp h
    exact regressor.length_predict h

/-! ## The GARCH model -/

section Fit

variable {sqrt : K → K} {arch : Arch K} {returns : List (Flt K)}

omit [Field K] [LinearOrder K] in
theorem length_finiteReturns_le (returns : List (Flt K)) :
    (finiteReturns returns).length ≤ returns.length := List.length_filterMap_le _ _

omit [Field K] [LinearOrder K] in
theorem length_finiteReturns {α : Type*} {rows : List α} {f : α → Option (Flt K)}
    (h : ∀ r ∈ rows, ∃ y, f r = some (.fin y)) :
    (finiteReturns (rows.filterMap f)).length = rows.length := by
  induction rows with
  | nil => rfl
  | cons r rows ih =>
    obtain ⟨y, hy⟩ := h r List.mem_cons_self
    rw [List.filterMap_cons_some hy]
    exact congrArg (· + 1) (ih fun x hx => h x (List.mem_cons_of_mem r hx))

theorem fit_ok_iff (sqrt : K → K) (arch : Arch K) (returns : List (Flt K)) :
    (∃ m, GARCHModel.fit sqrt arch (some returns) = .ok m) ↔
      20 ≤ (finiteReturns returns).length := by
  have hle := length_finiteReturns_le returns
  unfold GARCHModel.fit
  dsimp only
  split_ifs with hlen hclean hstd
  · simp only [exists_false, false_iff]
    omega
  · simp only [exists_false, false_iff]
    omega
  · exact iff_of_true ⟨_, rfl⟩ (not_lt.mp hclean)
  · refine iff_of_true ?_ (not_lt.mp hclean)
    split
    · exact ⟨_, rfl⟩
    · exact ⟨_, rfl⟩

/-- A fit leaves a fitted model or a fallback. -/
theorem fitted_or_fallback {m : GARCHModel K}
    (h : GARCHModel.fit sqrt arch (some returns) = .ok m) :
    (∃ fitted, m.fitted = some fitted) ∨ ∃ vol, m.fallbackVol = some vol := by
  unfold GARCHModel.fit at h
  dsimp only at h
  split_ifs at h
  · cases h
    exact Or.inr ⟨0, rfl⟩
  · split at h
    · cases h
      exact Or.inl ⟨_, rfl⟩
    · cases h
      exact Or.inr ⟨_, rfl⟩

omit [Field K] [LinearOrder K] in
theorem mem_firstConverged {fit : Dist → Except String (Fitted K)} {dists : List Dist}
    {fitted : Fitted K} (h : firstConverged fit dists = some fitted) :
    ∃ dist, fit dist = .ok fitted := by
  induction dists with
  | nil => cases h
  | cons dist dists ih =>
    unfold firstConverged at h
    split at h
    next hfit =>
      split_ifs at h
      · cases h
        exact ⟨dist, hfit⟩
      · exact ih h
    · exact ih h

theorem exists_arch_fit {m : GARCHModel K} {fitted : Fitted K}
    (h : GARCHModel.fit sqrt arch (some returns) = .ok m) (hm : m.fitted = some fitted) :
    ∃ data dist, arch.fit data dist = .ok fitted := by
  unfold GARCHModel.fit at h
  dsimp only at h
  split_ifs at h
  · cases h
    cases hm
  · split at h
    next hconverged =>
      cases h
      obtain rfl := Option.some.inj hm
      exact ⟨_, mem_firstConverged hconverged⟩
    · cases h
      cases hm

/-- After a fit a prediction raises only if the forecast does. -/
theorem predict_eq_error {m : GARCHModel K} {steps : ℕ} {error : String}
    (h : GARCHModel.fit sqrt arch (some returns) = .ok m)
    (herror : m.predict sqrt steps = .error error) :
    ∃ fitted, m.fitted = some fitted ∧ fitted.forecast steps = .error error := by
  unfold GARCHModel.predict at herror
  cases hm : m.fitted with
  | some fitted =>
    rw [hm] at herror
    dsimp only at herror
    cases hforecast : fitted.forecast steps with
    | error e =>
      rw [hforecast] at herror
      cases herror
      exact ⟨fitted, rfl, hforecast⟩
    | ok raw =>
      rw [hforecast] at herror
      cases herror
  | none =>
    rcases fitted_or_fallback h with ⟨fitted, hfitted⟩ | ⟨vol, hvol⟩
    · rw [hm] at hfitted
      cases hfitted
    · rw [hm, hvol] at herror
      cases herror

theorem not_maxZero_lt (x : Flt K) : ¬ maxZero x < .fin 0 := by
  unfold maxZero
  split_ifs with hx
  · exact lt_irrefl (0 : K)
  · exact hx

theorem not_npSqrt_lt (hsqrt : ∀ x, 0 ≤ sqrt x) (x : Flt K) : ¬ npSqrt sqrt x < .fin 0 := by
  cases x with
  | fin x =>
    unfold npSqrt
    dsimp only
    split_ifs
    · exact id
    · exact not_lt.mpr (hsqrt x)
  | inf => exact id
  | negInf => exact id
  | nan => exact id

theorem not_predict_lt (hsqrt : ∀ x, 0 ≤ sqrt x) {m : GARCHModel K} {steps : ℕ} {vol : Flt K}
    (h : m.predict sqrt steps = .ok vol) : ¬ vol < .fin 0 := by
  unfold GARCHModel.predict at h
  split at h
  · split at h
    · cases h
      exact not_maxZero_lt _
    · cases h
  next fitted _ =>
    cases hforecast : fitted.forecast steps with
    | error e =>
      rw [hforecast] at h
      cases h
    | ok raw =>
      rw [hforecast] at h
      cases h
      exact not_npSqrt_lt hsqrt _

end Fit

/-! ## The turn of a symbol -/

section Turn

variable {P : Numerics K} {sqrt : K → K} {arch : Arch K} {xgboost : Xgboost K}
  {features : List (FeatureRow K)} {prices : List (PriceRow (Flt K))} {symbol : Symbol} {now : ℤ}

variable (P features prices symbol now) in
/-- The rows that a symbol is trained on. -/
def usable : List (FeatureRow K × Flt K) :=
  trainingRows P (fetchTrainingData features prices symbol rollingWindowDays now)

/-- What a trained bundle comes from. -/
theorem samples_of_trained {bundle : ModelBundle K}
    (h : trainSymbol P sqrt arch xgboost features prices symbol now = .trained bundle) :
    100 ≤ bundle.samples ∧ bundle.samples = (usable P features prices symbol now).length := by
  unfold trainSymbol at h
  dsimp only at h
  split_ifs at h with hempty hlen
  split at h
  · cases h
  · split at h
    · cases h
    · cases h
      exact ⟨not_lt.mp hlen, rfl⟩

variable (sqrt arch xgboost) in
/-- On rows with finite returns the turn of a symbol skips it exactly if there are not 100 of them,
and fails only if the forecast of a model that `arch` has fitted raises. -/
theorem trainSymbol_of_finite (hfinite : ∀ r ∈ usable P features prices symbol now,
      ∃ y, column "log_return" r.1 = some (.fin y)) :
    (∀ error, trainSymbol P sqrt arch xgboost features prices symbol now = .failed error →
      ∃ data dist fitted, arch.fit data dist = .ok fitted ∧ fitted.forecast 1 = .error error) ∧
    ((∃ bundle, trainSymbol P sqrt arch xgboost features prices symbol now = .trained bundle) ∨
      (∃ error, trainSymbol P sqrt arch xgboost features prices symbol now = .failed error) ↔
        100 ≤ (usable P features prices symbol now).length) := by
  have hlength := length_finiteReturns hfinite
  unfold trainSymbol
  dsimp only
  split_ifs with hempty hlen
  · have hrows : usable P features prices symbol now = [] := by
      unfold usable
      rw [List.isEmpty_iff.mp hempty]
      rfl
    rw [hrows]
    simp
  · refine ⟨by rintro _ ⟨⟩, iff_of_false ?_ (not_le.mpr hlen)⟩
    rintro (⟨_, ⟨⟩⟩ | ⟨_, ⟨⟩⟩)
  · have hrows : 100 ≤ (usable P features prices symbol now).length := not_lt.mp hlen
    obtain ⟨garch, hfit⟩ := (fit_ok_iff sqrt arch _).mpr
      (le_of_le_of_eq (le_trans (by decide) hrows) hlength.symm)
    unfold usable at hfit
    rw [hfit]
    dsimp only
    -- the forecast for `last_vol` is the one call that may still raise
    cases hpredict : garch.predict sqrt 1 with
    | ok vol => exact ⟨by rintro _ ⟨⟩, iff_of_true (Or.inl ⟨_, rfl⟩) hrows⟩
    | error e =>
      refine ⟨?_, iff_of_true (Or.inr ⟨e, rfl⟩) hrows⟩
      rintro _ ⟨⟩
      obtain ⟨fitted, hfitted, hforecast⟩ := predict_eq_error hfit hpredict
      obtain ⟨data, dist, harch⟩ := exists_arch_fit hfit hfitted
      exact ⟨data, dist, fitted, harch, hforecast⟩

end Turn

/-! ## The rows of the tables -/

section Rows

variable {P : Numerics K} {features : List (FeatureRow K)} {prices : List (PriceRow (Flt K))}
  {symbol : Symbol} {now : ℤ}

omit [Field K] [LinearOrder K] in
theorem mem_fetchTrainingData {windowDays : ℕ} {r : FeatureRow K × Flt K}
    (h : r ∈ fetchTrainingData features prices symbol windowDays now) :
    r.1 ∈ features ∧ r.1.symbol = symbol := by
  obtain ⟨p, _, hr⟩ := List.mem_flatMap.mp ((Backlog.mem_ordered _).mp h)
  obtain ⟨f, hf, rfl⟩ := List.mem_map.mp hr
  obtain ⟨hf, hjoin⟩ := List.mem_filter.mp hf
  exact ⟨hf, (of_decide_eq_true hjoin).2.1⟩

omit [Field K] [LinearOrder K] in
theorem nodup_fetchTrainingData (hfeatures : (features.map FeatureRow.key).Nodup)
    (hprices : (prices.map PriceRow.key).Nodup) (symbol : Symbol) (windowDays : ℕ)
    (now : ℤ) : ((fetchTrainingData features prices symbol windowDays now).map Prod.fst).Nodup := by
  unfold fetchTrainingData
  refine ((Backlog.perm_ordered _ _).map _).nodup_iff.mpr ?_
  rw [List.map_flatMap, List.nodup_flatMap]
  refine ⟨fun p _ => ?_, ?_⟩
  · rw [List.map_map]
    exact (((hfeatures.of_map _).filter _).map fun _ _ h => h)
  · refine (List.pairwise_map.mp hprices).imp fun {p q} hpq f hp hq => hpq ?_
    obtain ⟨_, hf, rfl⟩ := List.mem_map.mp hp
    obtain ⟨g, hg, rfl⟩ := List.mem_map.mp hf
    obtain ⟨_, hf', heq⟩ := List.mem_map.mp hq
    obtain ⟨g', hg', rfl⟩ := List.mem_map.mp hf'
    have hkey := (of_decide_eq_true (List.mem_filter.mp hg).2).1
    have hkey' := (of_decide_eq_true (List.mem_filter.mp hg').2).1
    obtain rfl : g' = g := heq
    exact hkey.symm.trans hkey'

theorem mem_usable {r : FeatureRow K × Flt K} (h : r ∈ usable P features prices symbol now) :
    r.1 ∈ features ∧ r.1.symbol = symbol ∧ Complete r.1 := by
  obtain ⟨hzip, hvalid⟩ := List.mem_filter.mp h
  obtain ⟨x, hx, hxr⟩ := List.mem_map.mp (List.of_mem_zip hzip).1
  obtain ⟨hmem, hsymbol⟩ := mem_fetchTrainingData hx
  exact ⟨hxr ▸ hmem, hxr ▸ hsymbol, (of_decide_eq_true hvalid).1⟩

variable (features symbol) in
/-- The complete features of a symbol. -/
def completeFeatures : List (FeatureRow K) :=
  features.filter fun f => f.symbol = symbol ∧ Complete f

theorem length_usable_le (hfeatures : (features.map FeatureRow.key).Nodup)
    (hprices : (prices.map PriceRow.key).Nodup) :
    (usable P features prices symbol now).length ≤ (completeFeatures features symbol).length := by
  have hnodup : ((usable P features prices symbol now).map Prod.fst).Nodup := by
    unfold usable trainingRows
    dsimp only
    refine List.Nodup.sublist ?_
      (nodup_fetchTrainingData hfeatures hprices symbol rollingWindowDays now)
    refine (List.filter_sublist.map Prod.fst).trans ?_
    rw [List.map_fst_zip]
    unfold computeForwardRealizedVol
    dsimp only
    rw [List.length_map, List.length_map, List.length_range, length_squaredReturns, List.length_map]
  have hsub : (usable P features prices symbol now).map Prod.fst ⊆
      completeFeatures features symbol := by
    intro f hf
    obtain ⟨r, hr, rfl⟩ := List.mem_map.mp hf
    obtain ⟨hmem, hsymbol, hcomplete⟩ := mem_usable hr
    exact List.mem_filter.mpr ⟨hmem, decide_eq_true ⟨hsymbol, hcomplete⟩⟩
  have hle := (hnodup.subperm hsub).length_le
  rwa [List.length_map] at hle

omit [Field K] [LinearOrder K] in
theorem length_le_fetchTrainingData {rows : List (FeatureRow K)} {windowDays : ℕ}
    (hnodup : rows.Nodup) (hrows : ∀ f ∈ rows, f ∈ features ∧ f.symbol = symbol ∧
      now - windowDays * day ≤ f.time ∧ f.key ∈ prices.map PriceRow.key) :
    rows.length ≤ (fetchTrainingData features prices symbol windowDays now).length := by
  have hsub : rows ⊆ (fetchTrainingData features prices symbol windowDays now).map Prod.fst := by
    intro f hf
    obtain ⟨hmem, hsymbol, hwindow, hprice⟩ := hrows f hf
    obtain ⟨p, hp, hkey⟩ := List.mem_map.mp hprice
    refine List.mem_map.mpr ⟨(f, p.close), (Backlog.mem_ordered _).mpr ?_, rfl⟩
    exact List.mem_flatMap.mpr ⟨p, hp, List.mem_map.mpr
      ⟨f, List.mem_filter.mpr ⟨hmem, decide_eq_true ⟨hkey.symm, hsymbol, hwindow⟩⟩, rfl⟩⟩
  have hle := (hnodup.subperm hsub).length_le
  rwa [List.length_map] at hle

theorem log_return_rowFor [IsStrictOrderedRing K] (hP : Regular P) {es : List (PriceRow K)}
    {candle : PriceRow K} (hvalid : ∀ c ∈ es ++ [candle], Valid c) (hwarm : Warm es candle) :
    ∃ y, column "log_return" (rowFor P es candle) = some (.fin y) := by
  obtain ⟨hdf, hlen⟩ := bufferToDf_of_warm (P := P) hvalid hwarm
  obtain ⟨y, hy⟩ := getLast?_logReturns hP hdf (le_trans (by decide) hlen)
  refine ⟨y, ?_⟩
  have hcolumn : column "log_return" (rowFor P es candle) =
      notNan (notNan (logReturns P (close (bufferToDf P (buffer es candle)))).getLast?) := rfl
  rw [hcolumn, hy]
  rfl

end Rows

end PortfolioEngine.Forecasting
