import PortfolioEngine.Data
import PortfolioEngine.Lib.ExactFloat
import PortfolioEngine.Lib.Recent

/-!
# The features of a frame

`feature_engineering/features.py`. A frame is the list of its candles in the order of the index;
a column is the series of its values. The candles are finite, what is computed from them need not
be.

`latestFeatureRow_congr`: the last row is a function of the last 61 candles.
-/

namespace PortfolioEngine.Features

open Recent

variable {K : Type*} [Field K] [LinearOrder K]

/-- What is used of numpy and pandas: elementwise functions, two rolling statistics of a full
window, and `sort_index`, which may put equal timestamps in any order. -/
structure Numerics (K : Type*) where
  log : Flt K → Flt K
  sqrt : Flt K → Flt K
  skew : List K → Flt K
  kurt : List K → Flt K
  sortIndex : List (PriceRow K) → List (PriceRow K)
  sortIndex_perm : ∀ buf, (sortIndex buf).Perm buf
  sortIndex_sorted : ∀ buf, (sortIndex buf).Pairwise fun x y => x.time ≤ y.time

abbrev Series (K : Type*) := List (Flt K)

/-! ## Rolling statistics -/

/-- An aggregate of a window without NaN; pandas treats an infinity as NaN. -/
def ofWindow (agg : List K → Flt K) (xs : Series K) : Flt K :=
  match xs.mapM Flt.toFin? with
  | some ys => agg ys
  | none => .nan

/-- `s.rolling(window=w)` and an aggregate. -/
def rolled (w : ℕ) (agg : List K → Flt K) (s : Series K) : Series K :=
  rolling w .nan (ofWindow agg) s

def sum (xs : List K) : Flt K := .fin xs.sum

def mean (xs : List K) : Flt K := .fin (xs.sum / xs.length)

/-- The sample standard deviation. -/
def std (P : Numerics K) (xs : List K) : Flt K :=
  let m := xs.sum / xs.length
  P.sqrt (.fin ((xs.map fun x => (x - m) ^ 2).sum / (xs.length - 1)))

def square (x : Flt K) : Flt K := x.mul x

/-! ## Primitives -/

/-- `log_returns`. -/
def logReturns (P : Numerics K) (close : Series K) : Series K :=
  (List.zipWith Flt.div close (shift .nan close)).map P.log

/-- `realized_vol`. -/
def realizedVol (P : Numerics K) (returns : Series K) (window : ℕ) : Series K :=
  (rolled window sum (returns.map square)).map P.sqrt

/-- `parkinson_vol`. -/
def parkinsonVol (P : Numerics K) (high low : Series K) (window : ℕ) : Series K :=
  let logHlSq := (List.zipWith Flt.div high low).map fun x => square (P.log x)
  (rolled window mean logHlSq).map fun x =>
    P.sqrt (x.div ((Flt.fin 4).mul (P.log (.fin 2))))

/-- `pct_change`. -/
def pctChange (s : Series K) : Series K :=
  List.zipWith (fun x p => (x.div p).sub (.fin 1)) s (shift .nan s)

/-! ## The columns -/

/-- `ROLLING_WINDOWS`. -/
def rollingWindows : List ℕ := [5, 15, 30, 60]

def close (df : List (PriceRow K)) : Series K := df.map fun r => .fin r.close
def high (df : List (PriceRow K)) : Series K := df.map fun r => .fin r.high
def low (df : List (PriceRow K)) : Series K := df.map fun r => .fin r.low
def volume (df : List (PriceRow K)) : Series K := df.map fun r => .fin r.volume

/-- `compute_features`, by columns. -/
def computeFeatures (P : Numerics K) (df : List (PriceRow K)) : List (String × Series K) :=
  let lr := logReturns P (close df)
  [("log_return", lr),
    ("squared_return", lr.map square),
    ("volume_roc", pctChange (volume df)),
    ("hl_range", List.zipWith Flt.div (List.zipWith Flt.sub (high df) (low df)) (close df))] ++
  rollingWindows.flatMap fun w =>
    [("ret_mean_" ++ toString w, rolled w mean lr),
      ("ret_std_" ++ toString w, rolled w (std P) lr),
      ("realized_vol_" ++ toString w, realizedVol P lr w),
      ("parkinson_vol_" ++ toString w, parkinsonVol P (high df) (low df) w),
      ("ret_skew_" ++ toString w, rolled w P.skew lr),
      ("ret_kurt_" ++ toString w, rolled w P.kurt lr),
      ("volume_mean_" ++ toString w, rolled w mean (volume df))]

/-- NaN is stored as NULL. -/
def notNan (v : Option (Flt K)) : Option (Flt K) := v.filter fun x => !x.isNan

/-- Row `i` of the features. -/
def featureRowAt (P : Numerics K) (df : List (PriceRow K)) (i : ℕ) :
    List (String × Option (Flt K)) :=
  (computeFeatures P df).map fun c => (c.1, notNan c.2[i]?)

/-- `latest_feature_row`. -/
def latestFeatureRow (P : Numerics K) (df : List (PriceRow K)) :
    List (String × Option (Flt K)) :=
  (computeFeatures P df).map fun c => (c.1, notNan c.2.getLast?)

/-! ## Names -/

/-- `_FEATURE_COLS`. -/
def featureCols : List String :=
  ["log_return", "squared_return", "volume_roc", "hl_range",
    "ret_mean_5", "ret_std_5", "realized_vol_5", "parkinson_vol_5",
    "ret_skew_5", "ret_kurt_5", "volume_mean_5",
    "ret_mean_15", "ret_std_15", "realized_vol_15", "parkinson_vol_15",
    "ret_skew_15", "ret_kurt_15", "volume_mean_15",
    "ret_mean_30", "ret_std_30", "realized_vol_30", "parkinson_vol_30",
    "ret_skew_30", "ret_kurt_30", "volume_mean_30",
    "ret_mean_60", "ret_std_60", "realized_vol_60", "parkinson_vol_60",
    "ret_skew_60", "ret_kurt_60", "volume_mean_60"]

theorem names_computeFeatures (P : Numerics K) (df : List (PriceRow K)) :
    (computeFeatures P df).map Prod.fst = featureCols := by
  rfl

theorem lookup_map_of_nodup {α β : Type*} (f : α → β) {cs : List (String × α)}
    (hnodup : (cs.map Prod.fst).Nodup) {c : String × α} (hc : c ∈ cs) :
    (cs.map fun c => (c.1, f c.2)).lookup c.1 = some (f c.2) := by
  induction cs with
  | nil => cases hc
  | cons x cs ih =>
    obtain ⟨hx, hcs⟩ := List.nodup_cons.mp hnodup
    rw [List.map_cons, List.lookup_cons]
    rcases List.mem_cons.mp hc with rfl | hc
    · rw [beq_self_eq_true]
    · have hne : c.1 ≠ x.1 := fun he => hx (he ▸ List.mem_map_of_mem hc)
      rw [beq_false_of_ne hne]
      exact ih hcs hc

theorem lookup_latestFeatureRow {P : Numerics K} {df : List (PriceRow K)} {c : String × Series K}
    (hc : c ∈ computeFeatures P df) :
    (latestFeatureRow P df).lookup c.1 = some (notNan c.2.getLast?) := by
  refine lookup_map_of_nodup (fun s : Series K => notNan s.getLast?) ?_ hc
  rw [names_computeFeatures]
  decide

/-! ## Lengths -/

theorem length_logReturns (P : Numerics K) (s : Series K) : (logReturns P s).length = s.length := by
  unfold logReturns
  rw [List.length_map, List.length_zipWith, length_shift, min_self]

omit [Field K] [LinearOrder K] in
theorem length_rolled (w : ℕ) (agg : List K → Flt K) (s : Series K) :
    (rolled w agg s).length = s.length := by
  unfold rolled
  exact length_rolling w _ _ s

theorem length_column (P : Numerics K) (df : List (PriceRow K)) :
    ∀ c ∈ computeFeatures P df, c.2.length = df.length := by
  intro c hc
  have hlr : (logReturns P (close df)).length = df.length := by
    rw [length_logReturns]; exact List.length_map _
  unfold computeFeatures at hc
  rcases List.mem_append.mp hc with hc | hc
  · simp only [List.mem_cons, List.not_mem_nil, or_false] at hc
    rcases hc with rfl | rfl | rfl | rfl
    · exact hlr
    · rw [List.length_map, hlr]
    · simp [pctChange, volume, length_shift]
    · simp [high, low, close]
  · obtain ⟨w, _, hc⟩ := List.mem_flatMap.mp hc
    simp only [List.mem_cons, List.not_mem_nil, or_false] at hc
    rcases hc with rfl | rfl | rfl | rfl | rfl | rfl | rfl
    all_goals simp [realizedVol, parkinsonVol, length_rolled, hlr, high, low, volume]

theorem latestFeatureRow_eq (P : Numerics K) (df : List (PriceRow K)) :
    latestFeatureRow P df = featureRowAt P df (df.length - 1) := by
  refine List.map_congr_left fun c hc => ?_
  rw [List.getLast?_eq_getElem?, length_column P df c hc]

/-! ## Lookback -/

section Lookback

variable {P : Numerics K} {df df' : List (PriceRow K)}

theorem sameTail_logReturns {k : ℕ} {s s' : Series K} (h : SameTail (1 + k) s s') :
    SameTail k (logReturns P s) (logReturns P s') :=
  ((h.mono (Nat.le_add_left k 1)).zipWith (h.shift .nan) (length_shift _ _).symm
    (length_shift _ _).symm Flt.div).map P.log

theorem sameTail_pctChange {k : ℕ} {s s' : Series K} (h : SameTail (1 + k) s s') :
    SameTail k (pctChange s) (pctChange s') :=
  (h.mono (Nat.le_add_left k 1)).zipWith (h.shift .nan) (length_shift _ _).symm
    (length_shift _ _).symm _

omit [Field K] [LinearOrder K] in
theorem getLast?_rolled {w : ℕ} (hw : 0 < w) {s s' : Series K} (h : SameTail w s s')
    (agg : List K → Flt K) : (rolled w agg s).getLast? = (rolled w agg s').getLast? := by
  have hw' : w - 1 + 1 = w := Nat.sub_add_cancel hw
  exact (SameTail.rolling (k := 1) hw (hw'.symm ▸ h) .nan (ofWindow agg)).getLast?

theorem getLast?_realizedVol {w : ℕ} (hw : 0 < w) {s s' : Series K} (h : SameTail w s s') :
    (realizedVol P s w).getLast? = (realizedVol P s' w).getLast? := by
  unfold realizedVol
  rw [List.getLast?_map, List.getLast?_map, getLast?_rolled hw (h.map square)]

theorem getLast?_parkinsonVol {w : ℕ} (hw : 0 < w) (h : SameTail w df df') :
    (parkinsonVol P (high df) (low df) w).getLast? =
      (parkinsonVol P (high df') (low df') w).getLast? := by
  have hhl : SameTail w (List.zipWith Flt.div (high df) (low df))
      (List.zipWith Flt.div (high df') (low df')) :=
    (h.map _).zipWith (h.map _) (by simp) (by simp) Flt.div
  unfold parkinsonVol
  rw [List.getLast?_map, List.getLast?_map, getLast?_rolled hw (hhl.map _)]

/-- The last values of the columns are a function of the last 61 candles. -/
theorem lastValues_congr (h : SameTail 61 df df') :
    (computeFeatures P df).map (fun c => (c.1, c.2.getLast?)) =
      (computeFeatures P df').map fun c => (c.1, c.2.getLast?) := by
  have hlr : SameTail 60 (logReturns P (close df)) (logReturns P (close df')) :=
    sameTail_logReturns (h.map _)
  have hpct : (pctChange (volume df)).getLast? = (pctChange (volume df')).getLast? :=
    (sameTail_pctChange (k := 60) (h.map _)).getLast?
  have hhl : (List.zipWith Flt.div (List.zipWith Flt.sub (high df) (low df)) (close df)).getLast? =
      (List.zipWith Flt.div (List.zipWith Flt.sub (high df') (low df')) (close df')).getLast? :=
    (((h.map _).zipWith (h.map _) (by simp) (by simp) Flt.sub).zipWith (h.map _) (by simp)
      (by simp) Flt.div).getLast?
  unfold computeFeatures
  rw [List.map_append, List.map_append]
  congr 1
  · simp only [List.map_cons, List.map_nil]
    rw [hlr.getLast?, (hlr.map square).getLast?, hpct, hhl]
  · rw [List.map_flatMap, List.map_flatMap]
    refine List.flatMap_congr fun w hw => ?_
    have hw60 : 0 < w ∧ w ≤ 60 := by
      simp only [rollingWindows, List.mem_cons, List.not_mem_nil, or_false] at hw
      omega
    have hlrw : SameTail w (logReturns P (close df)) (logReturns P (close df')) := hlr.mono hw60.2
    have hdfw : SameTail w df df' := h.mono (by omega)
    have hvol : SameTail w (volume df) (volume df') := hdfw.map _
    simp only [List.map_cons, List.map_nil]
    rw [getLast?_rolled hw60.1 hlrw, getLast?_rolled hw60.1 hlrw, getLast?_rolled hw60.1 hlrw,
      getLast?_rolled hw60.1 hlrw, getLast?_realizedVol hw60.1 hlrw,
      getLast?_parkinsonVol hw60.1 hdfw, getLast?_rolled hw60.1 hvol]

/-- The last row of the features is a function of the last 61 candles. -/
theorem latestFeatureRow_congr (h : SameTail 61 df df') :
    latestFeatureRow P df = latestFeatureRow P df' := by
  have hrow : ∀ df : List (PriceRow K), latestFeatureRow P df =
      ((computeFeatures P df).map fun c => (c.1, c.2.getLast?)).map fun c => (c.1, notNan c.2) := by
    intro df
    unfold latestFeatureRow
    rw [List.map_map]
    rfl
  rw [hrow, hrow, lastValues_congr h]

end Lookback

/-! ## Three of the columns -/

theorem hl_range_mem (P : Numerics K) (df : List (PriceRow K)) :
    ("hl_range", List.zipWith Flt.div (List.zipWith Flt.sub (high df) (low df)) (close df)) ∈
      computeFeatures P df := by
  unfold computeFeatures
  simp

theorem ret_mean_60_mem (P : Numerics K) (df : List (PriceRow K)) :
    ("ret_mean_60", rolled 60 mean (logReturns P (close df))) ∈ computeFeatures P df := by
  refine List.mem_append_right _ (List.mem_flatMap.mpr ⟨60, by decide, ?_⟩)
  simp only [List.mem_cons]
  left
  rfl

theorem volume_mean_60_mem (P : Numerics K) (df : List (PriceRow K)) :
    ("volume_mean_60", rolled 60 mean (volume df)) ∈ computeFeatures P df := by
  refine List.mem_append_right _ (List.mem_flatMap.mpr ⟨60, by decide, ?_⟩)
  simp only [List.mem_cons]
  right; right; right; right; right; right; left
  rfl

theorem lookup_hl_range {P : Numerics K} (df : List (PriceRow K)) {r : PriceRow K}
    (hr : r.close ≠ 0) : (latestFeatureRow P (df ++ [r])).lookup "hl_range" =
      some (some (.fin ((r.high - r.low) / r.close))) := by
  rw [lookup_latestFeatureRow (hl_range_mem P _)]
  have hlast : (List.zipWith Flt.div (List.zipWith Flt.sub (high (df ++ [r])) (low (df ++ [r])))
      (close (df ++ [r]))).getLast? = some (.fin ((r.high - r.low) / r.close)) := by
    unfold high low close
    rw [List.map_append, List.map_append, List.map_append, List.zipWith_append (by simp),
      List.zipWith_append (by simp)]
    show (_ ++ [((Flt.fin r.high).sub (.fin r.low)).div (.fin r.close)]).getLast? = _
    rw [List.getLast?_concat, Flt.sub_fin, Flt.div_fin hr]
  rw [hlast]
  rfl

omit [Field K] [LinearOrder K] in
theorem ofWindow_fin (agg : List K → Flt K) (xs : List K) :
    ofWindow agg (xs.map .fin) = agg xs := by
  have hm : (xs.map Flt.fin).mapM Flt.toFin? = some xs := by
    induction xs with
    | nil => rfl
    | cons x xs ih => simp [List.mapM_cons, ih]
  unfold ofWindow
  rw [hm]

omit [Field K] [LinearOrder K] in
/-- The last value of a rolling statistic of a series that ends with `w` finite values. -/
theorem getLast?_rolled_fin {w : ℕ} (hw : 0 < w) {s : Series K} {xs : List K}
    (h : SameTail w s (xs.map .fin)) (hlen : xs.length = w) (agg : List K → Flt K) :
    (rolled w agg s).getLast? = some (agg xs) := by
  have hne : s ≠ [] := List.ne_nil_of_length_pos (hw.trans_le h.le)
  have hle : (xs.map Flt.fin).length ≤ w := by rw [List.length_map, hlen]
  unfold rolled
  rw [getLast?_rolling hne h.le, h.rtake, rtake_of_length_le hle, ofWindow_fin]

theorem lookup_volume_mean_60 {P : Numerics K} {df : List (PriceRow K)} (h : 60 ≤ df.length) :
    (latestFeatureRow P df).lookup "volume_mean_60" =
      some (some (mean ((df.rtake 60).map PriceRow.volume))) := by
  have htail : SameTail 60 (volume df) (((df.rtake 60).map PriceRow.volume).map .fin) := by
    rw [List.map_map]
    exact (sameTail_rtake h).map _
  have hlen : ((df.rtake 60).map PriceRow.volume).length = 60 := by
    rw [List.length_map, length_rtake]
    omega
  rw [lookup_latestFeatureRow (volume_mean_60_mem P df),
    getLast?_rolled_fin (by decide) htail hlen]
  rfl

/-- The mean return of 61 closes is the first of the 60 returns over 60 if the later closes
are 1. -/
theorem lookup_ret_mean_60 {P : Numerics K} (h1 : P.log (.fin 1) = .fin 0)
    {df : List (PriceRow K)} {c l : K} (hc : c ≠ 0) (hl : P.log (.fin c⁻¹) = .fin l)
    (h : SameTail 61 (df.map PriceRow.close) (c :: List.replicate 60 1)) :
    (latestFeatureRow P df).lookup "ret_mean_60" = some (some (.fin (l / 60))) := by
  have htail : SameTail 61 (close df) ((c :: List.replicate 60 1).map .fin) := by
    have := h.map Flt.fin
    rwa [List.map_map] at this
  have hone : P.log ((Flt.fin 1).div (.fin 1)) = .fin 0 := by
    rw [Flt.div_fin one_ne_zero, div_one, h1]
  have hlr : logReturns P ((c :: List.replicate 60 1).map .fin) =
      P.log ((Flt.fin c).div .nan) :: (l :: List.replicate 59 0).map .fin := by
    unfold logReturns shift
    simp [List.replicate, Flt.div_fin hc, hl, hone]
  have hreturns : SameTail 60 (logReturns P (close df)) ((l :: List.replicate 59 0).map .fin) := by
    have hsame := sameTail_logReturns (P := P) (k := 60) htail
    have hlen : ((l :: List.replicate 59 0).map Flt.fin).length = 60 := by simp
    rw [hlr] at hsame
    refine ⟨hsame.le, hlen.ge, ?_⟩
    rw [hsame.rtake, List.rtake, List.rtake, List.length_cons, hlen]
    rfl
  rw [lookup_latestFeatureRow (ret_mean_60_mem P df),
    getLast?_rolled_fin (by decide) hreturns (by simp)]
  simp [mean, notNan, Flt.isNan]

end PortfolioEngine.Features
