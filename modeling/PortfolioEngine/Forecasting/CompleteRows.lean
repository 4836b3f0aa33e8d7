import PortfolioEngine.Forecasting.FeatureValues
import PortfolioEngine.Forecasting.Inference

/-!
# Complete feature rows

The models read complete rows only: a NULL in one column keeps the row out of training and of
inference. In exact arithmetic, where no value overflows, each rolling window of the last row is
full from 61 candles on, and on valid candles the logarithms, the ranges and the square roots have
values. `complete_row_iff`: a row that the consume loop stores has a NULL exactly if the last two
candles of its buffer both have no volume, or the skewness or the kurtosis of one of its windows is
missing.
-/

namespace PortfolioEngine.Forecasting

open Recent Features

variable {K : Type*} [Field K] [LinearOrder K]

/-- What is used of numpy and pandas on finite values, in exact arithmetic. -/
structure Regular (P : Numerics K) : Prop extends Elementary P where
  log_two : ∃ l, 0 < l ∧ P.log (.fin 2) = .fin l
  sqrt_fin : ∀ x, 0 ≤ x → ∃ y, P.sqrt (.fin x) = .fin y
  skew_fin : ∀ xs, NanOrFin (P.skew xs)
  kurt_fin : ∀ xs, NanOrFin (P.kurt xs)

theorem regular_realNumerics : Regular realNumerics where
  toElementary := elementary_realNumerics
  log_two := ⟨Real.log 2, Real.log_pos one_lt_two, if_pos two_pos⟩
  sqrt_fin x hx := ⟨Real.sqrt x, if_pos hx⟩
  skew_fin _ := Or.inr ⟨0, rfl⟩
  kurt_fin _ := Or.inr ⟨-3.0, rfl⟩

/-! ## The last value of a column -/

/-- The last value of a column is there. -/
def Present (s : Series K) : Prop := ∃ x, s.getLast? = some x ∧ x ≠ .nan

/-- Neither of the last two candles has a volume. -/
def VolumeStalls (df : List (PriceRow K)) : Prop :=
  ∃ l p r, df = l ++ [p, r] ∧ p.volume = 0 ∧ r.volume = 0

/-- The last `w` log returns. -/
def lastReturns (P : Numerics K) (df : List (PriceRow K)) (w : ℕ) : List K :=
  ((logReturns P (close df)).rtake w).filterMap Flt.toFin?

section Last

omit [Field K] [LinearOrder K]

theorem isSome_notNan_iff {s : Series K} : (notNan s.getLast?).isSome ↔ Present s := by
  unfold Present notNan
  cases s.getLast? with
  | none => simp
  | some x => cases x <;> simp [Option.filter, Flt.isNan]

theorem Present.of_fin {s : Series K} {x : K} (h : s.getLast? = some (.fin x)) : Present s :=
  ⟨_, h, by rintro ⟨⟩⟩

theorem exists_map_of_forall {p : K → Prop} {s : Series K} (hs : ∀ x ∈ s, ∃ y, p y ∧ x = .fin y) :
    ∃ ys : List K, (∀ y ∈ ys, p y) ∧ s = ys.map .fin := by
  obtain ⟨ys, rfl⟩ := exists_map_fin (fun x hx => Or.inr ((hs x hx).imp fun _ h => h.2)) fun hnan =>
    (hs _ hnan).elim fun _ h => by cases h.2
  refine ⟨ys, fun y hy => ?_, rfl⟩
  obtain ⟨c, hc, h⟩ := hs (.fin y) (List.mem_map_of_mem hy)
  cases h
  exact hc

theorem present_map_fin {s : List K} (hs : s ≠ []) : Present (s.map Flt.fin) := by
  obtain ⟨u, x, rfl⟩ := (List.eq_nil_or_concat' s).resolve_left hs
  refine .of_fin (x := x) ?_
  rw [List.map_append, List.map_singleton, List.getLast?_concat]

theorem rtake_cons {α : Type*} {w : ℕ} {l : List α} (a : α) (h : w ≤ l.length) :
    (a :: l).rtake w = l.rtake w := by
  unfold List.rtake
  rw [List.length_cons, Nat.sub_add_comm h, List.drop_succ_cons]

theorem getLast?_rolled {w : ℕ} (agg : List K → Flt K) {s : Series K} {ys : List K} (hs : s ≠ [])
    (hw : w ≤ s.length) (h : s.rtake w = ys.map .fin) :
    (rolled w agg s).getLast? = some (agg ys) := by
  unfold rolled
  rw [getLast?_rolling hs hw, h, ofWindow_fin]

end Last

/-! ## The windows of the last row -/

section Windows

variable [IsStrictOrderedRing K] {P : Numerics K} {df : List (PriceRow K)}

/-- The first return is missing and the others are finite. -/
theorem exists_returns (hP : Regular P) {c : PriceRow K} (hdf : ∀ x ∈ c :: df, Valid x) :
    ∃ ys : List K, logReturns P (close (c :: df)) = .nan :: ys.map .fin ∧
      ys.length = df.length := by
  have hclose : ∀ x ∈ close (c :: df), ∃ a, 0 < a ∧ x = .fin a := by
    intro x hx
    obtain ⟨r, hr, rfl⟩ := List.mem_map.mp hx
    exact ⟨r.close, (hdf r hr).close_pos, rfl⟩
  -- `shift(1)` has no close before the first row, so the first return is the only NaN
  have hsplit : logReturns P (close (c :: df)) = .nan ::
      (List.zipWith Flt.div (close df) ((close (c :: df)).take df.length)).map P.log := by
    unfold logReturns shift close
    rw [List.map_cons, List.length_cons, List.length_map, List.take_succ_cons,
      List.zipWith_cons_cons, List.map_cons]
    exact congrArg (· :: _) hP.log_nan
  have hfin : ∀ x ∈ (List.zipWith Flt.div (close df) ((close (c :: df)).take df.length)).map P.log,
      ∃ y, x = .fin y := by
    intro x hx
    obtain ⟨z, hz, rfl⟩ := List.mem_map.mp hx
    rw [← List.map_uncurry_zip_eq_zipWith] at hz
    obtain ⟨⟨a, b⟩, hab, rfl⟩ := List.mem_map.mp hz
    obtain ⟨ha, hb⟩ := List.of_mem_zip hab
    obtain ⟨p, hp, rfl⟩ := hclose a (List.mem_cons_of_mem _ ha)
    obtain ⟨q, hq, rfl⟩ := hclose b (List.mem_of_mem_take hb)
    obtain ⟨l, hl⟩ := hP.log_fin (p / q) (div_pos hp hq)
    refine ⟨l, ?_⟩
    rw [← hl, ← Flt.div_fin hq.ne']
    rfl
  obtain ⟨ys, hys⟩ := exists_map_fin (fun x hx => Or.inr (hfin x hx)) fun hnan => by
    obtain ⟨y, hy⟩ := hfin _ hnan
    cases hy
  refine ⟨ys, hsplit.trans (congrArg _ hys), ?_⟩
  have hlen := congrArg List.length hys
  rw [List.length_map, List.length_map, List.length_zipWith, List.length_take] at hlen
  unfold close at hlen
  rw [List.length_map, List.length_map, List.length_cons] at hlen
  omega

theorem rtake_logReturns (hP : Regular P) (hdf : ∀ c ∈ df, Valid c) {w : ℕ}
    (hw : w + 1 ≤ df.length) :
    (logReturns P (close df)).rtake w = (lastReturns P df w).map .fin := by
  cases df with
  | nil => cases hw
  | cons c df =>
    obtain ⟨ys, hys, hlen⟩ := exists_returns hP hdf
    have hrtake : (logReturns P (close (c :: df))).rtake w = (ys.rtake w).map .fin := by
      rw [hys, rtake_cons, rtake_map]
      rw [List.length_map, hlen]
      exact Nat.le_of_succ_le_succ hw
    unfold lastReturns
    rw [hrtake, List.filterMap_map]
    exact congrArg (List.map Flt.fin) (List.filterMap_some).symm

omit [IsStrictOrderedRing K] in
theorem logReturns_ne_nil (P : Numerics K) {w : ℕ} (hw : w + 1 ≤ df.length) :
    logReturns P (close df) ≠ [] ∧ w ≤ (logReturns P (close df)).length := by
  have hlen : (logReturns P (close df)).length = df.length := by
    rw [length_logReturns]
    exact List.length_map _
  refine ⟨fun hnil => ?_, by omega⟩
  rw [hnil, List.length_nil] at hlen
  omega

/-! ## The columns of the last row -/

variable {w : ℕ} (hP : Regular P) (hdf : ∀ c ∈ df, Valid c)

include hP hdf in
theorem getLast?_rolled_returns (agg : List K → Flt K) (hw : w + 1 ≤ df.length) :
    (rolled w agg (logReturns P (close df))).getLast? = some (agg (lastReturns P df w)) := by
  obtain ⟨hne, hlen⟩ := logReturns_ne_nil P hw
  exact getLast?_rolled agg hne hlen (rtake_logReturns hP hdf hw)

include hP in
/-- The root of a sample variance is there, since the variance is not negative. -/
theorem exists_std (ys : List K) : ∃ y, std P ys = .fin y := by
  refine hP.sqrt_fin _ ?_
  have hsum : 0 ≤ (ys.map fun x => (x - ys.sum / ys.length) ^ 2).sum := by
    refine List.sum_nonneg fun y hy => ?_
    obtain ⟨x, _, rfl⟩ := List.mem_map.mp hy
    exact sq_nonneg _
  cases ys with
  | nil => simp
  | cons x xs =>
    refine div_nonneg hsum ?_
    rw [List.length_cons, Nat.cast_succ, add_sub_cancel_right]
    exact Nat.cast_nonneg _

include hP hdf in
theorem present_realizedVol (hw : w + 1 ≤ df.length) :
    Present (realizedVol P (logReturns P (close df)) w) := by
  obtain ⟨hne, hlen⟩ := logReturns_ne_nil P hw
  have hsquares : ((logReturns P (close df)).map square).rtake w =
      ((lastReturns P df w).map fun x => x * x).map .fin := by
    rw [rtake_map, rtake_logReturns hP hdf hw, List.map_map, List.map_map]
    rfl
  have hlast := getLast?_rolled sum (fun h => hne (List.map_eq_nil_iff.mp h))
    (by rw [List.length_map]; exact hlen) hsquares
  obtain ⟨y, hy⟩ := hP.sqrt_fin (((lastReturns P df w).map fun x => x * x).sum)
    (List.sum_nonneg fun y hy => by
      obtain ⟨x, _, rfl⟩ := List.mem_map.mp hy
      exact mul_self_nonneg x)
  refine .of_fin (x := y) ?_
  unfold realizedVol
  rw [List.getLast?_map, hlast]
  exact congrArg some hy

include hP hdf in
theorem present_parkinsonVol (hw : w + 1 ≤ df.length) :
    Present (parkinsonVol P (high df) (low df) w) := by
  have hsq : ∀ x ∈ (List.zipWith Flt.div (high df) (low df)).map (fun x => square (P.log x)),
      ∃ y, 0 ≤ y ∧ x = .fin y := by
    intro x hx
    obtain ⟨z, hz, rfl⟩ := List.mem_map.mp hx
    unfold high low at hz
    rw [List.zipWith_map, List.zipWith_self] at hz
    obtain ⟨c, hc, rfl⟩ := List.mem_map.mp hz
    obtain ⟨hlow, hle, -, -⟩ := hdf c hc
    obtain ⟨l, hl⟩ := hP.log_fin (c.high / c.low) (div_pos (hlow.trans_le hle) hlow)
    refine ⟨l * l, mul_self_nonneg l, ?_⟩
    rw [Flt.div_fin hlow.ne', hl]
    rfl
  obtain ⟨ys, hys, hmap⟩ := exists_map_of_forall hsq
  have hlen : ys.length = df.length := by
    have := congrArg List.length hmap
    simpa [high, low] using this.symm
  have hne : ys ≠ [] := by
    rintro rfl
    rw [List.length_nil] at hlen
    omega
  have hlast : (rolled w mean ((List.zipWith Flt.div (high df) (low df)).map
      fun x => square (P.log x))).getLast? = some (mean (ys.rtake w)) := by
    rw [hmap]
    refine getLast?_rolled mean (fun h => hne (List.map_eq_nil_iff.mp h)) ?_
      (rtake_map w Flt.fin ys)
    rw [List.length_map]
    omega
  obtain ⟨l, hl, hlog⟩ := hP.log_two
  have hmean : 0 ≤ (ys.rtake w).sum / (ys.rtake w).length :=
    div_nonneg (List.sum_nonneg fun y hy => hys y (mem_of_mem_rtake hy)) (Nat.cast_nonneg _)
  have hden : (0 : K) < 4 * l := mul_pos four_pos hl
  obtain ⟨y, hy⟩ := hP.sqrt_fin _ (div_nonneg hmean hden.le)
  refine .of_fin (x := y) ?_
  unfold parkinsonVol
  dsimp only
  rw [List.getLast?_map, hlast, Option.map_some, hlog, ← hy, ← Flt.div_fin hden.ne']
  rfl

include hP hdf in
theorem getLast?_logReturns (hw : 2 ≤ df.length) :
    ∃ y, (logReturns P (close df)).getLast? = some (.fin y) := by
  cases df with
  | nil => cases hw
  | cons c df =>
    obtain ⟨ys, hys, hlen⟩ := exists_returns hP hdf
    have hne : ys ≠ [] := by
      rintro rfl
      rw [List.length_nil] at hlen
      rw [List.length_cons] at hw
      omega
    obtain ⟨u, y, rfl⟩ := (List.eq_nil_or_concat' ys).resolve_left hne
    refine ⟨y, ?_⟩
    rw [hys, List.map_append, List.map_singleton, ← List.cons_append, List.getLast?_concat]

include hdf in
omit [IsStrictOrderedRing K] in
theorem present_hlRange (hw : 1 ≤ df.length) :
    Present (List.zipWith Flt.div (List.zipWith Flt.sub (high df) (low df)) (close df)) := by
  have hrange : List.zipWith Flt.div (List.zipWith Flt.sub (high df) (low df)) (close df) =
      (df.map fun c => (c.high - c.low) / c.close).map .fin := by
    unfold high low close
    rw [List.zipWith_map, List.zipWith_self, List.zipWith_map, List.zipWith_self, List.map_map]
    refine List.map_congr_left fun c hc => ?_
    rw [Flt.sub_fin, Flt.div_fin (hdf c hc).close_pos.ne']
    rfl
  rw [hrange]
  refine present_map_fin fun h => ?_
  rw [List.map_eq_nil_iff.mp h] at hw
  cases hw

omit [IsStrictOrderedRing K] in
theorem getLast?_volume_roc (l : List (PriceRow K)) (p r : PriceRow K) :
    (pctChange (volume (l ++ [p, r]))).getLast? =
      some (((Flt.fin r.volume).div (.fin p.volume)).sub (.fin 1)) :=
  getLast?_zipWith_shift _ _ l p r

include hdf in
omit [IsStrictOrderedRing K] in
/-- The change of the volume is missing exactly if it is 0 divided by 0. -/
theorem present_volume_roc (hw : 2 ≤ df.length) :
    Present (pctChange (volume df)) ↔ ¬ VolumeStalls df := by
  rcases List.eq_nil_or_concat' df with rfl | ⟨df, r, rfl⟩
  · cases hw
  rcases List.eq_nil_or_concat' df with rfl | ⟨l, p, rfl⟩
  · exact absurd hw (Nat.not_succ_le_self 1)
  rw [List.append_assoc, List.singleton_append] at hdf ⊢
  have hstalls : VolumeStalls (l ++ [p, r]) ↔ p.volume = 0 ∧ r.volume = 0 := by
    constructor
    · rintro ⟨l', p', r', heq, hp, hr⟩
      have hlast := (List.append_inj' heq rfl).2
      cases hlast
      exact ⟨hp, hr⟩
    · exact fun h => ⟨l, p, r, rfl, h⟩
  unfold Present
  rw [hstalls, getLast?_volume_roc]
  simp only [Option.some.injEq, exists_eq_left']
  by_cases hp : p.volume = 0
  · have hdiv : (Flt.fin r.volume).div (.fin p.volume) = Flt.signedInf r.volume := if_pos hp
    rw [hdiv]
    unfold Flt.signedInf
    rcases (hdf r (by simp)).volume_nonneg.eq_or_lt with hr | hr
    · rw [← hr, if_neg (lt_irrefl 0), if_neg (lt_irrefl 0)]
      exact iff_of_false (fun h => h rfl) fun h => h ⟨hp, rfl⟩
    · rw [if_pos hr]
      exact iff_of_true (by rintro ⟨⟩) fun h => hr.ne' h.2
  · rw [Flt.div_fin hp, Flt.sub_fin]
    exact iff_of_true (by rintro ⟨⟩) fun h => hp h.1

omit [Field K] [LinearOrder K] [IsStrictOrderedRing K] in
theorem present_of_getLast? {s : Series K} {x : Flt K} (h : s.getLast? = some x) :
    Present s ↔ x ≠ .nan := by
  unfold Present
  rw [h]
  simp

include hP hdf in
/-- The columns of a window: only the skewness and the kurtosis can be missing. -/
theorem present_window (hw : w + 1 ≤ df.length) :
    (∀ c ∈ [("ret_mean_" ++ toString w, rolled w mean (logReturns P (close df))),
      ("ret_std_" ++ toString w, rolled w (std P) (logReturns P (close df))),
      ("realized_vol_" ++ toString w, realizedVol P (logReturns P (close df)) w),
      ("parkinson_vol_" ++ toString w, parkinsonVol P (high df) (low df) w),
      ("ret_skew_" ++ toString w, rolled w P.skew (logReturns P (close df))),
      ("ret_kurt_" ++ toString w, rolled w P.kurt (logReturns P (close df))),
      ("volume_mean_" ++ toString w, rolled w mean (volume df))], Present c.2) ↔
      P.skew (lastReturns P df w) ≠ .nan ∧ P.kurt (lastReturns P df w) ≠ .nan := by
  have hrolled := fun agg => getLast?_rolled_returns hP hdf (w := w) agg hw
  have hmean : Present (rolled w mean (logReturns P (close df))) := .of_fin (hrolled mean)
  have hstd : Present (rolled w (std P) (logReturns P (close df))) := by
    rw [present_of_getLast? (hrolled (std P))]
    obtain ⟨y, hy⟩ := exists_std hP (lastReturns P df w)
    rw [hy]
    rintro ⟨⟩
  have hvolume : Present (rolled w mean (volume df)) := by
    have hfin : volume df = (df.map PriceRow.volume).map .fin := (List.map_map ..).symm
    have hlen : (volume df).length = df.length := List.length_map _
    refine .of_fin (getLast?_rolled mean (fun h => ?_) (by omega) (hfin ▸ rtake_map w Flt.fin _))
    rw [h, List.length_nil] at hlen
    omega
  simp only [List.forall_mem_cons, hmean, hstd, hvolume, present_realizedVol hP hdf hw,
    present_parkinsonVol hP hdf hw, present_of_getLast? (hrolled P.skew),
    present_of_getLast? (hrolled P.kurt), List.not_mem_nil, true_and]
  simp

/-! ## The row -/

include hP hdf in
theorem complete_iff (hw : 61 ≤ df.length) :
    (∀ v ∈ latestFeatureRow P df, v.2.isSome) ↔ ¬ VolumeStalls df ∧ ∀ w ∈ rollingWindows,
      P.skew (lastReturns P df w) ≠ .nan ∧ P.kurt (lastReturns P df w) ≠ .nan := by
  have hpresent : (∀ v ∈ latestFeatureRow P df, v.2.isSome) ↔
      ∀ c ∈ computeFeatures P df, Present c.2 := by
    unfold latestFeatureRow
    rw [List.forall_mem_map]
    exact forall₂_congr fun c _ => isSome_notNan_iff
  obtain ⟨y, hy⟩ := getLast?_logReturns hP hdf (by omega)
  have hsquare : ((logReturns P (close df)).map square).getLast? = some (.fin (y * y)) := by
    rw [List.getLast?_map, hy]
    rfl
  have hwindow : ∀ w ∈ rollingWindows, w + 1 ≤ df.length := by
    intro w hw'
    have hle : w ≤ 60 := by
      unfold rollingWindows at hw'
      simp only [List.mem_cons, List.not_mem_nil, or_false] at hw'
      omega
    omega
  rw [hpresent]
  unfold computeFeatures
  dsimp only
  rw [List.forall_mem_append]
  refine and_congr ?_ ?_
  · simp only [List.forall_mem_cons, Present.of_fin hy, Present.of_fin hsquare,
      present_volume_roc hdf (by omega), present_hlRange hdf (by omega), true_and]
    simp
  · simp only [List.mem_flatMap, forall_exists_index, and_imp]
    rw [forall_comm]
    refine forall_congr' fun w => ?_
    rw [forall_comm]
    refine forall_congr' fun hw' => ?_
    exact present_window hP hdf (hwindow w hw')

end Windows

/-! ## The stored rows -/

theorem values_featureRow (P : Numerics K) (df : List (PriceRow K)) (ts : ℤ) (symbol : Symbol) :
    (featureRow ts symbol (latestFeatureRow P df)).values =
      (latestFeatureRow P df).map Prod.snd := by
  unfold featureRow
  rw [← names_computeFeatures P df, List.map_map]
  unfold latestFeatureRow
  rw [List.map_map]
  refine List.map_congr_left fun c hc => ?_
  have hlookup := lookup_latestFeatureRow hc
  unfold latestFeatureRow at hlookup
  rw [Function.comp_apply, hlookup]
  rfl

theorem complete_featureRow (P : Numerics K) (df : List (PriceRow K)) (ts : ℤ) (symbol : Symbol) :
    Complete (featureRow ts symbol (latestFeatureRow P df)) ↔
      ∀ v ∈ latestFeatureRow P df, v.2.isSome := by
  unfold Complete
  rw [values_featureRow, List.forall_mem_map]
  refine forall₂_congr fun v hv => ?_
  obtain ⟨c, _, rfl⟩ := List.mem_map.mp hv
  rw [notNan_notNan]

/-- The frame of a candle after the warm-up holds valid candles, and enough for each window. -/
theorem bufferToDf_of_warm {P : Numerics K} {es : List (PriceRow K)} {candle : PriceRow K}
    (hvalid : ∀ c ∈ es ++ [candle], Valid c) (hwarm : Warm es candle) :
    (∀ c ∈ bufferToDf P (buffer es candle), Valid c) ∧
      61 ≤ (bufferToDf P (buffer es candle)).length := by
  have hperm := P.sortIndex_perm (buffer es candle)
  refine ⟨fun c hc => ?_, ?_⟩
  · exact hvalid c (List.mem_of_mem_filter (mem_of_mem_rtake (hperm.mem_iff.mp hc)))
  · have hmin : 62 ≤ (buffer es candle).length := hwarm
    unfold bufferToDf
    rw [hperm.length_eq]
    omega

/-- **Complete rows.** In exact arithmetic, the row that is stored for a candle is complete exactly
if the change of the volume is not 0 divided by 0 and no skewness or kurtosis is missing. -/
theorem complete_row_iff [IsStrictOrderedRing K] {P : Numerics K} (hP : Regular P)
    {es : List (PriceRow K)} {candle : PriceRow K} (hvalid : ∀ c ∈ es ++ [candle], Valid c)
    (hwarm : Warm es candle) :
    Complete (rowFor P es candle) ↔
      ¬ VolumeStalls (bufferToDf P (buffer es candle)) ∧ ∀ w ∈ rollingWindows,
        P.skew (lastReturns P (bufferToDf P (buffer es candle)) w) ≠ .nan ∧
          P.kurt (lastReturns P (bufferToDf P (buffer es candle)) w) ≠ .nan := by
  obtain ⟨hdf, hlen⟩ := bufferToDf_of_warm (P := P) hvalid hwarm
  unfold rowFor
  rw [complete_featureRow]
  exact complete_iff hP hdf hlen

/-! ## Steady candles -/

section Steady

variable {s : Symbol} {n : ℕ}

theorem valid_steady : ∀ c ∈ steady s n, Valid c := by
  intro c hc
  obtain ⟨i, _, rfl⟩ := mem_steady.mp hc
  exact ⟨one_pos, le_rfl, one_pos, zero_le_one⟩

theorem complete_steady (hn : 61 ≤ n) :
    Complete (rowFor realNumerics (steady s n) (steadyCandle s n)) := by
  obtain ⟨hdf, hlen⟩ := bufferToDf_of_warm (P := realNumerics) (steady_succ s n ▸ valid_steady)
    (warm_steady_iff.mpr hn)
  unfold rowFor
  rw [complete_featureRow]
  refine (complete_iff regular_realNumerics hdf hlen).mpr
    ⟨?_, fun w _ => ⟨by rintro ⟨⟩, by rintro ⟨⟩⟩⟩
  rintro ⟨l, p, r, hsplit, hp, _⟩
  have hmem : p ∈ buffer (steady s n) (steadyCandle s n) := by
    refine (realNumerics.sortIndex_perm _).mem_iff.mp ?_
    show p ∈ bufferToDf realNumerics _
    rw [hsplit]
    simp
  rw [buffer_steady] at hmem
  obtain ⟨i, _, rfl⟩ := mem_steady.mp (mem_of_mem_rtake hmem)
  exact one_ne_zero hp

end Steady

theorem complete_row_iff_steady : ¬ VolumeStalls
    (bufferToDf realNumerics (buffer (steady "BTCUSDT" 61) (steadyCandle "BTCUSDT" 61))) :=
  ((complete_row_iff regular_realNumerics (steady_succ _ 61 ▸ valid_steady)
    (warm_steady_iff.mpr le_rfl)).mp (complete_steady le_rfl)).1

end PortfolioEngine.Forecasting
