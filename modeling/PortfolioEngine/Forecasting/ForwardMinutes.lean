import PortfolioEngine.Forecasting.LabelAgreement

/-!
# The minutes of a realized volatility

The label function looks `FORWARD_WINDOW` rows ahead, not `FORWARD_WINDOW` minutes. Where a candle
is missing it looks further than it should.

`forward_minutes_iff`: what `_backfill_realized_vol` writes for a time is the volatility over the
next `FORWARD_WINDOW` minutes, if and only if it writes nothing or no candle of them is missing.
-/

namespace PortfolioEngine.Forecasting

open Features

/-! ## Rows on a grid -/

/-- The times `t`, `t + 1min`, and so on. -/
def minutesFrom (t : ℤ) (n : ℕ) : List ℤ := (List.range n).map fun j : ℕ => t + j * minute

theorem minutesFrom_succ (t : ℤ) (n : ℕ) :
    minutesFrom t (n + 1) = t :: minutesFrom (t + minute) n := by
  unfold minutesFrom
  rw [List.range_succ_eq_map, List.map_cons, List.map_map]
  refine congrArg₂ _ (by simp) (List.map_congr_left fun j _ => ?_)
  show t + ((j + 1 : ℕ) : ℤ) * minute = t + minute + j * minute
  push_cast
  ring

theorem truncMinute_add_minute (t : ℤ) : truncMinute (t + minute) = truncMinute t + minute := by
  unfold truncMinute minute; omega

theorem next_minute {l : List ℤ} {t s : ℤ} (h : (l.map truncMinute).Nodup)
    (ht : t ∈ l) (hnext : t + minute ∈ l) (hs : s ∈ l) (hlt : t < s) : t + minute ≤ s := by
  have hinj : ∀ a ∈ l, ∀ b ∈ l, truncMinute a = truncMinute b → a = b :=
    fun a ha b hb => List.inj_on_of_nodup_map h ha hb
  have hne : truncMinute t ≠ truncMinute s := fun hc => hlt.ne (hinj t ht s hs hc)
  have hle := truncMinute_mono hlt.le
  rcases eq_or_ne (truncMinute (t + minute)) (truncMinute s) with heq | hne'
  · exact (hinj _ hnext s hs heq).le
  · rw [truncMinute_add_minute] at hne'
    unfold truncMinute minute at *
    omega

/-- The first times are those of a run of minutes, if all of these are there. -/
theorem take_eq_minutesFrom {l : List ℤ} {t : ℤ} {n : ℕ} (hstrict : l.Pairwise (· < ·))
    (hminute : (l.map truncMinute).Nodup) (hle : ∀ s ∈ l, t ≤ s)
    (hmem : ∀ s ∈ minutesFrom t n, s ∈ l) : l.take n = minutesFrom t n := by
  -- on the number of minutes; the head of the list is the first of them
  induction n generalizing l t with
  | zero => rfl
  | succ n ih =>
    rw [minutesFrom_succ] at hmem ⊢
    have ht : t ∈ l := hmem t List.mem_cons_self
    cases l with
    | nil => cases ht
    | cons s l =>
      obtain ⟨hhead, htail⟩ := List.pairwise_cons.mp hstrict
      have hst : s = t := by
        rcases List.mem_cons.mp ht with rfl | ht
        · rfl
        · exact absurd (hhead t ht) (not_lt.mpr (hle s List.mem_cons_self))
      subst hst
      have hrest : ∀ u ∈ minutesFrom (s + minute) n, u ∈ l := by
        intro u hu
        rcases List.mem_cons.mp (hmem u (List.mem_cons_of_mem s hu)) with rfl | hu'
        · obtain ⟨j, _, hj⟩ := List.mem_map.mp hu
          have hpos : 0 ≤ (j : ℤ) * minute := by unfold minute; omega
          unfold minute at hj hpos
          omega
        · exact hu'
      rw [List.take_succ_cons]
      cases n with
      | zero => rfl
      | succ n =>
        have hnext : s + minute ∈ s :: l := by
          refine hmem _ (List.mem_cons_of_mem s ?_)
          rw [minutesFrom_succ]
          exact List.mem_cons_self
        rw [ih htail (List.nodup_cons.mp hminute).2 (fun u hu => ?_) hrest]
        exact next_minute hminute List.mem_cons_self hnext (List.mem_cons_of_mem s hu) (hhead u hu)

/-! ## The volatility of positive closes -/

/-- What is used of numpy: its logarithm and square root are the real ones. -/
structure RealFunctions (P : Numerics ℝ) : Prop where
  log_fin : ∀ x, 0 < x → P.log (.fin x) = .fin (Real.log x)
  sqrt_fin : ∀ x, 0 ≤ x → P.sqrt (.fin x) = .fin (Real.sqrt x)

/-- The square root of the sum of the squared log returns between consecutive closes. -/
noncomputable def logVol (closes : List ℝ) : ℝ :=
  Real.sqrt (List.zipWith (fun next close => Real.log (next / close) ^ 2) closes.tail closes).sum

theorem logVol_map_range (c : ℕ → ℝ) (n : ℕ) :
    logVol ((List.range (n + 1)).map c) =
      Real.sqrt (∑ j ∈ Finset.range n, Real.log (c (j + 1) / c j) ^ 2) := by
  have hzip : List.zipWith (fun next close => Real.log (next / close) ^ 2)
      ((List.range (n + 1)).map c).tail ((List.range (n + 1)).map c) =
        (List.range n).map fun j => Real.log (c (j + 1) / c j) ^ 2 := by
    refine List.ext_getElem (by simp) fun i hi hi' => ?_
    simp
  unfold logVol
  rw [hzip]
  rfl

theorem windowVol_fin {P : Numerics ℝ} (hP : RealFunctions P) {closes : List ℝ}
    (h : ∀ c ∈ closes, 0 < c) : windowVol P (closes.map .fin) = .fin (logVol closes) := by
  have hsquares : (List.zipWith Flt.div (closes.map Flt.fin).tail (closes.map .fin)).map
      (fun x => square (P.log x)) =
        (List.zipWith (fun next close => Real.log (next / close) ^ 2) closes.tail closes).map
          .fin := by
    simp only [← List.map_tail, List.zipWith_map, List.map_zipWith]
    rw [← List.map_uncurry_zip_eq_zipWith, ← List.map_uncurry_zip_eq_zipWith]
    refine List.map_congr_left fun p hp => ?_
    obtain ⟨hnext, hclose⟩ := List.of_mem_zip hp
    have hc := h p.2 hclose
    have hc' := h p.1 (List.mem_of_mem_tail hnext)
    show square (P.log ((Flt.fin p.1).div (.fin p.2))) = .fin (Real.log (p.1 / p.2) ^ 2)
    rw [Flt.div_fin hc.ne', hP.log_fin _ (div_pos hc' hc), pow_two]
    rfl
  unfold windowVol logVol
  rw [hsquares, forwardVol_fin, hP.sqrt_fin]
  refine List.sum_nonneg fun x hx => ?_
  rw [← List.map_uncurry_zip_eq_zipWith] at hx
  obtain ⟨p, _, rfl⟩ := List.mem_map.mp hx
  exact sq_nonneg _

/-! ## What is written -/

/-- There is at most one candle of a symbol in a minute. -/
def OnePerMinute (prices : List (PriceRow (Flt ℝ))) : Prop :=
  (prices.map fun r => (r.symbol, truncMinute r.time)).Nodup

/-- No candle of the symbol is missing from `t` to `FORWARD_WINDOW` minutes later. -/
def NoneMissing (prices : List (PriceRow (Flt ℝ))) (symbol : Symbol) (t : ℤ) : Prop :=
  ∀ j ≤ forwardWindow, (symbol, t + j * minute) ∈ prices.map PriceRow.key

/-- There are a candle of `t` and `FORWARD_WINDOW` later ones. -/
def EnoughRows (prices : List (PriceRow (Flt ℝ))) (symbol : Symbol) (t : ℤ) : Prop :=
  (symbol, t) ∈ prices.map PriceRow.key ∧
    forwardWindow < (prices.filter fun r => r.symbol = symbol ∧ t ≤ r.time).length

/-- `w` is the volatility of the `FORWARD_WINDOW` minutes after `t`, all of whose closes are
there. -/
def MinuteVol (prices : List (PriceRow (Flt ℝ))) (symbol : Symbol) (t : ℤ) (w : Flt ℝ) : Prop :=
  ∃ c : ℕ → ℝ,
    (∀ j ≤ forwardWindow, ∃ r ∈ prices, r.key = (symbol, t + j * minute) ∧ r.close = .fin (c j)) ∧
      w = .fin (Real.sqrt (∑ j ∈ Finset.range forwardWindow, Real.log (c (j + 1) / c j) ^ 2))

section Written

variable {P : Numerics ℝ} {prices : List (PriceRow (Flt ℝ))} {symbol : Symbol} {t : ℤ}

theorem OnePerMinute.nodup_keys (h : OnePerMinute prices) : (prices.map PriceRow.key).Nodup := by
  have hmap : (prices.map fun r => (r.symbol, truncMinute r.time)) =
      (prices.map PriceRow.key).map fun k => (k.1, truncMinute k.2) := by
    rw [List.map_map]
    rfl
  unfold OnePerMinute at h
  rw [hmap] at h
  exact h.of_map _

theorem OnePerMinute.nodup_minutes (h : OnePerMinute prices) :
    ((timesAhead (prices.map PriceRow.key) symbol t).map truncMinute).Nodup := by
  refine List.Nodup.map_on (fun a ha b hb hab => ?_) ?_
  · obtain ⟨ha, _⟩ := mem_timesAhead.mp ha
    obtain ⟨hb, _⟩ := mem_timesAhead.mp hb
    obtain ⟨r, hr, hrk⟩ := List.mem_map.mp ha
    obtain ⟨r', hr', hrk'⟩ := List.mem_map.mp hb
    obtain ⟨hrs, rfl⟩ := Prod.mk.inj hrk
    obtain ⟨hrs', rfl⟩ := Prod.mk.inj hrk'
    exact congrArg PriceRow.time
      (Tables.eq_of_key_eq h hr hr' (Prod.ext (hrs.trans hrs'.symm) hab))
  · exact (strict_timesAhead symbol t h.nodup_keys).imp fun hab => hab.ne

theorem mem_closesAhead {x : ℤ × Flt ℝ} : x ∈ closesAhead prices symbol t ↔
    ∃ r ∈ prices, r.symbol = symbol ∧ t ≤ r.time ∧ (r.time, r.close) = x := by
  unfold closesAhead timedCloses
  rw [Backlog.mem_ordered, List.mem_map]
  simp only [List.mem_filter, decide_eq_true_eq, and_assoc]

theorem length_closesAhead : (closesAhead prices symbol t).length =
    (prices.filter fun r => r.symbol = symbol ∧ t ≤ r.time).length := by
  unfold closesAhead timedCloses
  rw [(Backlog.perm_ordered Prod.fst _).length_eq, List.length_map]

theorem exists_positive {xs : Series ℝ} (h : ∀ x ∈ xs, ∃ c, 0 < c ∧ x = .fin c) :
    ∃ closes : List ℝ, (∀ c ∈ closes, 0 < c) ∧ xs = closes.map .fin := by
  obtain ⟨closes, rfl⟩ := exists_map_fin (fun x hx => Or.inr ((h x hx).imp fun _ hc => hc.2))
    fun hnan => by obtain ⟨c, _, hc⟩ := h _ hnan; cases hc
  refine ⟨closes, fun c hc => ?_, rfl⟩
  obtain ⟨c', hpos, hc'⟩ := h _ (List.mem_map_of_mem hc)
  exact Flt.fin.inj hc' ▸ hpos

/-- With positive closes, a label is missing only where there are not enough rows. -/
theorem aheadLabel_closes (hP : RealFunctions P)
    (hclose : ∀ r ∈ prices, ∃ c, 0 < c ∧ r.close = .fin c) (symbol : Symbol) (t : ℤ) :
    ∃ closes : List ℝ, ((closesAhead prices symbol t).take (forwardWindow + 1)).map Prod.snd =
        closes.map .fin ∧ ∀ w, aheadLabel P t (closesAhead prices symbol t) = some w ↔
          EnoughRows prices symbol t ∧ w = .fin (logVol closes) := by
  have hpositive : ∀ x ∈ ((closesAhead prices symbol t).take (forwardWindow + 1)).map Prod.snd,
      ∃ c, 0 < c ∧ x = .fin c := by
    intro x hx
    obtain ⟨p, hp, rfl⟩ := List.mem_map.mp hx
    obtain ⟨r, hr, _, _, rfl⟩ := mem_closesAhead.mp (List.mem_of_mem_take hp)
    exact hclose r hr
  obtain ⟨closes, hpos, hcloses⟩ := exists_positive hpositive
  refine ⟨closes, hcloses, fun w => ?_⟩
  have hrows : (t ∈ (closesAhead prices symbol t).map Prod.fst ∧
      forwardWindow < (closesAhead prices symbol t).length) ↔ EnoughRows prices symbol t := by
    rw [times_closesAhead, mem_timesAhead, length_closesAhead]
    simp only [le_refl, and_true]
    rfl
  unfold aheadLabel
  rw [← List.map_take, hcloses, windowVol_fin hP hpos]
  by_cases h : EnoughRows prices symbol t
  · rw [if_pos (hrows.mpr h)]
    have hlabel : notNan (some (.fin (logVol closes))) = some (Flt.fin (logVol closes)) := rfl
    rw [hlabel, Option.some_inj, eq_comm, and_iff_right h]
  · rw [if_neg fun hc => h (hrows.mp hc)]
    simp [h]

/-- Where no candle is missing, the rows that the label looks at are the minutes from `t` on. -/
theorem minuteVol_logVol (hminute : OnePerMinute prices) (hnone : NoneMissing prices symbol t)
    {closes : List ℝ} (hcloses : ((closesAhead prices symbol t).take (forwardWindow + 1)).map
      Prod.snd = closes.map .fin) : MinuteVol prices symbol t (.fin (logVol closes)) := by
  -- one row a minute and none missing: the next six rows are the next six minutes
  have htimes : ((closesAhead prices symbol t).take (forwardWindow + 1)).map Prod.fst =
      minutesFrom t (forwardWindow + 1) := by
    rw [List.map_take, times_closesAhead]
    refine take_eq_minutesFrom (strict_timesAhead symbol t hminute.nodup_keys)
      hminute.nodup_minutes (fun s hs => (mem_timesAhead.mp hs).2) fun s hs => ?_
    obtain ⟨j, hj, rfl⟩ := List.mem_map.mp hs
    have hlater : t ≤ t + j * minute := by
      have hpos : 0 ≤ (j : ℤ) * minute := by unfold minute; omega
      omega
    exact mem_timesAhead.mpr ⟨hnone j (Nat.lt_succ_iff.mp (List.mem_range.mp hj)), hlater⟩
  have hlength : closes.length = forwardWindow + 1 := by
    have h := congrArg List.length (hcloses.symm)
    rw [List.length_map, List.length_map] at h
    rw [h, ← List.length_map Prod.fst, htimes]
    simp [minutesFrom]
  refine ⟨fun j => closes.getD j 0, fun j hj => ?_, ?_⟩
  · have hfst := congrArg (·[j]?) htimes
    have hsnd := congrArg (·[j]?) hcloses
    have hjlt : j < closes.length := by omega
    simp only [minutesFrom, List.getElem?_map, List.getElem?_range (Nat.lt_succ_of_le hj),
      List.getElem?_eq_getElem hjlt, Option.map_some, Option.map_eq_some_iff] at hfst hsnd
    obtain ⟨p, hp, htime⟩ := hfst
    obtain ⟨p', hp', hprice⟩ := hsnd
    obtain rfl : p = p' := Option.some.inj (hp.symm.trans hp')
    obtain ⟨r, hr, hsym, _, rfl⟩ :=
      mem_closesAhead.mp (List.mem_of_mem_take (List.mem_of_getElem? hp))
    refine ⟨r, hr, Prod.ext hsym htime, hprice.trans ?_⟩
    simp [hjlt]
  · have hall : closes = (List.range (forwardWindow + 1)).map fun j => closes.getD j 0 := by
      refine List.ext_getElem (by simp [hlength]) fun j hj _ => ?_
      simp [hj]
    rw [← logVol_map_range fun j => closes.getD j 0, ← hall]

end Written

/-- **The minutes of a realized volatility.** Whatever `_backfill_realized_vol` writes for `t` is
the volatility of the next `FORWARD_WINDOW` minutes, if and only if `t` is not pending, there are
not enough rows, or none of the candles is missing. -/
theorem forward_minutes_iff {P : Numerics ℝ} (hP : RealFunctions P)
    {prices : List (PriceRow (Flt ℝ))} (hminute : OnePerMinute prices)
    (hclose : ∀ r ∈ prices, ∃ c, 0 < c ∧ r.close = .fin c) (forecasts : List (ForecastRow ℝ))
    (symbol : Symbol) (now t : ℤ) :
    (∀ w, Fills P symbol prices now forecasts t w → MinuteVol prices symbol t w) ↔
      (t ∈ fetchForecastsMissingRealized forecasts symbol forwardWindow now →
        EnoughRows prices symbol t → NoneMissing prices symbol t) := by
  have hkeys := hminute.nodup_keys
  obtain ⟨closes, hcloses, hlabel⟩ := aheadLabel_closes hP hclose symbol t
  have hfills : ∀ w, Fills P symbol prices now forecasts t w ↔
      t ∈ fetchForecastsMissingRealized forecasts symbol forwardWindow now ∧
        EnoughRows prices symbol t ∧ w = .fin (logVol closes) := by
    intro w
    rw [fills_iff hkeys, labelAt_prices P hkeys, hlabel]
  constructor
  · intro hmeets hpending hrows j hj
    obtain ⟨c, hc, _⟩ := hmeets _ ((hfills _).mpr ⟨hpending, hrows, rfl⟩)
    obtain ⟨r, hr, hkey, _⟩ := hc j hj
    exact List.mem_map.mpr ⟨r, hr, hkey⟩
  · intro hnone w hw
    obtain ⟨hpending, hrows, rfl⟩ := (hfills w).mp hw
    exact minuteVol_logVol hminute (hnone hpending hrows) hcloses

/-! Candles of the minutes 0, 2, 3, 4, 5 and 6. -/

theorem realFunctions_realNumerics : RealFunctions realNumerics where
  log_fin _ hx := if_pos hx
  sqrt_fin _ hx := if_pos hx

/-- The candles without that of the first minute. -/
noncomputable def lateCandles : List (PriceRow (Flt ℝ)) :=
  [0, 2, 3, 4, 5, 6].map fun i =>
    { time := i * minute, symbol := "BTCUSDT", opening := .fin 1, high := .fin 1, low := .fin 1,
      close := .fin 1, volume := .fin 1 }

theorem onePerMinute_late : OnePerMinute lateCandles := by
  unfold OnePerMinute lateCandles
  rw [List.map_map]
  decide

theorem close_late : ∀ r ∈ lateCandles, ∃ c, 0 < c ∧ r.close = .fin c := by
  intro r hr
  obtain ⟨_, _, rfl⟩ := List.mem_map.mp hr
  exact ⟨1, one_pos, rfl⟩

theorem keys_late : lateCandles.map PriceRow.key =
    [0, 2, 3, 4, 5, 6].map fun i => ("BTCUSDT", i * minute) := by
  unfold lateCandles
  rw [List.map_map]
  rfl

/-- A value is written for minute 0 although minute 1 is missing. -/
theorem late_candle_filled : OnePerMinute lateCandles ∧
    (∀ r ∈ lateCandles, ∃ c, 0 < c ∧ r.close = .fin c) ∧
    ("BTCUSDT", 0 + 1 * minute) ∉ lateCandles.map PriceRow.key ∧
    ∃ w, Fills realNumerics "BTCUSDT" lateCandles (6 * minute) gapForecasts 0 w ∧
      ¬MinuteVol lateCandles "BTCUSDT" 0 w := by
  have hmissing : ("BTCUSDT", 0 + 1 * minute) ∉ lateCandles.map PriceRow.key := by
    rw [keys_late]
    decide
  obtain ⟨closes, _, hlabel⟩ := aheadLabel_closes realFunctions_realNumerics close_late "BTCUSDT" 0
  have hrows : EnoughRows lateCandles "BTCUSDT" 0 := by
    refine ⟨by rw [keys_late]; decide, ?_⟩
    unfold lateCandles
    rw [List.filter_map, List.length_map]
    decide
  refine ⟨onePerMinute_late, close_late, hmissing, .fin (logVol closes), ?_, ?_⟩
  · rw [fills_iff onePerMinute_late.nodup_keys, labelAt_prices _ onePerMinute_late.nodup_keys]
    exact ⟨missing_gap, (hlabel _).mpr ⟨hrows, rfl⟩⟩
  · rintro ⟨c, hc, _⟩
    obtain ⟨r, hr, hkey, _⟩ := hc 1 (by decide)
    exact hmissing (List.mem_map.mpr ⟨r, hr, hkey⟩)

/-- The theorem for these candles. -/
theorem forward_minutes_iff_late :
    (∀ w, Fills realNumerics "BTCUSDT" lateCandles (6 * minute) gapForecasts 0 w →
        MinuteVol lateCandles "BTCUSDT" 0 w) ↔
      (0 ∈ fetchForecastsMissingRealized gapForecasts "BTCUSDT" forwardWindow (6 * minute) →
        EnoughRows lateCandles "BTCUSDT" 0 → NoneMissing lateCandles "BTCUSDT" 0) :=
  forward_minutes_iff realFunctions_realNumerics onePerMinute_late close_late gapForecasts
    "BTCUSDT" (6 * minute) 0

end PortfolioEngine.Forecasting
