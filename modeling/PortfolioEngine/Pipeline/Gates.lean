import PortfolioEngine.Forecasting.CompleteRows
import PortfolioEngine.Pipeline.WriteOnce
import PortfolioEngine.Portfolio.LedgerRefinement

/-!
# The waits before the first rebalance

The portfolio engine polls `prices` and `forecasts` until each symbol has rows, and then rebalances
for as long as it runs. `rebalance_inputs`: from a poll that passed on, the waits pass in every
state, after a restart at once, and each rebalance that reads the clock later finds for each symbol
a price and a forecast with a volatility that is not NULL. So `choose_target_vols` never comes to
its last branch, where a symbol has neither volatility.
-/

namespace PortfolioEngine.Pipeline

open Tables Features Forecasting RunRebalance

variable {K : Type*} {n : ℕ}

/-! ## The waits -/

/-- What the waits test at a poll: `SELECT symbol, COUNT(*) .. GROUP BY symbol` has each symbol,
with at least `minRows`. -/
def countsReady {ρ : Type*} (symbol : ρ → Symbol) (symbols : List Symbol) (minRows : ℤ)
    (rows : List ρ) : Bool :=
  symbols.all fun s =>
    let count := (rows.filter fun r => symbol r = s).length
    0 < count && minRows ≤ count

/-- `wait_for_features` returns at a poll. -/
def waitForFeatures (symbols : List Symbol) (minRows : ℤ) (features : List (FeatureRow K)) : Bool :=
  countsReady FeatureRow.symbol symbols minRows features

/-- `wait_for_prices` returns at a poll. -/
def waitForPrices (symbols : List Symbol) (minRows : ℤ) (prices : List (PriceRow K)) : Bool :=
  countsReady PriceRow.symbol symbols minRows prices

/-- `garch_vol IS NOT NULL OR xgb_vol IS NOT NULL`. -/
def HasVol (r : ForecastRow K) : Bool := r.garchVol.isSome || r.xgbVol.isSome

/-- `wait_for_forecasts` returns at a poll. -/
def waitForForecasts (symbols : List Symbol) (forecasts : List (ForecastRow K)) : Bool :=
  countsReady ForecastRow.symbol symbols 1 (forecasts.filter HasVol)

section Counts

variable {ρ γ : Type*} {symbol : ρ → Symbol} {symbols : List Symbol} {minRows : ℤ}

theorem countsReady_map (g : ρ → γ) (symbol : γ → Symbol) (rows : List ρ) :
    countsReady symbol symbols minRows (rows.map g) =
      countsReady (fun r => symbol (g r)) symbols minRows rows := by
  unfold countsReady
  simp only [List.filter_map, List.length_map, Function.comp_def]

theorem countsReady_mono {rows rows' : List ρ} (hpre : rows <+: rows')
    (h : countsReady symbol symbols minRows rows = true) :
    countsReady symbol symbols minRows rows' = true := by
  unfold countsReady at h ⊢
  rw [List.all_eq_true] at h ⊢
  intro s hs
  have hle := (hpre.filter fun r => symbol r = s).length_le
  have hcount := h s hs
  simp only [Bool.and_eq_true, decide_eq_true_eq] at hcount ⊢
  omega

theorem exists_of_countsReady {rows : List ρ} {s : Symbol}
    (h : countsReady symbol symbols minRows rows = true) (hs : s ∈ symbols) :
    ∃ r ∈ rows, symbol r = s := by
  unfold countsReady at h
  have hcount := List.all_eq_true.mp h s hs
  simp only [Bool.and_eq_true, decide_eq_true_eq] at hcount
  obtain ⟨r, hr⟩ := List.exists_mem_of_length_pos hcount.1
  obtain ⟨hmem, hsymbol⟩ := List.mem_filter.mp hr
  exact ⟨r, hmem, of_decide_eq_true hsymbol⟩

theorem countsReady_of_exists {rows : List ρ} (h : ∀ s ∈ symbols, ∃ r ∈ rows, symbol r = s) :
    countsReady symbol symbols 1 rows = true := by
  unfold countsReady
  refine List.all_eq_true.mpr fun s hs => ?_
  obtain ⟨r, hr, hsymbol⟩ := h s hs
  have hpos : 0 < (rows.filter fun r => symbol r = s).length :=
    List.length_pos_of_mem (List.mem_filter.mpr ⟨hr, decide_eq_true hsymbol⟩)
  simp only [Bool.and_eq_true, decide_eq_true_eq]
  omega

theorem waitForForecasts_eq (symbols : List Symbol) (forecasts : List (ForecastRow K)) :
    waitForForecasts symbols forecasts = countsReady (fun p => p.1.1) symbols 1
      ((forecasts.map ForecastRow.predicted).filter fun p => p.2.1.isSome || p.2.2.isSome) := by
  rw [List.filter_map, countsReady_map]
  rfl

end Counts

/-! ## What a rebalance finds -/

section Found

variable [Field K] [LinearOrder K]

/-- The queries of a rebalance as of a minute have an entry for each symbol. -/
structure Inputs (symbols : Fin n → Symbol) (w : World K) (asOf : ℤ) : Prop where
  forecasts : ∃ d, fetchLatestForecasts psycopg symbols w.forecasts asOf = .ok d ∧
    ∀ i, ∃ row, d.lookup (symbols i) = some row ∧ (row.garchVol.isSome ∨ row.xgbVol.isSome)
  prices : ∃ d, fetchLatestPrices psycopg symbols (w.market.prices.map numericPrice) asOf = .ok d ∧
    ∀ i, (d.lookup (symbols i)).isSome

omit [Field K] [LinearOrder K] in
/-- A forecast that counts is found, or a later one. -/
theorem exists_forecast {symbols : Fin n → Symbol} {forecasts : List (ForecastRow K)} {asOf : ℤ}
    (h : ∀ i, ∃ r ∈ forecasts, r.symbol = symbols i ∧ r.time ≤ asOf ∧ HasVol r) :
    ∃ d, fetchLatestForecasts psycopg symbols forecasts asOf = .ok d ∧
      ∀ i, ∃ row, d.lookup (symbols i) = some row ∧
        (row.garchVol.isSome ∨ row.xgbVol.isSome) := by
  unfold fetchLatestForecasts
  refine ⟨_, AdaptsPlain.execute (fun _ hp => hp) rfl _, fun i => ?_⟩
  obtain ⟨r, hr, hsymbol, htime, hvol⟩ := h i
  obtain ⟨x, hx⟩ := latest_isSome ForecastRow.time (x := r) (t := forecasts.filter fun r =>
    r.symbol = symbols i ∧ r.time ≤ asOf ∧ (r.garchVol.isSome || r.xgbVol.isSome))
    (List.mem_filter.mpr ⟨hr, decide_eq_true ⟨hsymbol, htime, hvol⟩⟩)
  refine ⟨⟨x.garchVol, x.xgbVol⟩, ?_, ?_⟩
  · unfold latestPerSymbol
    rw [Dict.lookup_filterMap, if_pos, hx]
    · rfl
    · rw [List.mem_dedup]
      exact List.mem_ofFn.mpr ⟨i, rfl⟩
    · intro s r hr
      exact (of_decide_eq_true (List.mem_filter.mp (mem_of_latest hr)).2).1
  · have hcounts := (of_decide_eq_true (List.mem_filter.mp (mem_of_latest hx)).2).2.2
    rwa [Bool.or_eq_true] at hcounts

omit [Field K] [LinearOrder K] in
theorem exists_price {symbols : Fin n → Symbol} {prices : List (PriceRow K)} {asOf : ℤ}
    (h : ∀ i, ∃ r ∈ prices, r.symbol = symbols i ∧ r.time ≤ asOf) :
    ∃ d, fetchLatestPrices psycopg symbols (prices.map numericPrice) asOf = .ok d ∧
      ∀ i, (d.lookup (symbols i)).isSome := by
  have hplain : AdaptsPlain (psycopg (K := K)) := fun _ hp => hp
  obtain ⟨d, hd, hlookup⟩ := fetchLatestPrices_numeric symbols hplain prices asOf
  refine ⟨d, hd, fun i => ?_⟩
  obtain ⟨r, hr, hsymbol, htime⟩ := h i
  obtain ⟨x, hx⟩ := latest_isSome PriceRow.time (x := r) (t := prices.filter fun r =>
    r.symbol = symbols i ∧ r.time ≤ asOf)
    (List.mem_filter.mpr ⟨hr, decide_eq_true ⟨hsymbol, htime⟩⟩)
  rw [hlookup]
  unfold Ledger.fetchLatestPrice
  rw [if_pos ⟨i, rfl⟩, hx]
  rfl

variable {P : Numerics K} {s w : World K}

theorem le_truncMinute {now t : ℤ} (hminute : truncMinute t = t) (ht : t ≤ now) :
    t ≤ truncMinute now :=
  hminute ▸ truncMinute_mono ht

/-- The candles that have come opened at whole minutes that are past. -/
def Opened (s : World K) : Prop :=
  ∀ c ∈ s.market.stream, truncMinute c.time = c.time ∧ c.time ≤ s.clock

/-- **The inputs of a rebalance.** Once the waits have passed, with candles that opened at whole
minutes by then, they pass in every later state, and a rebalance whose clock was read after that
finds in every later state, for each symbol, a price and a forecast with a volatility. -/
theorem rebalance_inputs {es : List (Event K)} (h : Reachable P s) (hopened : Opened s)
    (hrun : Runs.run (step P) s es = some w) {symbols : Fin n → Symbol} {minRows : ℤ}
    (hprices : waitForPrices (List.ofFn symbols) minRows s.market.prices = true)
    (hforecasts : waitForForecasts (List.ofFn symbols) s.forecasts = true) {now : ℤ}
    (hnow : s.clock ≤ now) :
    waitForPrices (List.ofFn symbols) minRows w.market.prices = true ∧
      waitForForecasts (List.ofFn symbols) w.forecasts = true ∧
      Inputs symbols w (truncMinute now) := by
  have hkept := kept_of_run h hrun
  have hintegrity := h.inv.references
  refine ⟨countsReady_mono hkept.prices hprices, ?_, ?_, ?_⟩
  · rw [waitForForecasts_eq] at hforecasts ⊢
    exact countsReady_mono (hkept.predictions.filter _) hforecasts
  · refine exists_forecast fun i => ?_
    obtain ⟨r, hr, hsymbol⟩ := exists_of_countsReady hforecasts (List.mem_ofFn.mpr ⟨i, rfl⟩)
    obtain ⟨hr, hvol⟩ := List.mem_filter.mp hr
    obtain ⟨x, hx, hpredicted⟩ :=
      List.mem_map.mp (hkept.predictions.subset (List.mem_map_of_mem hr))
    obtain ⟨hkey, hvols⟩ := Prod.mk.inj hpredicted
    obtain ⟨hgarch, hxgb⟩ := Prod.mk.inj hvols
    obtain ⟨hxsymbol, hxtime⟩ := Prod.mk.inj hkey
    -- The forecast belongs to features, and these to a price that had opened by the poll.
    obtain ⟨_, f, hf, hfkey, _⟩ := hintegrity.featured r hr
    obtain ⟨p, hp, hpkey⟩ := List.mem_map.mp (hintegrity.priced f hf)
    obtain ⟨hminute, hpast⟩ := hopened p (h.inv.mem_stream hp)
    have htime : p.time = x.time :=
      (congrArg Prod.snd (hpkey.trans hfkey)).trans hxtime.symm
    refine ⟨x, hx, hxsymbol.trans hsymbol, ?_, ?_⟩
    · rw [← htime]
      exact le_truncMinute hminute (hpast.trans hnow)
    · unfold HasVol
      rw [hgarch, hxgb]
      exact hvol
  · refine exists_price fun i => ?_
    obtain ⟨p, hp, hsymbol⟩ := exists_of_countsReady hprices (List.mem_ofFn.mpr ⟨i, rfl⟩)
    obtain ⟨hminute, hpast⟩ := hopened p (h.inv.mem_stream hp)
    exact ⟨p, hkept.prices.subset hp, hsymbol, le_truncMinute hminute (hpast.trans hnow)⟩

end Found

/-! ## Steady candles -/

section Steady

variable {n : ℕ} (t : ℤ) (b : Bundle ℝ)

theorem opened_steadyWorld {t : ℤ} (ht : n * minute ≤ t + minute) :
    Opened (steadyWorld n t b) := by
  intro c hc
  rw [stream_steadyWorld] at hc
  obtain ⟨i, hi, rfl⟩ := mem_steady.mp hc
  show truncMinute (i * minute) = i * minute ∧ (i : ℤ) * minute ≤ t
  unfold truncMinute minute at *
  omega

theorem waitForPrices_steadyWorld (hn : 0 < n) :
    waitForPrices [ "BTCUSDT"] n (steadyWorld n t b).market.prices = true := by
  have hall : (steady "BTCUSDT" n).filter (fun r => r.symbol = "BTCUSDT") = steady "BTCUSDT" n :=
    List.filter_eq_self.mpr fun c hc => by
      obtain ⟨i, _, rfl⟩ := mem_steady.mp hc
      rfl
  unfold waitForPrices countsReady
  rw [prices_steadyWorld, List.all_cons, List.all_nil, hall, length_steady]
  simp [hn]

theorem waitForForecasts_steadyWorld (hn : 61 < n) (hgarch : b.garch.isSome) :
    waitForForecasts [ "BTCUSDT"] (steadyWorld n t b).forecasts = true := by
  have hfilled : Filled (inferSymbol realNumerics "BTCUSDT"
      ((turnWorld realNumerics t (steady "BTCUSDT" n)).visit (some b)) []) := by
    refine (filled_inferSymbol realNumerics).mpr ⟨List.forall_mem_nil _, ?_⟩
    rintro ⟨b', hb, _, hnone, _⟩
    obtain rfl := Option.some.inj hb
    rw [hnone] at hgarch
    cases hgarch
  obtain ⟨r, hr, hkey⟩ := List.mem_map.mp (mem_keys_steadyWorld t b hn)
  refine countsReady_of_exists fun s hs => ⟨r, List.mem_filter.mpr ⟨hr, ?_⟩, ?_⟩
  · exact Bool.or_eq_true_iff.mpr (hfilled r hr)
  · rw [List.mem_singleton.mp hs]
    exact congrArg Prod.fst hkey

end Steady

/-- A rebalance after the inference loop has been killed and a minute has gone by. -/
theorem rebalance_inputs_steady : ∃ w : World ℝ,
    Runs.run (step realNumerics) (steadyWorld 68 (67 * minute) steadyBundle)
      [.crash, .market (.xadd (steadyCandle "BTCUSDT" 68)), .tick (68 * minute)] = some w ∧
    waitForPrices [ "BTCUSDT"] 68 w.market.prices = true ∧
    waitForForecasts [ "BTCUSDT"] w.forecasts = true ∧
    Inputs ![ "BTCUSDT"] w (truncMinute (68 * minute)) := by
  obtain ⟨w, hrun⟩ : ∃ w, Runs.run (step realNumerics)
      (steadyWorld 68 (67 * minute) steadyBundle)
      [.crash, .market (.xadd (steadyCandle "BTCUSDT" 68)), .tick (68 * minute)] = some w :=
    ⟨_, rfl⟩
  have hclock : (steadyWorld 68 (67 * minute) steadyBundle).clock ≤ 68 * minute := by
    rw [clock_steadyWorld]
    decide
  exact ⟨w, hrun, @rebalance_inputs ℝ 1 _ _ _ _ _ _ (reachable_steadyWorld _ _ _)
    (opened_steadyWorld _ (by decide)) hrun ![ "BTCUSDT"] 68
    (waitForPrices_steadyWorld _ _ (by decide))
    (waitForForecasts_steadyWorld _ _ (by decide) rfl) _ hclock⟩

end PortfolioEngine.Pipeline
