import PortfolioEngine.Portfolio.RunRebalance

/-!
# The rebalance refines the ledger

On numbers `_run_rebalance` is the rebalance of the ledger: where no price is NULL, infinite or NaN,
it stores the row of the ledger, and so does every run of it from the empty table. Both statements
are about a driver that adapts the dictionary of the weights.
-/

namespace PortfolioEngine.RunRebalance

open Tables Ledger Allocator Outputs

variable {K : Type*} [Field K] [LinearOrder K] {n : ℕ}

/-! ## Numbers as floats -/

/-- A candle of numbers, as the engine reads it. -/
def numericPrice (r : PriceRow K) : PriceRow (Option (Flt K)) where
  time := r.time
  symbol := r.symbol
  opening := some (.fin r.opening)
  high := some (.fin r.high)
  low := some (.fin r.low)
  close := some (.fin r.close)
  volume := some (.fin r.volume)

def numericPoint (p : PricePoint K) : PricePoint (Flt K) := ⟨p.time, .fin p.close⟩

def numericRow (row : PortfolioRow K) : PortfolioRow (Flt K) where
  time := row.time
  weights := row.weights.mapValues .fin
  portfolioVol := row.portfolioVol.map .fin
  sharpeProxy := row.sharpeProxy.map .fin
  equity := row.equity.map .fin
  transactionCost := row.transactionCost.map .fin
  turnover := row.turnover.map .fin
  periodPnl := row.periodPnl.map .fin
  cumulativePnl := row.cumulativePnl.map .fin

def numericPrevious (p : Previous K) : Previous (Flt K) :=
  ⟨p.time, p.weights.mapValues .fin, .fin p.equity, .fin p.cumulativePnl⟩

def numericPnl (p : Pnl K) : Pnl (Flt K) :=
  ⟨.fin p.grossReturn, .fin p.netReturn, .fin p.turnover, .fin p.transactionCost, .fin p.equity,
    .fin p.periodPnl, .fin p.cumulativePnl⟩

/-! ## The prices -/

section Prices

variable {ρ ρ' : Type*} (symbols : Fin n → Symbol)

theorem latestPerSymbol_map {symbol : ρ → Symbol} {symbol' : ρ' → Symbol} {time : ρ → ℤ}
    {time' : ρ' → ℤ} {f : ρ → ρ'} (hsymbol : ∀ r, symbol' (f r) = symbol r)
    (htime : ∀ r, time' (f r) = time r) (asOf : ℤ) (rows : List ρ) :
    latestPerSymbol symbols symbol' time' (fun _ => true) asOf (rows.map f) =
      (latestPerSymbol symbols symbol time (fun _ => true) asOf rows).map f := by
  unfold latestPerSymbol
  rw [List.map_filterMap]
  refine List.filterMap_congr fun s _ => ?_
  rw [List.filter_map, latest_map htime]
  simp only [Function.comp_def, hsymbol, htime]

omit [Field K] [LinearOrder K] in
theorem mapM_numericPrice (rows : List (PriceRow K)) :
    (rows.map numericPrice).mapM pricePoint =
      .ok (rows.map fun r => (r.symbol, ⟨r.time, .fin r.close⟩)) := by
  induction rows with
  | nil => rfl
  | cons r rows ih =>
    rw [List.map_cons, List.mapM_cons, ih]
    rfl

omit [Field K] [LinearOrder K] in
theorem fetchLatestPrices_numeric {adapts : Param K → Bool} (h : AdaptsPlain adapts)
    (prices : List (PriceRow K)) (asOf : ℤ) :
    ∃ d, fetchLatestPrices adapts symbols (prices.map numericPrice) asOf = .ok d ∧
      ∀ i, d.lookup (symbols i) =
        (fetchLatestPrice prices symbols asOf (symbols i)).map numericPoint := by
  refine ⟨(latestPerSymbol symbols PriceRow.symbol PriceRow.time (fun _ => true) asOf prices).map
    fun r => (r.symbol, ⟨r.time, .fin r.close⟩), ?_, fun i => ?_⟩
  · unfold fetchLatestPrices latestPrices
    rw [h.execute rfl, ok_bind, latestPerSymbol_map symbols (fun _ => rfl) (fun _ => rfl)]
    exact mapM_numericPrice _
  · unfold latestPerSymbol fetchLatestPrice
    simp only [and_true]
    rw [Dict.lookup_filterMap, if_pos, if_pos ⟨i, rfl⟩, Option.map_map]
    · rfl
    · rw [List.mem_dedup]
      exact List.mem_ofFn.mpr ⟨i, rfl⟩
    · intro s r hr
      exact (of_decide_eq_true (List.mem_filter.mp (mem_of_latest hr)).2).1

theorem periodReturn_numeric [IsStrictOrderedRing K] (src dst : Option (PricePoint K)) :
    periodReturn (src.map numericPoint) (dst.map numericPoint) = .fin (assetReturn src dst) := by
  cases src with
  | none => rfl
  | some src =>
    cases dst with
    | none => rfl
    | some dst =>
      show (if Flt.fin src.close ≤ .fin 0 then Flt.fin 0
        else ((Flt.fin dst.close).div (.fin src.close)).sub (.fin 1)) =
          .fin (if src.close ≤ 0 then 0 else dst.close / src.close - 1)
      by_cases h : src.close ≤ 0
      · rw [if_pos h, if_pos (Flt.fin_le_fin.mpr h)]
      · rw [if_neg h, if_neg fun hc => h (Flt.fin_le_fin.mp hc),
          Flt.div_fin (not_le.mp h).ne', Flt.sub_fin]

omit [Field K] [LinearOrder K] in
theorem ofPairs_ofFn_numeric (value : Fin n → K) :
    Dict.ofPairs (List.ofFn fun i => (symbols i, Flt.fin (value i))) =
      (Dict.ofPairs (List.ofFn fun i => (symbols i, value i))).mapValues .fin := by
  rw [← Dict.ofPairs_map, List.map_ofFn]
  rfl

theorem periodAssetReturns_numeric [IsStrictOrderedRing K] {adapts : Param K → Bool}
    (h : AdaptsPlain adapts) (prices : List (PriceRow K)) (fromTime toTime : ℤ) :
    periodAssetReturns adapts symbols (prices.map numericPrice) fromTime toTime =
      .ok ((computePeriodAssetReturns symbols (fetchLatestPrice prices symbols fromTime)
        (fetchLatestPrice prices symbols toTime)).mapValues .fin) := by
  obtain ⟨d, hd, hlookup⟩ := fetchLatestPrices_numeric symbols h prices fromTime
  obtain ⟨d', hd', hlookup'⟩ := fetchLatestPrices_numeric symbols h prices toTime
  unfold periodAssetReturns computePeriodAssetReturns
  rw [hd, ok_bind, hd', ok_bind, ← ofPairs_ofFn_numeric]
  simp only [hlookup, hlookup', periodReturn_numeric]
  rfl

end Prices

/-! ## The previous state and the P&L -/

omit [LinearOrder K] in
theorem rowState_numeric (row : PortfolioRow K) :
    rowState (numericRow row) =
      { time := row.time
        weights := row.weights.mapValues .fin
        equity := .fin row.state.equity
        periodPnl := .fin row.state.periodPnl
        cumulativePnl := .fin row.state.cumulativePnl } := by
  unfold rowState numericRow PortfolioRow.state
  simp only [Option.getD_map]

omit [LinearOrder K] in
theorem previousState_numeric (symbols : Fin n → Symbol) (now : ℤ) (rows : List (PortfolioRow K)) :
    previousState symbols now ((latest PortfolioRow.time (rows.map numericRow)).map rowState) =
      numericPrevious (previous symbols now (fetchLatestPortfolioState rows)) := by
  have htime : ∀ row : PortfolioRow K, (numericRow row).time = row.time := fun _ => rfl
  unfold fetchLatestPortfolioState
  rw [latest_map htime]
  cases latest PortfolioRow.time rows with
  | none =>
    unfold previousState numericPrevious previous
    dsimp only [Option.map_none]
    rw [ofPairs_ofFn_numeric]
  | some row =>
    dsimp only [Option.map_some]
    rw [rowState_numeric]
    rfl

omit [Field K] [LinearOrder K] in
theorem orDict_numeric (d fallback : Dict K) :
    orDict (some (d.mapValues Flt.fin)) (fallback.mapValues .fin) =
      (orDict (some d) fallback).mapValues .fin := by
  cases d with
  | nil => rfl
  | cons p d => rfl

theorem portfolioPnl_numeric (prevWeights assetReturns newWeights : Dict K) (prevEquity : K)
    (transactionCostRate prevCumulativePnl : K) (halfL1Turnover : Bool) :
    portfolioPnl (prevWeights.mapValues .fin) (assetReturns.mapValues .fin) (some (.fin prevEquity))
        (some (newWeights.mapValues .fin)) transactionCostRate (.fin prevCumulativePnl)
        halfL1Turnover =
      numericPnl (computePortfolioPnl prevWeights assetReturns (some prevEquity) (some newWeights)
        transactionCostRate prevCumulativePnl halfL1Turnover) := by
  have hgross : ∀ s, ((prevWeights.mapValues Flt.fin).getD s (.fin 0)).mul
      ((assetReturns.mapValues Flt.fin).getD s (.fin 0)) =
        Flt.fin (prevWeights.getD s 0 * assetReturns.getD s 0) := by
    intro s
    rw [Dict.getD_mapValues, Dict.getD_mapValues]
    rfl
  have hturnover : ∀ s (d : Dict K), (((d.mapValues Flt.fin).getD s (.fin 0)).sub
      ((prevWeights.mapValues Flt.fin).getD s (.fin 0))).abs =
        Flt.fin |d.getD s 0 - prevWeights.getD s 0| := by
    intro s d
    rw [Dict.getD_mapValues, Dict.getD_mapValues, Flt.sub_fin]
    rfl
  unfold portfolioPnl computePortfolioPnl numericPnl
  simp only [orDict_numeric, Dict.keySet_mapValues, hgross, hturnover, Flt.sum_fin,
    Option.getD_some]
  cases halfL1Turnover <;>
    simp only [Flt.mul, Flt.add, Flt.sub_fin, if_true, Bool.false_eq_true, if_false]

theorem positivePart_numeric (x : K) : positivePart (.fin x) = .fin (max 0 x) := by
  unfold positivePart
  by_cases h : 0 < x
  · rw [if_pos (Flt.fin_lt_fin.mpr h), max_eq_right h.le]
  · rw [if_neg fun hc => h (Flt.fin_lt_fin.mp hc), max_eq_left (not_lt.mp h)]

theorem nextPayload_numeric (symbols : Fin n → Symbol) (feeRate : K) (now : ℤ) (prev : Previous K)
    (weights : Fin n → K) (periodReturns : Dict K) (pVol pSharpe : K) :
    (nextPayload symbols feeRate now (numericPrevious prev) weights
        (periodReturns.mapValues .fin) pVol pSharpe).row =
      numericRow (nextRow symbols feeRate now prev weights periodReturns pVol pSharpe) := by
  unfold nextPayload nextRow numericPrevious weightsDict
  simp only [ofPairs_ofFn_numeric, portfolioPnl_numeric]
  simp only [numericPnl, positivePart_numeric, Flt.sub_fin]
  rfl

/-! ## Runs -/

variable [IsStrictOrderedRing K] {adapts : Param K → Bool} {log : Flt K → Flt K} {sqrt : K → K}

/-- On numbers a rebalance is the rebalance of the ledger, at the engine's clock and with the
weights it computes. -/
theorem runRebalance_numeric (hadapts : ∀ p, adapts p = true) (hsqrt : ∀ x, 0 < x → 0 < sqrt x)
    (hn : 0 < n) {cfg : Config K n} (hcap : 0 < cfg.weightCap) {s : Snapshot K} {st : State K}
    {prices : List (PriceRow K)} (hprices : s.prices = prices.map numericPrice)
    {rows : List (PortfolioRow K)} (hrows : st.table = rows.map numericRow) :
    ∃ r : Rebalance K n, r.now = truncMinute s.clock ∧ r.prices = prices ∧ Invested r.weights ∧
      (runRebalance adapts log sqrt cfg s st).2 = none ∧
      (runRebalance adapts log sqrt cfg s st).1.table =
        (rebalance cfg.symbols cfg.turnoverFeeRate rows r).map numericRow := by
  have hplain : AdaptsPlain adapts := fun p _ => hadapts p
  obtain ⟨a, ha, hinvested⟩ := allocate_spec hplain hsqrt hn hcap s
  obtain ⟨pSharpe, hsharpe⟩ := sharpeProxy_spec sqrt a.weights a.mu a.cov
  refine ⟨⟨truncMinute s.clock, prices, a.weights, portfolioVolatility sqrt a.weights a.cov,
    pSharpe⟩, rfl, rfl, hinvested, ?_⟩
  have hprev : fetchedPrevious cfg s st.table = numericPrevious
      (previous cfg.symbols (truncMinute s.clock) (fetchLatestPortfolioState rows)) := by
    unfold fetchedPrevious
    rw [hrows, previousState_numeric]
  unfold runRebalance
  rw [computePayload_eq hplain ha hsharpe, hprev, hprices, periodAssetReturns_numeric _ hplain]
  dsimp only [Except.map]
  rw [execute_ok fun q _ => hadapts q]
  dsimp only
  rw [runRebalance_eq]
  refine ⟨rfl, ?_⟩
  show insertPortfolioState (nextPayload _ _ _ _ _ _ _ _).row st.table = _
  rw [nextPayload_numeric, hrows]
  exact upsert_map (fun _ => rfl) _ _

/-- **The engine refines the ledger**: on numbers every run of it from the empty table leaves the
table of the ledger, for rebalances at its clocks. -/
theorem afterSnapshots_numeric (hadapts : ∀ p, adapts p = true) (hsqrt : ∀ x, 0 < x → 0 < sqrt x)
    (hn : 0 < n) {cfg : Config K n} (hcap : 0 < cfg.weightCap) {st : State K} (hst : st.table = [])
    {ss : List (Snapshot K)}
    (hss : ∀ s ∈ ss, ∃ prices : List (PriceRow K), s.prices = prices.map numericPrice) :
    ∃ rs : List (Rebalance K n), rs.map Rebalance.now = ss.map (fun s => truncMinute s.clock) ∧
      (∀ r ∈ rs, Invested r.weights) ∧
      (afterSnapshots adapts log sqrt cfg ss st).table =
        (ledger cfg.symbols cfg.turnoverFeeRate rs).map numericRow := by
  induction ss using List.reverseRecOn with
  | nil => exact ⟨[], rfl, fun r hr => absurd hr List.not_mem_nil, hst⟩
  | append_singleton ss s ih =>
    obtain ⟨rs, hnow, hinvested, htable⟩ := ih fun s' hs' => hss s' (List.mem_append_left _ hs')
    obtain ⟨prices, hprices⟩ := hss s (List.mem_append_right _ (List.mem_singleton_self s))
    obtain ⟨r, hr, _, hw, _, hstep⟩ := runRebalance_numeric hadapts hsqrt hn hcap hprices htable
    refine ⟨rs ++ [r], ?_, ?_, ?_⟩
    · rw [List.map_append, List.map_append, hnow, List.map_singleton, List.map_singleton, hr]
    · intro x hx
      rcases List.mem_append.mp hx with hx | hx
      · exact hinvested x hx
      · exact List.mem_singleton.mp hx ▸ hw
    · unfold afterSnapshots ledger
      rw [List.foldl_concat, List.foldl_concat]
      exact hstep

end PortfolioEngine.RunRebalance
