import PortfolioEngine.Portfolio.Ledger

/-!
# The return of the held positions

The stored weights may name symbols that are no longer configured. `compute_portfolio_pnl` goes over
them, but `compute_period_asset_returns` looks up the configured symbols only, so the others earn
nothing, while their sale is charged in the turnover.

`held_positions_iff`: the gross return is what the held positions earn exactly if those that are no
longer configured earn nothing together, and for all prices exactly if they have no weight.
-/

namespace PortfolioEngine.Ledger

open Tables

variable {K : Type*} [Field K] [LinearOrder K] {n : ℕ}

/-! ## What the positions earn -/

/-- The latest close of a symbol at or before `asOf`. -/
def closeAt (prices : List (PriceRow K)) (asOf : ℤ) (symbol : Symbol) : Option K :=
  (latest PriceRow.time (prices.filter fun r => r.symbol = symbol ∧ r.time ≤ asOf)).map
    PriceRow.close

/-- What the position in `symbol` earns between two times, as a share of the equity. -/
def earned (prices : List (PriceRow K)) (weights : Dict K) (start stop : ℤ) (symbol : Symbol) : K :=
  weights.getD symbol 0 *
    ((closeAt prices stop symbol).getD 0 / (closeAt prices start symbol).getD 0 - 1)

/-- Each held symbol has a positive close at or before either time. -/
def Priced (prices : List (PriceRow K)) (weights : Dict K) (start stop : ℤ) : Prop :=
  ∀ s ∈ weights.keySet, (∃ c ∈ closeAt prices start s, 0 < c) ∧ ∃ c ∈ closeAt prices stop s, 0 < c

/-! ## The gross return -/

section Gross

variable (symbols : Fin n → Symbol) {prices : List (PriceRow K)} {weights : Dict K}
  {start stop : ℤ}

theorem getD_computePeriodAssetReturns (s : Symbol) :
    (computePeriodAssetReturns symbols (fetchLatestPrice prices symbols start)
        (fetchLatestPrice prices symbols stop)).getD s 0 =
      if ∃ i, symbols i = s then
        assetReturn (fetchLatestPrice prices symbols start s)
          (fetchLatestPrice prices symbols stop s)
      else 0 := by
  unfold computePeriodAssetReturns
  by_cases hs : ∃ i, symbols i = s
  · obtain ⟨i, rfl⟩ := hs
    rw [if_pos ⟨i, rfl⟩]
    exact Dict.getD_ofPairs_ofFn symbols
      (fun s => assetReturn (fetchLatestPrice prices symbols start s)
        (fetchLatestPrice prices symbols stop s)) i 0
  · rw [if_neg hs]
    unfold Dict.getD
    rw [Dict.lookup_ofPairs
      (f := fun s => assetReturn (fetchLatestPrice prices symbols start s)
        (fetchLatestPrice prices symbols stop s)), if_neg]
    · rfl
    · rw [List.map_ofFn, List.mem_ofFn]
      exact hs
    · intro p hp
      obtain ⟨i, rfl⟩ := List.mem_ofFn.mp hp
      rfl

theorem assetReturn_of_priced (h : Priced prices weights start stop) {s : Symbol}
    (hs : s ∈ weights.keySet) (hsymbol : ∃ i, symbols i = s) :
    assetReturn (fetchLatestPrice prices symbols start s) (fetchLatestPrice prices symbols stop s) =
      (closeAt prices stop s).getD 0 / (closeAt prices start s).getD 0 - 1 := by
  obtain ⟨⟨c, hc, hpos⟩, d, hd, -⟩ := h s hs
  obtain ⟨src, hsrc, rfl⟩ := Option.map_eq_some_iff.mp hc
  obtain ⟨dst, hdst, rfl⟩ := Option.map_eq_some_iff.mp hd
  unfold fetchLatestPrice closeAt
  rw [if_pos hsymbol, if_pos hsymbol, hsrc, hdst]
  show (if src.close ≤ 0 then 0 else dst.close / src.close - 1) = _
  rw [if_neg (not_le.mpr hpos)]
  rfl

/-- The gross return is what the configured ones among the held symbols earn. -/
theorem grossReturn_eq (h : Priced prices weights start stop) (equity : Option K)
    (newWeights : Option (Dict K)) (feeRate cumulativePnl : K) (half : Bool) :
    (computePortfolioPnl weights
        (computePeriodAssetReturns symbols (fetchLatestPrice prices symbols start)
          (fetchLatestPrice prices symbols stop))
        equity newWeights feeRate cumulativePnl half).grossReturn =
      ∑ s ∈ weights.keySet.filter fun s => ∃ i, symbols i = s,
        earned prices weights start stop s := by
  have hunheld : ∀ s ∉ weights.keySet, weights.getD s 0 = 0 := by
    intro s hs
    rw [Dict.mem_keySet, not_not] at hs
    unfold Dict.getD
    rw [hs]
    rfl
  have hterm : ∀ s ∈ weights.keySet,
      weights.getD s 0 *
          (computePeriodAssetReturns symbols (fetchLatestPrice prices symbols start)
            (fetchLatestPrice prices symbols stop)).getD s 0 =
        if ∃ i, symbols i = s then earned prices weights start stop s else 0 := by
    intro s hs
    rw [getD_computePeriodAssetReturns]
    split_ifs with hsymbol
    · rw [assetReturn_of_priced symbols h hs hsymbol]
      rfl
    · exact mul_zero _
  unfold computePortfolioPnl
  dsimp only
  rw [Finset.sum_filter, ← Finset.sum_congr rfl hterm]
  -- symbols outside the old weights are in the union too, at weight 0
  refine (Finset.sum_subset ?_ fun s _ hs => ?_).symm
  · exact Finset.subset_union_left.trans Finset.subset_union_left
  · rw [hunheld s hs, zero_mul]

end Gross

/-! ## Symbols that are no longer configured -/

/-- The held symbols that are no longer configured. -/
def removed (symbols : Fin n → Symbol) (weights : Dict K) : Finset Symbol :=
  weights.keySet.filter fun s => ¬∃ i, symbols i = s

/-- The gross return is the sum of what the held positions of the previous state earn. -/
def EarnsReturn (symbols : Fin n → Symbol) (feeRate : K) (table : List (PortfolioRow K))
    (state : LatestState K) (r : Rebalance K n) : Prop :=
  (rebalancePnl symbols feeRate table r).grossReturn =
    ∑ s ∈ state.weights.keySet, earned r.prices state.weights state.time r.now s

theorem earnsReturn_iff (symbols : Fin n → Symbol) (feeRate : K) {table : List (PortfolioRow K)}
    {state : LatestState K} (hstate : fetchLatestPortfolioState table = some state)
    {r : Rebalance K n} (h : Priced r.prices state.weights state.time r.now) :
    EarnsReturn symbols feeRate table state r ↔
      ∑ s ∈ removed symbols state.weights,
        earned r.prices state.weights state.time r.now s = 0 := by
  have hgross : (rebalancePnl symbols feeRate table r).grossReturn =
      ∑ s ∈ state.weights.keySet.filter fun s => ∃ i, symbols i = s,
        earned r.prices state.weights state.time r.now s := by
    unfold rebalancePnl
    rw [hstate]
    exact grossReturn_eq symbols h _ _ _ _ _
  unfold EarnsReturn removed
  rw [hgross, ← Finset.sum_filter_add_sum_filter_not state.weights.keySet
    (fun s => ∃ i, symbols i = s), left_eq_add]

/-! ## A price that doubles -/

section Doubling

variable [IsStrictOrderedRing K]

/-- A candle with one price. -/
def flatRow (time : ℤ) (symbol : Symbol) (close : K) : PriceRow K :=
  ⟨time, symbol, close, close, close, close, 0⟩

/-- The closes of `symbols` are 1, and a minute later that of `s` is 2. -/
def doublingPrices (symbols : List Symbol) (s : Symbol) (t : ℤ) : List (PriceRow K) :=
  symbols.map (fun x => flatRow t x 1) ++
    symbols.map fun x => flatRow (t + minute) x (if x = s then 1 + 1 else 1)

omit [Field K] [LinearOrder K] [IsStrictOrderedRing K] in
theorem closeAt_eq {prices : List (PriceRow K)} {asOf : ℤ} (row : PriceRow K)
    (hrow : row ∈ prices) (hle : row.time ≤ asOf)
    (hlast : ∀ x ∈ prices, x.symbol = row.symbol → x.time ≤ asOf → row.time ≤ x.time →
      x.close = row.close) : closeAt prices asOf row.symbol = some row.close := by
  have hmem : row ∈ prices.filter fun r => r.symbol = row.symbol ∧ r.time ≤ asOf :=
    List.mem_filter.mpr ⟨hrow, decide_eq_true ⟨rfl, hle⟩⟩
  obtain ⟨x, hx⟩ := latest_isSome PriceRow.time hmem
  obtain ⟨hxp, hxd⟩ := List.mem_filter.mp (mem_of_latest hx)
  obtain ⟨hsymbol, hxle⟩ := of_decide_eq_true hxd
  unfold closeAt
  rw [hx, Option.map_some, hlast x hxp hsymbol hxle (le_of_latest hx hmem)]

omit [LinearOrder K] [IsStrictOrderedRing K] in
theorem closeAt_doublingPrices {symbols : List Symbol} {x : Symbol} (hx : x ∈ symbols) (s : Symbol)
    (t : ℤ) : closeAt (doublingPrices symbols s t : List (PriceRow K)) t x = some 1 ∧
      closeAt (doublingPrices symbols s t : List (PriceRow K)) (t + minute) x =
        some (if x = s then 1 + 1 else 1) := by
  have hmin : (0 : ℤ) < minute := by decide
  constructor
  · refine closeAt_eq (flatRow t x 1) ?_ le_rfl fun y hy _ hle _ => ?_
    · exact List.mem_append_left _ (List.mem_map_of_mem hx)
    · rcases List.mem_append.mp hy with hy | hy
      · obtain ⟨z, -, rfl⟩ := List.mem_map.mp hy
        rfl
      · obtain ⟨z, -, rfl⟩ := List.mem_map.mp hy
        exact absurd hle (not_le.mpr (lt_add_of_pos_right t hmin))
  · refine closeAt_eq (flatRow (t + minute) x (if x = s then 1 + 1 else 1)) ?_ le_rfl
      fun y hy hsymbol _ hle => ?_
    · exact List.mem_append_right _ (List.mem_map_of_mem hx)
    · rcases List.mem_append.mp hy with hy | hy
      · obtain ⟨z, -, rfl⟩ := List.mem_map.mp hy
        exact absurd hle (not_le.mpr (lt_add_of_pos_right t hmin))
      · obtain ⟨z, -, rfl⟩ := List.mem_map.mp hy
        obtain rfl : z = x := hsymbol
        rfl

theorem priced_doublingPrices (weights : Dict K) (s : Symbol) (t : ℤ) :
    Priced (doublingPrices (weights.map Prod.fst) s t) weights t (t + minute) := by
  intro x hx
  obtain ⟨hstart, hstop⟩ := closeAt_doublingPrices (K := K) (List.mem_toFinset.mp hx) s t
  refine ⟨⟨_, hstart, one_pos⟩, _, hstop, ?_⟩
  split_ifs
  · exact add_pos one_pos one_pos
  · exact one_pos

omit [LinearOrder K] [IsStrictOrderedRing K] in
/-- Only the position in `s` earns, and it earns its weight. -/
theorem earned_doublingPrices (weights : Dict K) (s : Symbol) (t : ℤ) {x : Symbol}
    (hx : x ∈ weights.keySet) :
    earned (doublingPrices (weights.map Prod.fst) s t) weights t (t + minute) x =
      if x = s then weights.getD s 0 else 0 := by
  obtain ⟨hstart, hstop⟩ := closeAt_doublingPrices (K := K) (List.mem_toFinset.mp hx) s t
  unfold earned
  rw [hstart, hstop, Option.getD_some, Option.getD_some, div_one]
  split_ifs with hs
  · rw [add_sub_cancel_right, mul_one, hs]
  · rw [sub_self, mul_zero]

end Doubling

/-- **The held positions.** With the prices at hand, the gross return is what the held positions
earn if and only if those that are no longer configured earn nothing together. It is so for all
prices and times if and only if these have no weight. -/
theorem held_positions_iff [IsStrictOrderedRing K] (symbols : Fin n → Symbol) (feeRate : K)
    {table : List (PortfolioRow K)} {state : LatestState K}
    (hstate : fetchLatestPortfolioState table = some state) :
    (∀ r : Rebalance K n, Priced r.prices state.weights state.time r.now →
      (EarnsReturn symbols feeRate table state r ↔
        ∑ s ∈ removed symbols state.weights,
          earned r.prices state.weights state.time r.now s = 0)) ∧
      ((∀ r : Rebalance K n, Priced r.prices state.weights state.time r.now →
          EarnsReturn symbols feeRate table state r) ↔
        ∀ s ∈ removed symbols state.weights, state.weights.getD s 0 = 0) := by
  have hiff := fun r => earnsReturn_iff symbols feeRate hstate (r := r)
  refine ⟨hiff, fun hall s hs => ?_, fun hzero r hr => (hiff r hr).mpr ?_⟩
  · let r : Rebalance K n :=
      ⟨state.time + minute, doublingPrices (state.weights.map Prod.fst) s state.time,
        fun _ => 0, 0, 0⟩
    have hpriced : Priced r.prices state.weights state.time r.now := priced_doublingPrices _ _ _
    have hsum := (hiff r hpriced).mp (hall r hpriced)
    have hterm : ∀ x ∈ removed symbols state.weights,
        earned r.prices state.weights state.time r.now x =
          if x = s then state.weights.getD s 0 else 0 :=
      fun x hx => earned_doublingPrices _ _ _ (Finset.mem_filter.mp hx).1
    rwa [Finset.sum_congr rfl hterm, Finset.sum_ite_eq', if_pos hs] at hsum
  · refine Finset.sum_eq_zero fun s hs => ?_
    unfold earned
    rw [hzero s hs, zero_mul]

/-! Half of the equity in a symbol that is no longer configured, whose price doubles. -/

/-- The stored state: half in each of two symbols. -/
def halves : PortfolioRow ℚ where
  time := 0
  weights := [("BTCUSDT", 0.5), ("ETHUSDT", 0.5)]
  portfolioVol := none
  sharpeProxy := none
  equity := some 1
  transactionCost := none
  turnover := none
  periodPnl := none
  cumulativePnl := none

/-- The next rebalance, of a configuration with the first symbol only. -/
def doubled : Rebalance ℚ 1 where
  now := minute
  prices := doublingPrices ["BTCUSDT", "ETHUSDT"] "ETHUSDT" 0
  weights := fun _ => 1
  pVol := 0
  pSharpe := 0

/-- The gross return is 0 and the positions earn one half. -/
theorem removed_symbol_earns_nothing :
    Priced doubled.prices halves.state.weights halves.state.time doubled.now ∧
      (rebalancePnl (fun _ => "BTCUSDT") 0.001 [halves] doubled).grossReturn = 0 ∧
      ∑ s ∈ halves.state.weights.keySet,
        earned doubled.prices halves.state.weights halves.state.time doubled.now s = 1 / 2 ∧
      ¬EarnsReturn (fun _ => "BTCUSDT") 0.001 [halves] halves.state doubled := by
  have hgross : (rebalancePnl (fun _ => "BTCUSDT") 0.001 [halves] doubled).grossReturn = 0 := by
    decide +kernel
  have hearned : ∑ s ∈ halves.state.weights.keySet,
      earned doubled.prices halves.state.weights halves.state.time doubled.now s = 1 / 2 := by
    decide +kernel
  refine ⟨priced_doublingPrices halves.weights "ETHUSDT" 0, hgross, hearned, fun h => ?_⟩
  unfold EarnsReturn at h
  rw [hgross, hearned] at h
  exact absurd h (by norm_num)

/-- The theorem for this state. -/
theorem held_positions_iff_halves :
    (∀ r : Rebalance ℚ 1, Priced r.prices halves.state.weights halves.state.time r.now →
      (EarnsReturn (fun _ => "BTCUSDT") 0.001 [halves] halves.state r ↔
        ∑ s ∈ removed (n := 1) (fun _ => "BTCUSDT") halves.state.weights,
          earned r.prices halves.state.weights halves.state.time r.now s = 0)) ∧
      ((∀ r : Rebalance ℚ 1, Priced r.prices halves.state.weights halves.state.time r.now →
          EarnsReturn (fun _ => "BTCUSDT") 0.001 [halves] halves.state r) ↔
        ∀ s ∈ removed (n := 1) (fun _ => "BTCUSDT") halves.state.weights,
          halves.state.weights.getD s 0 = 0) :=
  held_positions_iff (fun _ => "BTCUSDT") 0.001 rfl

end PortfolioEngine.Ledger
