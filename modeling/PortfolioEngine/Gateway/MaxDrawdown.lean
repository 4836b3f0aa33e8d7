import PortfolioEngine.Gateway.RiskMetrics
import PortfolioEngine.Lib.Drawdown
import PortfolioEngine.Lib.ExactFloat

/-!
# The maximal drawdown

The loop over the rows keeps a running peak and the largest fall from it, behind a test that the
peak is positive.

`max_drawdown`: it reports the largest fall over all pairs of rows, in any unit, and no division of
a handler has a zero divisor.
-/

namespace PortfolioEngine.Gateway

open Ledger Drawdown

variable {K : Type*} [Field K] [LinearOrder K]

/-! ## The loop with checked divisions -/

/-- `average`, where a division by zero fails. -/
def averageChecked (values : List K) : Option K :=
  if values = [] then some 0 else divide values.sum values.length

/-- `stdDev`, where a division by zero fails. -/
def stdDevChecked (sqrt : K → K) (values : List K) : Option K :=
  if values.length < 2 then some 0
  else do
    let mean ← averageChecked values
    let variance ← divide (values.map fun v => (v - mean) * (v - mean)).sum (values.length - 1)
    some (if variance < 0 then 0 else sqrt variance)

/-- The Sharpe ratio of the realized returns, where a division by zero fails. -/
def realizedSharpeChecked (sqrt : K → K) (returns : List K) : Option K :=
  if 1 < returns.length then do
    let mean ← averageChecked returns
    let std ← stdDevChecked sqrt returns
    if 1e-12 < std then divide mean std else some 0
  else some 0

/-- `maxDrawdown` after a row with this equity and peak. -/
def maxDrawdownChecked (maxDrawdown peak equity : K) : Option K :=
  if 0 < peak then do
    let dd ← divide (peak - equity) peak
    some (if maxDrawdown < dd then dd else maxDrawdown)
  else some maxDrawdown

/-- `feeDragSum` after a row. -/
def feeDragSumChecked (feeDragSum : K) (p : RiskPoint K) : Option K :=
  if 0 < p.equity then do
    let drag ← divide p.txCost p.equity
    some (feeDragSum + drag)
  else some feeDragSum

/-- `returns` after a row with this equity. -/
def returnsChecked (returns : List K) (previous : Option K) (equity : K) : Option (List K) :=
  match previous with
  | some e =>
    if 0 < e then do
      let ratio ← divide equity e
      some (returns ++ [ratio - 1])
    else some returns
  | none => some returns

/-- One row of the loop, where a division by zero fails. -/
def observeChecked (a : Totals K) (p : RiskPoint K) : Option (Totals K) := do
  let peak := if a.peak < p.equity then p.equity else a.peak
  let maxDrawdown ← maxDrawdownChecked a.maxDrawdown peak p.equity
  let feeDragSum ← feeDragSumChecked a.feeDragSum p
  let returns ← returnsChecked a.returns a.previous p.equity
  some { previous := some p.equity, returns, peak, maxDrawdown,
         turnoverSum := a.turnoverSum + p.turnover, feeDragSum }

/-- What both handlers compute, where a division by zero fails. -/
def riskMetricsChecked (sqrt : K → K) (rows : List (RiskPoint K)) (connections : ℤ) :
    Option (RiskMetrics K) :=
  match rows.reverse with
  | [] => some
    { asOf := none, portfolioVol := none, sharpeProxy := none, realizedSharpe := 0,
      maxDrawdown := 0, avgTurnover := 0, avgFeeDrag := 0, observations := 0,
      websocketClients := connections }
  | first :: rest => do
    let series := first :: rest
    let totals ← series.foldlM observeChecked ⟨none, [], first.equity, 0, 0, 0⟩
    let last := rest.getLastD first
    let realizedSharpe ← realizedSharpeChecked sqrt totals.returns
    let avgTurnover ← divide totals.turnoverSum series.length
    let avgFeeDrag ← divide totals.feeDragSum series.length
    some
      { asOf := some last.time
        portfolioVol := last.portfolioVol
        sharpeProxy := last.sharpeProxy
        realizedSharpe
        maxDrawdown := totals.maxDrawdown
        avgTurnover
        avgFeeDrag
        observations := series.length
        websocketClients := connections }

theorem maxDrawdownChecked_eq (maxDrawdown peak equity : K) :
    maxDrawdownChecked maxDrawdown peak equity =
      some (if 0 < peak ∧ maxDrawdown < (peak - equity) / peak then (peak - equity) / peak
        else maxDrawdown) := by
  unfold maxDrawdownChecked
  by_cases hpeak : 0 < peak
  · rw [if_pos hpeak, divide_eq_some hpeak.ne', Option.bind_eq_bind, Option.bind_some]
    simp only [hpeak, true_and]
  · rw [if_neg hpeak, if_neg fun h => hpeak h.1]

theorem feeDragSumChecked_eq (feeDragSum : K) (p : RiskPoint K) :
    feeDragSumChecked feeDragSum p =
      some (if 0 < p.equity then feeDragSum + p.txCost / p.equity else feeDragSum) := by
  unfold feeDragSumChecked
  split_ifs with hequity
  · rw [divide_eq_some hequity.ne']
    rfl
  · rfl

theorem returnsChecked_eq (returns : List K) (previous : Option K) (equity : K) :
    returnsChecked returns previous equity =
      some (match previous with
        | some e => if 0 < e then returns ++ [equity / e - 1] else returns
        | none => returns) := by
  unfold returnsChecked
  cases previous with
  | none => rfl
  | some e =>
    dsimp only
    split_ifs with he
    · rw [divide_eq_some he.ne']
      rfl
    · rfl

theorem observeChecked_eq (a : Totals K) (p : RiskPoint K) :
    observeChecked a p = some (observe a p) := by
  unfold observeChecked
  dsimp only
  rw [maxDrawdownChecked_eq, feeDragSumChecked_eq, returnsChecked_eq]
  rfl

theorem foldlM_observeChecked (series : List (RiskPoint K)) (a : Totals K) :
    series.foldlM observeChecked a = some (series.foldl observe a) := by
  induction series generalizing a with
  | nil => rfl
  | cons p series ih =>
    rw [List.foldlM_cons, observeChecked_eq, Option.bind_eq_bind, Option.bind_some, ih,
      List.foldl_cons]

section Averages

variable [IsStrictOrderedRing K]

theorem averageChecked_eq (values : List K) : averageChecked values = some (average values) := by
  unfold averageChecked average
  split_ifs with h
  · rfl
  · exact divide_eq_some (Nat.cast_ne_zero.mpr (List.length_pos_iff.mpr h).ne') _

theorem stdDevChecked_eq (sqrt : K → K) (values : List K) :
    stdDevChecked sqrt values = some (stdDev sqrt values) := by
  unfold stdDevChecked stdDev
  split_ifs with h
  · rfl
  · have hlength : (1 : K) < values.length := by exact_mod_cast not_lt.mp h
    rw [averageChecked_eq, Option.bind_eq_bind, Option.bind_some,
      divide_eq_some (sub_pos.mpr hlength).ne']
    rfl

theorem realizedSharpeChecked_eq (sqrt : K → K) (returns : List K) :
    realizedSharpeChecked sqrt returns = some (realizedSharpe sqrt returns) := by
  unfold realizedSharpeChecked realizedSharpe
  split_ifs with h
  · rw [averageChecked_eq, stdDevChecked_eq, Option.bind_eq_bind, Option.bind_some,
      Option.bind_some]
    dsimp only
    split_ifs with hstd
    · exact divide_eq_some ((by norm_num : (0 : K) < 1e-12).trans hstd).ne' _
    · rfl
  · rfl

theorem riskMetricsChecked_eq (sqrt : K → K) (rows : List (RiskPoint K)) (connections : ℤ) :
    riskMetricsChecked sqrt rows connections = some (riskMetrics sqrt rows connections) := by
  unfold riskMetricsChecked riskMetrics
  cases rows.reverse with
  | nil => rfl
  | cons first rest =>
    have hlength : ((first :: rest).length : K) ≠ 0 :=
      Nat.cast_ne_zero.mpr (Nat.succ_ne_zero rest.length)
    dsimp only
    rw [foldlM_observeChecked, Option.bind_eq_bind, Option.bind_some, realizedSharpeChecked_eq,
      Option.bind_eq_bind, Option.bind_some, divide_eq_some hlength, Option.bind_some,
      divide_eq_some hlength]
    rfl

end Averages

/-! ## The pass over the rows -/

/-- The equities of the rows of a query, the earliest first. -/
def equities (table : List (PortfolioRow K)) (limit : ℕ) : List K :=
  (fetchSeries table limit).reverse.map RiskPoint.equity

section Pass

variable [IsStrictOrderedRing K]

theorem scanned_foldl {series : List (RiskPoint K)} (h : ∀ p ∈ series, 0 ≤ p.equity) {es : List K}
    {a : Totals K} (ha : Scanned es a.peak a.maxDrawdown) :
    Scanned (es ++ series.map RiskPoint.equity) (series.foldl observe a).peak
      (series.foldl observe a).maxDrawdown := by
  induction series generalizing es a with
  | nil => rwa [List.map_nil, List.append_nil]
  | cons p series ih =>
    have hpeak : (if a.peak < p.equity then p.equity else a.peak) = max a.peak p.equity := by
      rw [max_def_lt]
    have hstep : Scanned (es ++ [p.equity]) (observe a p).peak (observe a p).maxDrawdown := by
      unfold observe
      dsimp only
      rw [hpeak]
      exact ha.concat (h p List.mem_cons_self)
    have hrest := ih (fun q hq => h q (List.mem_cons_of_mem p hq)) hstep
    rwa [List.append_assoc] at hrest

/-- Both handlers report the maximal drawdown of the rows. -/
theorem isDrawdown_riskMetrics (sqrt : K → K) {rows : List (RiskPoint K)}
    (h : ∀ p ∈ rows, 0 ≤ p.equity) (connections : ℤ) :
    IsDrawdown (rows.reverse.map RiskPoint.equity)
      (riskMetrics sqrt rows connections).maxDrawdown := by
  have hreverse : ∀ p ∈ rows.reverse, 0 ≤ p.equity := fun p hp => h p (List.mem_reverse.mp hp)
  unfold riskMetrics
  cases hrows : rows.reverse with
  | nil => exact isDrawdown_nil
  | cons first rest =>
    rw [hrows] at hreverse
    -- the first row is its own peak
    have hfirst : Scanned [first.equity] (observe ⟨none, [], first.equity, 0, 0, 0⟩ first).peak
        (observe ⟨none, [], first.equity, 0, 0, 0⟩ first).maxDrawdown := by
      unfold observe
      simp only [lt_self_iff_false, if_false, sub_self, zero_div, and_false]
      exact scanned_singleton first.equity
    exact (scanned_foldl (fun p hp => hreverse p (List.mem_cons_of_mem first hp)) hfirst).worst

/-! ## What is reported -/

/-- A row of `portfolio_state` with its equity in another unit. -/
def scaleEquity (c : K) (row : PortfolioRow K) : PortfolioRow K :=
  { row with equity := row.equity.map fun e => c * e }

omit [LinearOrder K] [IsStrictOrderedRing K] in
theorem valueOrZero_scaleEquity (c : K) (row : PortfolioRow K) :
    valueOrZero (scaleEquity c row).equity = c * valueOrZero row.equity := by
  unfold scaleEquity valueOrZero
  cases row.equity with
  | none => exact (mul_zero c).symm
  | some e => rfl

omit [LinearOrder K] [IsStrictOrderedRing K] in
theorem equities_scaleEquity (c : K) (table : List (PortfolioRow K)) (limit : ℕ) :
    equities (table.map (scaleEquity c)) limit =
      (equities table limit).map fun e => c * e := by
  unfold equities fetchSeries
  rw [← Backlog.map_ordered PortfolioRow.time PortfolioRow.time (scaleEquity c) fun _ => rfl]
  simp only [← List.map_reverse, ← List.map_take, List.map_map]
  refine List.map_congr_left fun row _ => ?_
  exact valueOrZero_scaleEquity c row

variable {table : List (PortfolioRow K)}

theorem isDrawdown_fetchSeries (sqrt : K → K) (connections : ℤ)
    (h : ∀ row ∈ table, 0 ≤ valueOrZero row.equity) (limit : ℕ) :
    IsDrawdown (equities table limit)
      (riskMetrics sqrt (fetchSeries table limit) connections).maxDrawdown := by
  refine isDrawdown_riskMetrics sqrt (fun p hp => ?_) connections
  obtain ⟨row, hrow, rfl⟩ := List.mem_map.mp hp
  have hmem := List.mem_reverse.mp (List.mem_of_mem_take hrow)
  exact h row ((Backlog.mem_ordered PortfolioRow.time).mp hmem)

/-- The largest fall, as a share and in any unit, without a division by zero. -/
theorem drawdown_fetchSeries (sqrt : K → K) (connections : ℤ)
    (h : ∀ row ∈ table, 0 ≤ valueOrZero row.equity) (limit : ℕ) :
    IsDrawdown (equities table limit)
        (riskMetrics sqrt (fetchSeries table limit) connections).maxDrawdown ∧
      0 ≤ (riskMetrics sqrt (fetchSeries table limit) connections).maxDrawdown ∧
      (riskMetrics sqrt (fetchSeries table limit) connections).maxDrawdown ≤ 1 ∧
      (∀ c, 0 < c →
        (riskMetrics sqrt (fetchSeries (table.map (scaleEquity c)) limit) connections).maxDrawdown =
          (riskMetrics sqrt (fetchSeries table limit) connections).maxDrawdown) ∧
      riskMetricsChecked sqrt (fetchSeries table limit) connections =
        some (riskMetrics sqrt (fetchSeries table limit) connections) := by
  have hworst := isDrawdown_fetchSeries sqrt connections h limit
  have hnonneg : ∀ e ∈ equities table limit, 0 ≤ e := by
    intro e he
    obtain ⟨p, hp, rfl⟩ := List.mem_map.mp he
    obtain ⟨row, hrow, rfl⟩ := List.mem_map.mp (List.mem_reverse.mp hp)
    have hmem := List.mem_reverse.mp (List.mem_of_mem_take hrow)
    exact h row ((Backlog.mem_ordered PortfolioRow.time).mp hmem)
  obtain ⟨hlower, hupper⟩ := hworst.mem_unit hnonneg
  refine ⟨hworst, hlower, hupper, fun c hc => ?_, riskMetricsChecked_eq _ _ _⟩
  have hscaled : ∀ row ∈ table.map (scaleEquity c), 0 ≤ valueOrZero row.equity := by
    intro row hrow
    obtain ⟨r, hr, rfl⟩ := List.mem_map.mp hrow
    rw [valueOrZero_scaleEquity]
    exact mul_nonneg hc.le (h r hr)
  have hworst' := isDrawdown_fetchSeries sqrt connections hscaled limit
  unfold IsDrawdown at hworst'
  rw [equities_scaleEquity, falls_map_mul hc] at hworst'
  exact IsDrawdown.unique hworst' hworst

/-- **The maximal drawdown.** For every table with nonnegative equities both handlers report the
largest fall of the equity over all pairs of rows in their window, or 0. It lies between 0 and 1,
does not depend on the unit of the equity, and no division has a zero divisor. -/
theorem max_drawdown (sqrt : K → K) (connections : ℤ)
    (h : ∀ row ∈ table, 0 ≤ valueOrZero row.equity) (lookback : ℕ) (query : String) :
    (IsGreatest (insert 0 (falls (equities table lookback)))
          (computeRiskMetrics sqrt connections table lookback).maxDrawdown ∧
        0 ≤ (computeRiskMetrics sqrt connections table lookback).maxDrawdown ∧
        (computeRiskMetrics sqrt connections table lookback).maxDrawdown ≤ 1 ∧
        (∀ c, 0 < c →
          (computeRiskMetrics sqrt connections (table.map (scaleEquity c)) lookback).maxDrawdown =
            (computeRiskMetrics sqrt connections table lookback).maxDrawdown) ∧
        riskMetricsChecked sqrt (fetchSeries table lookback) connections =
          some (computeRiskMetrics sqrt connections table lookback)) ∧
      IsGreatest (insert 0 (falls (equities table (clampLimit query 90 2000).toNat)))
          (handleRiskMetrics sqrt connections table query).maxDrawdown ∧
        0 ≤ (handleRiskMetrics sqrt connections table query).maxDrawdown ∧
        (handleRiskMetrics sqrt connections table query).maxDrawdown ≤ 1 ∧
        (∀ c, 0 < c →
          (handleRiskMetrics sqrt connections (table.map (scaleEquity c)) query).maxDrawdown =
            (handleRiskMetrics sqrt connections table query).maxDrawdown) ∧
        riskMetricsChecked sqrt (fetchSeries table (clampLimit query 90 2000).toNat) connections =
          some (handleRiskMetrics sqrt connections table query) :=
  ⟨drawdown_fetchSeries sqrt connections h lookback,
    drawdown_fetchSeries sqrt connections h (clampLimit query 90 2000).toNat⟩

end Pass

/-- A row with this time and equity. -/
def equityRow (time : ℤ) (equity : Option ℚ) : PortfolioRow ℚ :=
  ⟨time, [], none, none, equity, none, none, none, none⟩

/-- The equity doubles and falls to half of where it began. -/
def fallen : List (PortfolioRow ℚ) :=
  [equityRow 0 (some 1), equityRow 1 (some 2), equityRow 2 (some (1 / 2))]

/-- The theorem for these rows, the largest fall of which is from 2 to one half. -/
theorem max_drawdown_fallen :
    (computeRiskMetrics Rat.sqrt 0 fallen 90).maxDrawdown = 3 / 4 ∧
      IsGreatest (insert 0 (falls (equities fallen 90))) (3 / 4) := by
  have hvalue : (computeRiskMetrics Rat.sqrt 0 fallen 90).maxDrawdown = 3 / 4 := by decide +kernel
  have hnonneg : ∀ row ∈ fallen, 0 ≤ valueOrZero row.equity := by decide +kernel
  have hgreatest := (max_drawdown Rat.sqrt 0 hnonneg 90 "").1.1
  rw [hvalue] at hgreatest
  exact ⟨hvalue, hgreatest⟩

end PortfolioEngine.Gateway
