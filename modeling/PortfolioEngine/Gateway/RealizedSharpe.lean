import Mathlib.Algebra.Order.Group.MinMax
import Mathlib.Data.List.Intervals
import PortfolioEngine.Gateway.RiskMetrics

/-!
# The realized Sharpe ratio

The returns that the loop of the gateway builds from the stored equities, against the net returns
of the engine. The equity is clamped at 0 and a row after an equity of 0 is skipped.

`realized_returns`: over every run of rebalances the returns of a window are the net returns of its
rows but the first one, clamped at -1, where the row before has a positive equity; the reported
Sharpe ratio is theirs.
-/

namespace PortfolioEngine.Gateway

open Tables Ledger

variable {K : Type*} [Field K] [LinearOrder K]

/-! ## The returns of the loop -/

/-- The list `returns` after the loop over the rows of the query. -/
def builtReturns (rows : List (RiskPoint K)) : List K :=
  match rows.reverse with
  | [] => []
  | first :: rest => ((first :: rest).foldl observe ⟨none, [], first.equity, 0, 0, 0⟩).returns

theorem realizedSharpe_riskMetrics (sqrt : K → K) (rows : List (RiskPoint K)) (connections : ℤ) :
    (riskMetrics sqrt rows connections).realizedSharpe =
      realizedSharpe sqrt (builtReturns rows) := by
  unfold riskMetrics builtReturns
  cases rows.reverse with
  | nil => simp [realizedSharpe]
  | cons first rest => rfl

/-- The return of an equity after another one, where the first of them is positive. -/
def ratios (equities : List K) : List K :=
  ((equities.zip equities.tail).filter fun e => 0 < e.1).map fun e => e.2 / e.1 - 1

theorem ratios_cons_cons (e e' : K) (equities : List K) :
    ratios (e :: e' :: equities) =
      (if 0 < e then [e' / e - 1] else []) ++ ratios (e' :: equities) := by
  unfold ratios
  simp only [List.tail_cons, List.zip_cons_cons, List.filter_cons, decide_eq_true_eq]
  split_ifs <;> simp

theorem returns_foldl (series : List (RiskPoint K)) (a : Totals K) :
    (series.foldl observe a).returns =
      a.returns ++ ratios (a.previous.toList ++ series.map RiskPoint.equity) := by
  induction series generalizing a with
  | nil => cases hprev : a.previous <;> simp [ratios]
  | cons p series ih =>
    rw [List.foldl_cons, ih]
    cases hprev : a.previous with
    | none => simp [observe, hprev]
    | some e =>
      simp only [observe, hprev, Option.toList_some, List.map_cons, List.cons_append,
        List.nil_append, ratios_cons_cons]
      split_ifs <;> simp

theorem builtReturns_eq (rows : List (RiskPoint K)) :
    builtReturns rows = ratios (rows.reverse.map RiskPoint.equity) := by
  unfold builtReturns
  cases rows.reverse with
  | nil => rfl
  | cons first rest =>
    dsimp only
    rw [returns_foldl]
    rfl

theorem ratios_map_Ico (f : ℕ → K) (m n : ℕ) :
    ratios ((List.Ico m n).map fun i => f (i + 1)) =
      ((List.Ico (m + 1) n).filter fun i => 0 < f i).map fun i => f (i + 1) / f i - 1 := by
  induction hd : n - m generalizing m with
  | zero =>
    rw [List.Ico.eq_nil_of_le (by omega), List.Ico.eq_nil_of_le (by omega)]
    rfl
  | succ d ih =>
    have hmn : m < n := by omega
    rw [List.Ico.eq_cons hmn]
    rcases Nat.lt_or_ge (m + 1) n with hlt | hge
    · have hrest := ih (m + 1) (by omega)
      rw [List.Ico.eq_cons hlt] at hrest ⊢
      rw [List.map_cons] at hrest
      rw [List.map_cons, List.map_cons, ratios_cons_cons, hrest]
      by_cases hf : 0 < f (m + 1) <;> simp [hf]
    · rw [List.Ico.eq_nil_of_le hge]
      rfl

/-! ## The returns of the engine -/

section Run

variable {n : ℕ} (symbols : Fin n → Symbol) (feeRate : K)

/-- `net_return` of the rebalance after the first `i`. -/
def netReturnAt (rs : List (Rebalance K n)) (i : ℕ) : K :=
  ((rs[i]?).map fun r =>
    (rebalancePnl symbols feeRate (ledger symbols feeRate (rs.take i)) r).netReturn).getD 0

/-- The net returns, not below -1, of the latest `lookback` rows but the first of them, where the
row before has a positive equity. -/
def windowReturns (rs : List (Rebalance K n)) (lookback : ℕ) : List K :=
  ((List.Ico (rs.length - lookback + 1) rs.length).filter fun i =>
    0 < equityAt (ledger symbols feeRate rs) i).map fun i =>
      max (netReturnAt symbols feeRate rs i) (-1)

variable {rs : List (Rebalance K n)}

/-- The stored equity is the one before it with the net return, unless that is negative. -/
theorem equityAt_succ (h : rs.Pairwise fun a b => a.now < b.now) {i : ℕ} (hi : i < rs.length) :
    let table := ledger symbols feeRate rs
    equityAt table (i + 1) = max 0 (equityAt table i * (1 + netReturnAt symbols feeRate rs i)) := by
  intro table
  have hrow := getElem?_ledger symbols feeRate h hi
  have hnet : netReturnAt symbols feeRate rs i =
      (rebalancePnl symbols feeRate (ledger symbols feeRate (rs.take i)) rs[i]).netReturn := by
    unfold netReturnAt
    rw [List.getElem?_eq_getElem hi]
    rfl
  rw [hnet, ← previous_equity symbols feeRate h i hi.le rs[i].now]
  unfold equityAt
  rw [if_neg (Nat.succ_ne_zero i), Nat.add_sub_cancel, hrow]
  rfl

theorem equities_fetchSeries (h : rs.Pairwise fun a b => a.now < b.now) (lookback : ℕ) :
    let table := ledger symbols feeRate rs
    ((fetchSeries table lookback).reverse.map RiskPoint.equity) =
      (List.Ico (rs.length - lookback) rs.length).map fun i => equityAt table (i + 1) := by
  intro table
  have hlength : table.length = rs.length := length_ledger symbols feeRate h
  have hdrop : (fetchSeries table lookback).reverse.map RiskPoint.equity =
      (table.drop (rs.length - lookback)).map (RiskPoint.equity ∘ riskPoint) := by
    rw [fetchSeries_ledger symbols feeRate h, List.reverse_reverse, List.map_map]
  rw [hdrop]
  refine List.ext_getElem? fun i => ?_
  rw [List.getElem?_map, List.getElem?_map, List.getElem?_drop]
  rcases Nat.lt_or_ge (rs.length - lookback + i) rs.length with hi | hi
  · obtain ⟨row, hrow, hequity, _⟩ := row_spec symbols feeRate h hi
    have hplace : (List.Ico (rs.length - lookback) rs.length)[i]? =
        some (rs.length - lookback + i) := by
      unfold List.Ico
      rw [List.getElem?_range' (by omega), Nat.one_mul]
    rw [hplace, hrow]
    show some (valueOrZero row.equity) = some (equityAt table (rs.length - lookback + i + 1))
    rw [hequity]
    rfl
  · rw [List.getElem?_eq_none (by omega), List.getElem?_eq_none (by rw [List.Ico.length]; omega)]
    rfl

variable [IsStrictOrderedRing K]

/-- The ratio of two stored equities is the net return, not below -1. -/
theorem ratio_eq (h : rs.Pairwise fun a b => a.now < b.now) {i : ℕ} (hi : i < rs.length)
    (hpos : 0 < equityAt (ledger symbols feeRate rs) i) :
    equityAt (ledger symbols feeRate rs) (i + 1) / equityAt (ledger symbols feeRate rs) i - 1 =
      max (netReturnAt symbols feeRate rs i) (-1) := by
  set e := equityAt (ledger symbols feeRate rs) i
  set r := netReturnAt symbols feeRate rs i
  have hdiv : max 0 (e * (1 + r)) / e = max 0 (1 + r) := by
    rw [← mul_zero e, ← mul_max_of_nonneg _ _ hpos.le, mul_zero, mul_div_cancel_left₀ _ hpos.ne']
  calc equityAt (ledger symbols feeRate rs) (i + 1) / e - 1 = max 0 (1 + r) - 1 := by
        rw [equityAt_succ symbols feeRate h hi, hdiv]
    _ = max (0 - 1) (1 + r - 1) := (max_sub_sub_right 0 (1 + r) 1).symm
    _ = max r (-1) := by rw [zero_sub, add_sub_cancel_left, max_comm]

theorem builtReturns_ledger (h : rs.Pairwise fun a b => a.now < b.now) (lookback : ℕ) :
    builtReturns (fetchSeries (ledger symbols feeRate rs) lookback) =
      windowReturns symbols feeRate rs lookback := by
  rw [builtReturns_eq, equities_fetchSeries symbols feeRate h, ratios_map_Ico]
  unfold windowReturns
  refine List.map_congr_left fun i hi => ?_
  obtain ⟨hwindow, hpos⟩ := List.mem_filter.mp hi
  exact ratio_eq symbols feeRate h (List.Ico.mem.mp hwindow).2 (of_decide_eq_true hpos)

end Run

/-! ## The reported ratio -/

/-- The sample standard deviation of the returns. -/
def sampleStd (sqrt : K → K) (values : List K) : K :=
  let mean := values.sum / values.length
  sqrt ((values.map fun v => (v - mean) ^ 2).sum / (values.length - 1))

/-- The mean over the sample standard deviation; 0 with fewer than two returns or where they do
not vary. -/
def sharpeOf (sqrt : K → K) (values : List K) : K :=
  if 2 ≤ values.length ∧ 1e-12 < sampleStd sqrt values then
    values.sum / values.length / sampleStd sqrt values
  else 0

section Report

variable [IsStrictOrderedRing K]

omit [LinearOrder K] [IsStrictOrderedRing K] in
theorem average_eq (values : List K) : average values = values.sum / values.length := by
  unfold average
  split_ifs with h
  · rw [h, List.sum_nil, zero_div]
  · rfl

theorem stdDev_eq (sqrt : K → K) {values : List K} (h : 2 ≤ values.length) :
    stdDev sqrt values = sampleStd sqrt values := by
  have hlength : (0 : K) < values.length - 1 := by
    have hone : (1 : K) < values.length := by exact_mod_cast h
    exact sub_pos.mpr hone
  have hsum : 0 ≤ (values.map fun v => (v - average values) * (v - average values)).sum := by
    refine List.sum_nonneg fun x hx => ?_
    obtain ⟨v, _, rfl⟩ := List.mem_map.mp hx
    exact mul_self_nonneg _
  unfold stdDev sampleStd
  rw [if_neg (by omega)]
  dsimp only
  rw [if_neg (not_lt.mpr (div_nonneg hsum hlength.le)), average_eq]
  simp only [pow_two]

theorem realizedSharpe_eq (sqrt : K → K) (values : List K) :
    realizedSharpe sqrt values = sharpeOf sqrt values := by
  unfold realizedSharpe sharpeOf
  by_cases h : 2 ≤ values.length
  · rw [if_pos (show 1 < values.length from h)]
    dsimp only
    rw [stdDev_eq sqrt h, average_eq]
    simp only [h, true_and]
  · rw [if_neg (show ¬1 < values.length from h), if_neg fun hc => h hc.1]

variable {n : ℕ} (symbols : Fin n → Symbol) (feeRate : K) {rs : List (Rebalance K n)}

/-- **The realized returns.** Over every run of rebalances the two handlers build the net returns
of the engine from the stored equities, and report the Sharpe ratio of these. -/
theorem realized_returns (sqrt : K → K) (connections : ℤ)
    (h : rs.Pairwise fun a b => a.now < b.now) (lookback : ℕ) (query : String) :
    builtReturns (fetchSeries (ledger symbols feeRate rs) lookback) =
        windowReturns symbols feeRate rs lookback ∧
      (computeRiskMetrics sqrt connections (ledger symbols feeRate rs) lookback).realizedSharpe =
        sharpeOf sqrt (windowReturns symbols feeRate rs lookback) ∧
      builtReturns (fetchSeries (ledger symbols feeRate rs) (clampLimit query 90 2000).toNat) =
        windowReturns symbols feeRate rs (clampLimit query 90 2000).toNat ∧
      (handleRiskMetrics sqrt connections (ledger symbols feeRate rs) query).realizedSharpe =
        sharpeOf sqrt (windowReturns symbols feeRate rs (clampLimit query 90 2000).toNat) := by
  have hreturns : ∀ L, builtReturns (fetchSeries (ledger symbols feeRate rs) L) =
      windowReturns symbols feeRate rs L :=
    builtReturns_ledger symbols feeRate h
  have hsharpe : ∀ L,
      (riskMetrics sqrt (fetchSeries (ledger symbols feeRate rs) L) connections).realizedSharpe =
        sharpeOf sqrt (windowReturns symbols feeRate rs L) := by
    intro L
    rw [realizedSharpe_riskMetrics, hreturns, realizedSharpe_eq]
  exact ⟨hreturns lookback, hsharpe lookback, hreturns _, hsharpe _⟩

/-- The theorem for three rebalances, and so two returns, and a query without a limit. -/
theorem realized_returns_rotation :
    (windowReturns pair (1 / 1000) rotation 90).length = 2 ∧
    builtReturns (fetchSeries (ledger pair (1 / 1000) rotation) 90) =
        windowReturns pair (1 / 1000) rotation 90 ∧
      (computeRiskMetrics Rat.sqrt 0 (ledger pair (1 / 1000) rotation) 90).realizedSharpe =
        sharpeOf Rat.sqrt (windowReturns pair (1 / 1000) rotation 90) ∧
      builtReturns (fetchSeries (ledger pair (1 / 1000) rotation)
          (clampLimit "" 90 2000).toNat) =
        windowReturns pair (1 / 1000) rotation (clampLimit "" 90 2000).toNat ∧
      (handleRiskMetrics Rat.sqrt 0 (ledger pair (1 / 1000) rotation) "").realizedSharpe =
        sharpeOf Rat.sqrt (windowReturns pair (1 / 1000) rotation (clampLimit "" 90 2000).toNat) :=
  ⟨by decide +kernel,
    realized_returns pair (1 / 1000) Rat.sqrt 0 rotation_increases 90 ""⟩

end Report

end PortfolioEngine.Gateway
