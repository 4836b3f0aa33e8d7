import Mathlib.Algebra.BigOperators.Intervals
import Mathlib.Data.Rat.Sqrt
import PortfolioEngine.Lib.Backlog
import PortfolioEngine.Lib.GoInt
import PortfolioEngine.Portfolio.Ledger

/-!
# The risk metrics

`computeRiskMetrics` and `handleRiskMetrics` of the gateway: one loop over the latest rows of
`portfolio_state`, over exact numbers. Both divide the stored `transaction_cost` by the equity; the
engine stores it as a fraction of the equity before the rebalance.

`fee_drag_iff`: over a run of rebalances the reported fee drag is the mean share of the equity that
went into fees if and only if each rebalance without equity 1 before it charges nothing.
-/

namespace PortfolioEngine.Gateway

open Tables Ledger GoInt

variable {K : Type*} [Field K] [LinearOrder K]

/-! ## The query -/

/-- `clampLimit`. -/
def clampLimit (value : String) (fallback max : ℤ) : ℤ :=
  if value = "" then fallback
  else
    match atoi value with
    | none => fallback
    | some n => if n ≤ 0 then fallback else if max < n then max else n

theorem clampLimit_pos (value : String) {fallback max : ℤ} (hfallback : 0 < fallback)
    (hmax : 0 < max) : 0 < clampLimit value fallback max := by
  unfold clampLimit
  split_ifs
  · exact hfallback
  · split
    · exact hfallback
    · split_ifs <;> omega

/-- A scanned row; a NULL equity, turnover or cost is 0. -/
structure RiskPoint (K : Type*) where
  time : ℤ
  equity : K
  portfolioVol : Option K
  sharpeProxy : Option K
  turnover : K
  txCost : K

/-- `valueOrZero`. -/
def valueOrZero (v : Option K) : K := v.getD 0

/-- A row as it is scanned. -/
def riskPoint (row : PortfolioRow K) : RiskPoint K :=
  { time := row.time
    equity := valueOrZero row.equity
    portfolioVol := row.portfolioVol
    sharpeProxy := row.sharpeProxy
    turnover := valueOrZero row.turnover
    txCost := valueOrZero row.transactionCost }

/-- The rows of the query: the latest `lookback` ones, the latest first. -/
def fetchSeries (table : List (PortfolioRow K)) (lookback : ℕ) : List (RiskPoint K) :=
  ((Backlog.ordered PortfolioRow.time table).reverse.take lookback).map riskPoint

/-! ## The loop -/

/-- `average`. -/
def average (values : List K) : K := if values = [] then 0 else values.sum / values.length

/-- `stdDev`. -/
def stdDev (sqrt : K → K) (values : List K) : K :=
  if values.length < 2 then 0
  else
    let mean := average values
    let variance := (values.map fun v => (v - mean) * (v - mean)).sum / (values.length - 1)
    if variance < 0 then 0 else sqrt variance

/-- The variables of the loop, with the equity of the row before. -/
structure Totals (K : Type*) where
  previous : Option K
  returns : List K
  peak : K
  maxDrawdown : K
  turnoverSum : K
  feeDragSum : K

/-- One row of the loop. -/
def observe (a : Totals K) (p : RiskPoint K) : Totals K :=
  let peak := if a.peak < p.equity then p.equity else a.peak
  let dd := (peak - p.equity) / peak
  { previous := some p.equity
    returns := match a.previous with
      | some e => if 0 < e then a.returns ++ [p.equity / e - 1] else a.returns
      | none => a.returns
    peak
    maxDrawdown := if 0 < peak ∧ a.maxDrawdown < dd then dd else a.maxDrawdown
    turnoverSum := a.turnoverSum + p.turnover
    feeDragSum := if 0 < p.equity then a.feeDragSum + p.txCost / p.equity else a.feeDragSum }

/-- The Sharpe ratio of the realized returns. -/
def realizedSharpe (sqrt : K → K) (returns : List K) : K :=
  if 1 < returns.length then
    let std := stdDev sqrt returns
    if 1e-12 < std then average returns / std else 0
  else 0

/-- `RiskMetrics`. -/
structure RiskMetrics (K : Type*) where
  asOf : Option ℤ
  portfolioVol : Option K
  sharpeProxy : Option K
  realizedSharpe : K
  maxDrawdown : K
  avgTurnover : K
  avgFeeDrag : K
  observations : ℕ
  websocketClients : ℤ

/-- What both handlers compute from the rows of the query. -/
def riskMetrics (sqrt : K → K) (rows : List (RiskPoint K)) (connections : ℤ) : RiskMetrics K :=
  match rows.reverse with
  | [] =>
    { asOf := none, portfolioVol := none, sharpeProxy := none, realizedSharpe := 0,
      maxDrawdown := 0, avgTurnover := 0, avgFeeDrag := 0, observations := 0,
      websocketClients := connections }
  | first :: rest =>
    let series := first :: rest
    let totals := series.foldl observe ⟨none, [], first.equity, 0, 0, 0⟩
    let last := rest.getLastD first
    { asOf := some last.time
      portfolioVol := last.portfolioVol
      sharpeProxy := last.sharpeProxy
      realizedSharpe := realizedSharpe sqrt totals.returns
      maxDrawdown := totals.maxDrawdown
      avgTurnover := totals.turnoverSum / series.length
      avgFeeDrag := totals.feeDragSum / series.length
      observations := series.length
      websocketClients := connections }

/-- `computeRiskMetrics`. -/
def computeRiskMetrics (sqrt : K → K) (connections : ℤ) (table : List (PortfolioRow K))
    (lookback : ℕ) : RiskMetrics K :=
  riskMetrics sqrt (fetchSeries table lookback) connections

/-- `handleRiskMetrics`, with the query parameter `lookback`. -/
def handleRiskMetrics (sqrt : K → K) (connections : ℤ) (table : List (PortfolioRow K))
    (lookback : String) : RiskMetrics K :=
  riskMetrics sqrt (fetchSeries table (clampLimit lookback 90 2000).toNat) connections

/-! ## What is reported as the fee drag -/

/-- The term of a row in the sum of the fee drag. -/
def dragTerm (p : RiskPoint K) : K := if 0 < p.equity then p.txCost / p.equity else 0

theorem feeDragSum_foldl (series : List (RiskPoint K)) (a : Totals K) :
    (series.foldl observe a).feeDragSum = a.feeDragSum + (series.map dragTerm).sum := by
  induction series generalizing a with
  | nil => simp
  | cons p series ih =>
    have hstep : (observe a p).feeDragSum = a.feeDragSum + dragTerm p := by
      unfold observe dragTerm
      dsimp only
      split_ifs
      · rfl
      · rw [add_zero]
    rw [List.foldl_cons, ih, hstep, List.map_cons, List.sum_cons, add_assoc]

theorem avgFeeDrag_riskMetrics (sqrt : K → K) (rows : List (RiskPoint K)) (connections : ℤ) :
    (riskMetrics sqrt rows connections).avgFeeDrag = (rows.map dragTerm).sum / rows.length := by
  have hsum : (rows.map dragTerm).sum = (rows.reverse.map dragTerm).sum := by
    rw [List.map_reverse, List.sum_reverse]
  rw [hsum, ← List.length_reverse]
  unfold riskMetrics
  split
  next h => simp [h]
  next first rest h =>
    rw [h]
    dsimp only
    rw [feeDragSum_foldl, zero_add]

/-! ## The fees of a run -/

section Run

variable {n : ℕ} (symbols : Fin n → Symbol) (feeRate : K)

/-- The amount by which the fee lowers the equity. -/
def feeCharged (table : List (PortfolioRow K)) (r : Rebalance K n) : K :=
  (rebalancePnl symbols 0 table r).equity - (rebalancePnl symbols feeRate table r).equity

/-- `e_i`, the equity after `i` rebalances. -/
def equityAt (table : List (PortfolioRow K)) (i : ℕ) : K :=
  if i = 0 then 1 else ((table[i - 1]?).bind PortfolioRow.equity).getD 1

/-- `t_{i+1}`, the turnover of the rebalance after the first `i`. -/
def turnoverAt (table : List (PortfolioRow K)) (i : ℕ) : K :=
  ((table[i]?).bind PortfolioRow.turnover).getD 0

theorem feeCharged_eq (table : List (PortfolioRow K)) (r : Rebalance K n) :
    feeCharged symbols feeRate table r =
      (previous symbols r.now (fetchLatestPortfolioState table)).equity *
        (feeRate * (rebalancePnl symbols feeRate table r).turnover) := by
  unfold feeCharged rebalancePnl computePortfolioPnl
  simp only [Option.getD_some]
  ring

variable {rs : List (Rebalance K n)}

theorem previous_equity (h : rs.Pairwise fun a b => a.now < b.now) (i : ℕ) (hi : i ≤ rs.length)
    (now : ℤ) :
    (previous symbols now (fetchLatestPortfolioState
      (ledger symbols feeRate (rs.take i)))).equity = equityAt (ledger symbols feeRate rs) i := by
  have hpre : (rs.take i).Pairwise fun a b => a.now < b.now := h.sublist (List.take_sublist _ _)
  obtain ⟨e, he⟩ := ledger_inv symbols feeRate hpre
  have hlength := length_ledger symbols feeRate hpre
  rw [List.length_take, Nat.min_eq_left hi] at hlength
  rw [he.equity, he.books.last_equity, hlength, ledger_take symbols feeRate h]
  unfold equityAt
  split_ifs with h0
  · rfl
  · rw [List.getElem?_take_of_lt (by omega)]

theorem row_spec (h : rs.Pairwise fun a b => a.now < b.now) {i : ℕ} (hi : i < rs.length) :
    let table := ledger symbols feeRate rs
    ∃ row, table[i]? = some row ∧ row.equity = some (equityAt table (i + 1)) ∧
      row.turnover = some (turnoverAt table i) ∧
      row.transactionCost = some (feeRate * turnoverAt table i) ∧
      feeCharged symbols feeRate (ledger symbols feeRate (rs.take i)) rs[i] =
        equityAt table i * (feeRate * turnoverAt table i) := by
  intro table
  have hrow := getElem?_ledger symbols feeRate h hi
  set pnl := rebalancePnl symbols feeRate (ledger symbols feeRate (rs.take i)) rs[i] with hpnl
  have hturnover : turnoverAt table i = pnl.turnover := by
    unfold turnoverAt
    rw [hrow, Option.bind_some, (rebalanceRow_pnl symbols feeRate _ _).2]
    rfl
  refine ⟨_, hrow, ?_, ?_, ?_, ?_⟩
  · unfold equityAt
    rw [if_neg (Nat.succ_ne_zero i), Nat.add_sub_cancel, hrow]
    rfl
  · rw [hturnover]
    rfl
  · rw [hturnover]
    rfl
  · rw [feeCharged_eq, previous_equity symbols feeRate h i hi.le, hturnover]

theorem ordered_ledger (h : rs.Pairwise fun a b => a.now < b.now) :
    Backlog.ordered PortfolioRow.time (ledger symbols feeRate rs) = ledger symbols feeRate rs := by
  obtain ⟨e, he⟩ := ledger_inv symbols feeRate h
  have hsorted : ((ledger symbols feeRate rs).map PortfolioRow.time).Pairwise (· < ·) := by
    rw [he.times]
    exact List.pairwise_map.mpr h
  exact List.Pairwise.insertionSort_eq ((List.pairwise_map.mp hsorted).imp le_of_lt)

theorem fetchSeries_ledger (h : rs.Pairwise fun a b => a.now < b.now) (lookback : ℕ) :
    fetchSeries (ledger symbols feeRate rs) lookback =
      (((ledger symbols feeRate rs).drop (rs.length - lookback)).map riskPoint).reverse := by
  unfold fetchSeries
  rw [ordered_ledger symbols feeRate h, List.take_reverse, length_ledger symbols feeRate h,
    List.map_reverse]

end Run

/-! ## The reported mean -/

omit [LinearOrder K] in
theorem sum_map_drop {α : Type*} (f : α → K) (l : List α) (m : ℕ) :
    ((l.drop m).map f).sum = ∑ i ∈ Finset.Ico m l.length, ((l[i]?).map f).getD 0 := by
  induction l using List.reverseRecOn with
  | nil => simp
  | append_singleton l x ih =>
    rcases Nat.lt_or_ge l.length m with hm | hm
    · rw [List.drop_of_length_le (by simp; omega), Finset.Ico_eq_empty (by simp; omega)]
      simp
    · have hsame : ∀ i ∈ Finset.Ico m l.length,
          (((l ++ [x])[i]?).map f).getD 0 = ((l[i]?).map f).getD 0 := by
        intro i hi
        rw [List.getElem?_append_left (Finset.mem_Ico.mp hi).2]
      rw [List.drop_append_of_le_length hm, List.map_append, List.sum_append, ih,
        List.length_append, List.length_singleton, Finset.sum_Ico_succ_top hm,
        Finset.sum_congr rfl hsame]
      simp

omit [LinearOrder K] in
/-- Means over the latest places agree after every place if and only if the values do. -/
theorem windowMeans_eq_iff [CharZero K] {f g : ℕ → K} {width count : ℕ} (hwidth : 0 < width) :
    (∀ k, 0 < k → k ≤ count →
      (∑ i ∈ Finset.Ico (k - width) k, f i) / (min width k : ℕ) =
        (∑ i ∈ Finset.Ico (k - width) k, g i) / (min width k : ℕ)) ↔
      ∀ i, i < count → f i = g i := by
  constructor
  · intro h i
    induction i using Nat.strong_induction_on with
    | _ i ih =>
      intro hi
      have hne : ((min width (i + 1) : ℕ) : K) ≠ 0 := Nat.cast_ne_zero.mpr (by omega)
      have hmean := (div_left_inj' hne).mp (h (i + 1) (Nat.succ_pos i) hi)
      have hbefore : ∑ j ∈ Finset.Ico (i + 1 - width) i, f j =
          ∑ j ∈ Finset.Ico (i + 1 - width) i, g j := by
        refine Finset.sum_congr rfl fun j hj => ?_
        have hji := (Finset.mem_Ico.mp hj).2
        exact ih j hji (hji.trans hi)
      rw [Finset.sum_Ico_succ_top (by omega), Finset.sum_Ico_succ_top (by omega), hbefore] at hmean
      exact add_left_cancel hmean
  · intro h k _ hk
    refine congrArg (· / _) (Finset.sum_congr rfl fun i hi => ?_)
    exact h i ((Finset.mem_Ico.mp hi).2.trans_le hk)

section Report

variable {n : ℕ} (symbols : Fin n → Symbol) (feeRate : K) {rs : List (Rebalance K n)}

/-- The fee drag that is reported after `k` rebalances, from the latest `width` rows. -/
theorem avgFeeDrag_ledger (sqrt : K → K) (connections : ℤ)
    (h : rs.Pairwise fun a b => a.now < b.now)
    (hpos : ∀ i ≤ rs.length, 0 < equityAt (ledger symbols feeRate rs) i) (width : ℕ) {k : ℕ}
    (hk : k ≤ rs.length) :
    let table := ledger symbols feeRate rs
    (riskMetrics sqrt (fetchSeries (ledger symbols feeRate (rs.take k)) width)
      connections).avgFeeDrag =
      (∑ i ∈ Finset.Ico (k - width) k,
        feeRate * turnoverAt table i / equityAt table (i + 1)) / (min width k : ℕ) := by
  intro table
  have hpre : (rs.take k).Pairwise fun a b => a.now < b.now := h.sublist (List.take_sublist _ _)
  have hlength : (table.take k).length = k := by
    rw [List.length_take, length_ledger symbols feeRate h]
    omega
  have hseries : fetchSeries (ledger symbols feeRate (rs.take k)) width =
      (((table.take k).drop (k - width)).map riskPoint).reverse := by
    rw [fetchSeries_ledger symbols feeRate hpre, ledger_take symbols feeRate h, List.length_take,
      Nat.min_eq_left hk]
  have hterm : ∀ i ∈ Finset.Ico (k - width) k,
      (((table.take k)[i]?).map (dragTerm ∘ riskPoint)).getD 0 =
        feeRate * turnoverAt table i / equityAt table (i + 1) := by
    intro i hi
    have hik := (Finset.mem_Ico.mp hi).2
    obtain ⟨row, hrow, hequity, _, hcost, _⟩ := row_spec symbols feeRate h (hik.trans_le hk)
    have hrisk : (riskPoint row).equity = equityAt table (i + 1) := by
      unfold riskPoint valueOrZero
      rw [hequity]
      rfl
    have htx : (riskPoint row).txCost = feeRate * turnoverAt table i := by
      unfold riskPoint valueOrZero
      rw [hcost]
      rfl
    rw [List.getElem?_take_of_lt hik, hrow]
    show dragTerm (riskPoint row) = _
    unfold dragTerm
    rw [hrisk, htx, if_pos (hpos (i + 1) (hik.trans_le hk))]
  rw [avgFeeDrag_riskMetrics, hseries, List.map_reverse, List.sum_reverse, List.map_map,
    sum_map_drop, List.length_reverse, List.length_map, List.length_drop, hlength,
    Finset.sum_congr rfl hterm, show k - (k - width) = min width k by omega]

/-- After each rebalance the report gives the mean over its rows of the fee charged, as a share of
the equity. -/
def ReportsFeeShare (report : List (PortfolioRow K) → K) (width : ℕ)
    (symbols : Fin n → Symbol) (feeRate : K) (rs : List (Rebalance K n)) : Prop :=
  let table := ledger symbols feeRate rs
  ∀ k, 0 < k → k ≤ rs.length → report (ledger symbols feeRate (rs.take k)) =
    (∑ i ∈ Finset.Ico (k - width) k,
      equityAt table i * (feeRate * turnoverAt table i) / equityAt table (i + 1)) /
        (min width k : ℕ)

theorem reportsFeeShare_iff [IsStrictOrderedRing K] (sqrt : K → K) (connections : ℤ)
    (h : rs.Pairwise fun a b => a.now < b.now)
    (hpos : ∀ i ≤ rs.length, 0 < equityAt (ledger symbols feeRate rs) i) {width : ℕ}
    (hwidth : 0 < width) :
    ReportsFeeShare (fun t => (riskMetrics sqrt (fetchSeries t width) connections).avgFeeDrag)
        width symbols feeRate rs ↔
      ∀ i, i < rs.length → feeRate * turnoverAt (ledger symbols feeRate rs) i = 0 ∨
        equityAt (ledger symbols feeRate rs) i = 1 := by
  set table := ledger symbols feeRate rs with htable
  have hreport : ∀ k, k ≤ rs.length →
      (riskMetrics sqrt (fetchSeries (ledger symbols feeRate (rs.take k)) width)
        connections).avgFeeDrag = (∑ i ∈ Finset.Ico (k - width) k,
          feeRate * turnoverAt table i / equityAt table (i + 1)) / (min width k : ℕ) :=
    fun k hk => avgFeeDrag_ledger symbols feeRate sqrt connections h hpos width hk
  have hmeans : ReportsFeeShare
      (fun t => (riskMetrics sqrt (fetchSeries t width) connections).avgFeeDrag) width symbols
        feeRate rs ↔ ∀ k, 0 < k → k ≤ rs.length →
      (∑ i ∈ Finset.Ico (k - width) k,
        feeRate * turnoverAt table i / equityAt table (i + 1)) / (min width k : ℕ) =
      (∑ i ∈ Finset.Ico (k - width) k,
        equityAt table i * (feeRate * turnoverAt table i) / equityAt table (i + 1)) /
          (min width k : ℕ) := by
    refine forall_congr' fun k => forall₂_congr fun _ hk => ?_
    dsimp only
    rw [hreport k hk]
  rw [hmeans, windowMeans_eq_iff hwidth]
  refine forall₂_congr fun i hi => ?_
  have hne : equityAt table (i + 1) ≠ 0 := (hpos (i + 1) hi).ne'
  rw [div_left_inj' hne, eq_comm, mul_left_eq_self₀, or_comm]

/-- **The fee drag.** Each rebalance charges `e_{i-1} * r * t_i`. The two handlers report the mean
share of the equity that this is, after each rebalance of the run, if and only if every rebalance
charges nothing or starts from equity 1. -/
theorem fee_drag_iff [IsStrictOrderedRing K] (sqrt : K → K) (connections : ℤ)
    (h : rs.Pairwise fun a b => a.now < b.now)
    (hpos : ∀ i ≤ rs.length, 0 < equityAt (ledger symbols feeRate rs) i) {lookback : ℕ}
    (hlookback : 0 < lookback) (query : String) :
    let table := ledger symbols feeRate rs
    let unit := ∀ i, i < rs.length → feeRate * turnoverAt table i = 0 ∨ equityAt table i = 1
    (∀ i (hi : i < rs.length),
      feeCharged symbols feeRate (ledger symbols feeRate (rs.take i)) rs[i] =
        equityAt table i * (feeRate * turnoverAt table i)) ∧
    (ReportsFeeShare (fun t => (computeRiskMetrics sqrt connections t lookback).avgFeeDrag)
      lookback symbols feeRate rs ↔ unit) ∧
    (ReportsFeeShare (fun t => (handleRiskMetrics sqrt connections t query).avgFeeDrag)
      (clampLimit query 90 2000).toNat symbols feeRate rs ↔ unit) := by
  intro table unit
  have hquery : 0 < (clampLimit query 90 2000).toNat := by
    have := clampLimit_pos query (show (0 : ℤ) < 90 by norm_num) (show (0 : ℤ) < 2000 by norm_num)
    omega
  refine ⟨fun i hi => ?_, ?_, ?_⟩
  · obtain ⟨_, _, _, _, _, hfee⟩ := row_spec symbols feeRate h hi
    exact hfee
  · exact reportsFeeShare_iff symbols feeRate sqrt connections h hpos hlookback
  · exact reportsFeeShare_iff symbols feeRate sqrt connections h hpos hquery

/-! Two rebalances, from equal weights to the first asset and from it to the second one. -/

def switching : List (Rebalance ℚ 2) := [⟨0, [], ![1, 0], 0, 0⟩, ⟨day, [], ![0, 1], 0, 0⟩]

theorem switching_inc : switching.Pairwise fun a b => a.now < b.now := by
  simp [switching, day, minute]

theorem switching_pos :
    ∀ i ≤ switching.length, 0 < equityAt (ledger pair (1 / 1000) switching) i := by
  decide +kernel

/-- The second fee is charged on an equity of 0.999, and the report takes it for one on 1. -/
theorem switching_fee_drag :
    let table := ledger pair (1 / 1000) switching
    (∀ i ≤ 2, 0 < equityAt table i) ∧ (computeRiskMetrics Rat.sqrt 0 table 90).observations = 2 ∧
    (computeRiskMetrics Rat.sqrt 0 table 90).avgFeeDrag ≠
      (∑ i ∈ Finset.Ico 0 2,
        equityAt table i * (1 / 1000 * turnoverAt table i) / equityAt table (i + 1)) / 2 := by
  decide +kernel

/-- The theorem for these two rebalances, and a query without a limit. -/
theorem fee_drag_iff_switching :
    let table := ledger pair (1 / 1000) switching
    let unit := ∀ i, i < switching.length → 1 / 1000 * turnoverAt table i = 0 ∨
      equityAt table i = 1
    (∀ i (hi : i < switching.length),
      feeCharged pair (1 / 1000) (ledger pair (1 / 1000) (switching.take i)) switching[i] =
        equityAt table i * (1 / 1000 * turnoverAt table i)) ∧
    (ReportsFeeShare (fun t => (computeRiskMetrics Rat.sqrt 0 t 90).avgFeeDrag) 90 pair (1 / 1000)
      switching ↔ unit) ∧
    (ReportsFeeShare (fun t => (handleRiskMetrics Rat.sqrt 0 t "").avgFeeDrag)
      (clampLimit "" 90 2000).toNat pair (1 / 1000) switching ↔ unit) :=
  fee_drag_iff pair (1 / 1000) Rat.sqrt 0 switching_inc switching_pos (by norm_num) ""

end Report

end PortfolioEngine.Gateway
