import Mathlib.Data.List.Induction
import PortfolioEngine.Gateway.RiskMetrics
import PortfolioEngine.Portfolio.Wealth

/-!
# The equity curve

`handleEquityCurve` reads the latest rows of `portfolio_state`, the latest first, and reverses them
in place.

`equity_curve`: the response is the end of what the strategy does, rebalance by rebalance, whatever
the client asks for.
-/

namespace PortfolioEngine.Gateway

open Tables Ledger GoInt

/-! ## The reversal -/

section Reversal

variable {α : Type*}

/-- The loop that swaps the ends until they meet. -/
def swapEnds (out : List α) (left right : ℕ) : List α :=
  if left < right then
    match out[left]?, out[right]? with
    | some a, some b => swapEnds ((out.set left b).set right a) (left + 1) (right - 1)
    | _, _ => out
  else out
termination_by right - left

theorem swapEnds_eq (mid front back : List α) :
    swapEnds (front ++ mid ++ back) front.length (front.length + mid.length - 1) =
      front ++ mid.reverse ++ back := by
  induction mid using List.bidirectionalRec generalizing front back with
  | nil =>
    rw [swapEnds, if_neg (by rw [List.length_nil]; omega)]
    rfl
  | singleton a =>
    rw [swapEnds, if_neg (by rw [List.length_singleton]; omega)]
    rfl
  | cons_append a l b ih =>
    have hlast : front.length + (a :: (l ++ [b])).length - 1 = front.length + (l.length + 1) := by
      rw [List.length_cons, List.length_append, List.length_singleton]
      omega
    have hleft : (front ++ (a :: (l ++ [b])) ++ back)[front.length]? = some a := by simp
    have hright : (front ++ (a :: (l ++ [b])) ++ back)[front.length + (l.length + 1)]? =
        some b := by simp
    have hset : ((front ++ (a :: (l ++ [b])) ++ back).set front.length b).set
        (front.length + (l.length + 1)) a = (front ++ [b]) ++ l ++ (a :: back) := by simp
    have hlen : (front ++ [b]).length = front.length + 1 := by
      rw [List.length_append, List.length_singleton]
    have hih := ih (front ++ [b]) (a :: back)
    rw [hlen] at hih
    rw [hlast, swapEnds, if_pos (by omega), hleft, hright]
    dsimp only
    have hright' : front.length + (l.length + 1) - 1 = front.length + 1 + l.length - 1 := by omega
    rw [hset, hright', hih]
    simp

/-- The loop over the whole slice reverses it. -/
theorem swapEnds_reverse (out : List α) : swapEnds out 0 (out.length - 1) = out.reverse := by
  have h := swapEnds_eq out [] []
  simpa using h

end Reversal

/-! ## The response -/

theorem clampLimit_le (value : String) {fallback max : ℤ} (h : fallback ≤ max) :
    clampLimit value fallback max ≤ max := by
  unfold clampLimit
  split_ifs
  · exact h
  · split
    · exact h
    · split_ifs <;> omega

variable {K : Type*} [Field K] [LinearOrder K] {n : ℕ}

/-- A point of the response. -/
structure EquityPoint (K : Type*) where
  time : ℤ
  equity : K
  periodPnl : K
  cumulativePnl : K
  transactionCost : K
  turnover : K

/-- A row as it is scanned; a NULL is 0. -/
def equityPoint (row : PortfolioRow K) : EquityPoint K :=
  { time := row.time
    equity := valueOrZero row.equity
    periodPnl := valueOrZero row.periodPnl
    cumulativePnl := valueOrZero row.cumulativePnl
    transactionCost := valueOrZero row.transactionCost
    turnover := valueOrZero row.turnover }

/-- `handleEquityCurve` for the text of the parameter `limit`. -/
def handleEquityCurve (value : String) (table : List (PortfolioRow K)) : List (EquityPoint K) :=
  let limit := clampLimit value 200 5000
  let out :=
    ((Backlog.ordered PortfolioRow.time table).reverse.take limit.toNat).map equityPoint
  swapEnds out 0 (out.length - 1)

/-! ## The strategy -/

/-- The point of the rebalance `r` after the rebalances `rs`. -/
def pointAfter (symbols : Fin n → Symbol) (feeRate : K) (rs : List (Rebalance K n))
    (r : Rebalance K n) : EquityPoint K :=
  let before := wealth symbols feeRate rs
  let after := wealth symbols feeRate (rs ++ [r])
  { time := r.now
    equity := after
    periodPnl := after - before
    cumulativePnl := after - 1
    transactionCost := feeRate * traded rs.getLast? r
    turnover := traded rs.getLast? r }

/-- The points of all rebalances. -/
def points (symbols : Fin n → Symbol) (feeRate : K) (rs : List (Rebalance K n)) :
    List (EquityPoint K) :=
  rs.zipIdx.map fun r => pointAfter symbols feeRate (rs.take r.2) r.1

theorem points_concat (symbols : Fin n → Symbol) (feeRate : K) (rs : List (Rebalance K n))
    (r : Rebalance K n) :
    points symbols feeRate (rs ++ [r]) =
      points symbols feeRate rs ++ [pointAfter symbols feeRate rs r] := by
  unfold points
  rw [List.zipIdx_append, List.map_append]
  refine congrArg₂ (· ++ ·) (List.map_congr_left fun x hx => ?_) ?_
  · have hlt := List.snd_lt_of_mem_zipIdx hx
    rw [List.take_append_of_le_length (by omega)]
  · simp

variable [IsStrictOrderedRing K]

variable {symbols : Fin n → Symbol} {rs : List (Rebalance K n)}

theorem equityPoint_rebalanceRow (hsymbols : Function.Injective symbols) (feeRate : K)
    (h : rs.Pairwise fun a b => a.now < b.now) (r : Rebalance K n) :
    equityPoint (rebalanceRow symbols feeRate (ledger symbols feeRate rs) r) =
      pointAfter symbols feeRate rs r := by
  obtain ⟨hturnover, hequity, -⟩ := nextRow_stateAfter feeRate hsymbols rs r
  unfold rebalanceRow
  rw [previous_ledger hsymbols h]
  generalize hrow : nextRow symbols feeRate r.now (stateAfter symbols feeRate rs r.now) r.weights
    (computePeriodAssetReturns symbols
      (fetchLatestPrice r.prices symbols (stateAfter symbols feeRate rs r.now).time)
      (fetchLatestPrice r.prices symbols r.now)) r.pVol r.pSharpe = row at hturnover hequity
  have htime : row.time = r.now := by rw [← hrow]; rfl
  have hpnl : row.periodPnl = row.equity.map fun e => e - wealth symbols feeRate rs := by
    rw [← hrow]; rfl
  have hcumulative : row.cumulativePnl = row.equity.map fun e =>
      wealth symbols feeRate rs - 1 + (e - wealth symbols feeRate rs) := by
    rw [← hrow]; rfl
  have hcost : row.transactionCost = row.turnover.map fun t => feeRate * t := by
    rw [← hrow]; rfl
  have hsum : wealth symbols feeRate rs - 1 +
      (wealth symbols feeRate (rs ++ [r]) - wealth symbols feeRate rs) =
        wealth symbols feeRate (rs ++ [r]) - 1 := by ring
  unfold equityPoint pointAfter valueOrZero
  rw [hcost, hcumulative, hpnl, hequity, hturnover, htime]
  simp only [Option.map_some, Option.getD_some, hsum]

theorem map_equityPoint_ledger (hsymbols : Function.Injective symbols) (feeRate : K)
    (h : rs.Pairwise fun a b => a.now < b.now) :
    (ledger symbols feeRate rs).map equityPoint = points symbols feeRate rs := by
  induction rs using List.reverseRecOn with
  | nil => rfl
  | append_singleton rs r ih =>
    obtain ⟨hrs, _, _⟩ := List.pairwise_append.mp h
    rw [ledger_concat symbols feeRate h, List.map_append, ih hrs, points_concat,
      List.map_singleton, equityPoint_rebalanceRow hsymbols feeRate hrs]

/-- **The equity curve.** After any run of rebalances at increasing times, the response to any
value of `limit` has the points of the last rebalances, the oldest first, as many as the clamped
limit allows, which is from 1 to 5000: each equity is the wealth of the strategy, each P&L its
change since the rebalance before, and each cost the fee on what is traded. -/
theorem equity_curve (hsymbols : Function.Injective symbols) (feeRate : K)
    (h : rs.Pairwise fun a b => a.now < b.now) (value : String) :
    let limit := clampLimit value 200 5000
    1 ≤ limit ∧ limit ≤ 5000 ∧
      handleEquityCurve value (ledger symbols feeRate rs) =
        (points symbols feeRate rs).rtake limit.toNat := by
  intro limit
  have hpos : 0 < limit := clampLimit_pos value (by decide) (by decide)
  refine ⟨hpos, clampLimit_le value (by decide), ?_⟩
  unfold handleEquityCurve
  dsimp only
  rw [swapEnds_reverse, ordered_ledger symbols feeRate h, List.take_reverse, List.map_reverse,
    List.reverse_reverse, List.map_drop, map_equityPoint_ledger hsymbols feeRate h, List.rtake,
    ← map_equityPoint_ledger hsymbols feeRate h, List.length_map]

/-- The last one of three points. -/
theorem equity_curve_rotation :
    1 ≤ clampLimit "1" 200 5000 ∧ clampLimit "1" 200 5000 ≤ 5000 ∧
      handleEquityCurve "1" (ledger pair (1 / 1000) rotation) =
        (points pair (1 / 1000) rotation).rtake (clampLimit "1" 200 5000).toNat :=
  equity_curve pair_injective _ rotation_increases "1"

end PortfolioEngine.Gateway
