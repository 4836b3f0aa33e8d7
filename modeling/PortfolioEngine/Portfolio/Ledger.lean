import Mathlib.Algebra.BigOperators.Fin
import Mathlib.Data.List.OfFn
import Mathlib.Tactic.Linarith
import Mathlib.Tactic.Ring
import PortfolioEngine.Data

/-!
# The portfolio ledger

The period returns, the P&L and the stored state of `portfolio_engine/db.py`, and the bookkeeping
part of `_run_rebalance`: from the previous row of `portfolio_state` and the new weights to the
next row.

`ledger`: over any run of rebalances at increasing times, every row records an equity that is
never negative, its change as the period P&L, and the sum of these as the cumulative P&L; an
equity of zero stays zero.
-/

namespace PortfolioEngine.Ledger

open Tables

variable {K : Type*} [Field K] [LinearOrder K] {n : ℕ}

/-! ## Prices -/

/-- An entry of the result of `fetch_latest_prices`. -/
structure PricePoint (K : Type*) where
  time : ℤ
  close : K

/-- `fetch_latest_prices`, for one symbol. -/
def fetchLatestPrice (prices : List (PriceRow K)) (symbols : Fin n → Symbol) (asOf : ℤ)
    (symbol : Symbol) : Option (PricePoint K) :=
  if ∃ i, symbols i = symbol then
    (latest PriceRow.time (prices.filter fun r => r.symbol = symbol ∧ r.time ≤ asOf)).map
      fun r => ⟨r.time, r.close⟩
  else none

/-- The return of one symbol in `compute_period_asset_returns`. -/
def assetReturn (src dst : Option (PricePoint K)) : K :=
  match src, dst with
  | some src, some dst => if src.close ≤ 0 then 0 else dst.close / src.close - 1
  | _, _ => 0

/-- `compute_period_asset_returns`, from the two price lookups. -/
def computePeriodAssetReturns (symbols : Fin n → Symbol)
    (fromPrices toPrices : Symbol → Option (PricePoint K)) : Dict K :=
  Dict.ofPairs (List.ofFn fun i =>
    (symbols i, assetReturn (fromPrices (symbols i)) (toPrices (symbols i))))

/-! ## Profit and loss -/

/-- The result of `compute_portfolio_pnl`. -/
structure Pnl (K : Type*) where
  grossReturn : K
  netReturn : K
  turnover : K
  transactionCost : K
  equity : K
  periodPnl : K
  cumulativePnl : K

/-- `d or fallback`: an absent or empty dictionary is false. -/
def orDict (d : Option (Dict K)) (fallback : Dict K) : Dict K :=
  match d with
  | some (p :: ps) => p :: ps
  | _ => fallback

/-- `compute_portfolio_pnl`. -/
def computePortfolioPnl (prevWeights assetReturns : Dict K) (prevEquity : Option K)
    (newWeights : Option (Dict K)) (transactionCostRate prevCumulativePnl : K)
    (halfL1Turnover : Bool) : Pnl K :=
  let prevEquity := prevEquity.getD 1
  let newWeights := orDict newWeights prevWeights
  let symbols := prevWeights.keySet ∪ assetReturns.keySet ∪ newWeights.keySet
  let grossReturn := ∑ s ∈ symbols, prevWeights.getD s 0 * assetReturns.getD s 0
  let l1Turnover := ∑ s ∈ symbols, |newWeights.getD s 0 - prevWeights.getD s 0|
  let turnover := if halfL1Turnover then 0.5 * l1Turnover else l1Turnover
  let transactionCost := transactionCostRate * turnover
  let netReturn := grossReturn - transactionCost
  let equity := prevEquity * (1 + netReturn)
  let periodPnl := equity - prevEquity
  { grossReturn, netReturn, turnover, transactionCost, equity, periodPnl,
    cumulativePnl := prevCumulativePnl + periodPnl }

/-! ## The stored state -/

/-- A row of `portfolio_state`. -/
structure PortfolioRow (K : Type*) where
  time : ℤ
  weights : Dict K
  portfolioVol : Option K
  sharpeProxy : Option K
  equity : Option K
  transactionCost : Option K
  turnover : Option K
  periodPnl : Option K
  cumulativePnl : Option K
  deriving DecidableEq

/-- The result of `fetch_latest_portfolio_state`. -/
structure LatestState (K : Type*) where
  time : ℤ
  weights : Dict K
  equity : K
  periodPnl : K
  cumulativePnl : K

/-- A row as `fetch_latest_portfolio_state` returns it. -/
def PortfolioRow.state (row : PortfolioRow K) : LatestState K :=
  { time := row.time
    weights := row.weights
    equity := row.equity.getD 1
    periodPnl := row.periodPnl.getD 0
    cumulativePnl := row.cumulativePnl.getD 0 }

/-- `fetch_latest_portfolio_state`. -/
def fetchLatestPortfolioState (table : List (PortfolioRow K)) : Option (LatestState K) :=
  (latest PortfolioRow.time table).map PortfolioRow.state

/-- `insert_portfolio_state`. -/
def insertPortfolioState (row : PortfolioRow K) (table : List (PortfolioRow K)) :
    List (PortfolioRow K) :=
  upsert PortfolioRow.time row table

omit [LinearOrder K] in
/-- A row stored at or after every other one is the state the next rebalance fetches. -/
theorem fetchLatestPortfolioState_insert {row : PortfolioRow K} {table : List (PortfolioRow K)}
    (h : ∀ x ∈ table, x.time ≤ row.time) :
    fetchLatestPortfolioState (insertPortfolioState row table) = some row.state := by
  unfold fetchLatestPortfolioState insertPortfolioState
  rw [latest_upsert h]
  rfl

/-- `prev_time`, `prev_weights_dict`, `prev_equity` and `prev_cumulative_pnl` of
`_run_rebalance`. -/
structure Previous (K : Type*) where
  time : ℤ
  weights : Dict K
  equity : K
  cumulativePnl : K

/-- The previous state, or the defaults of the first rebalance. -/
def previous (symbols : Fin n → Symbol) (now : ℤ) (state : Option (LatestState K)) :
    Previous K :=
  match state with
  | some s =>
    { time := s.time, weights := s.weights, equity := s.equity, cumulativePnl := s.cumulativePnl }
  | none =>
    { time := now - day
      weights := Dict.ofPairs (List.ofFn fun i => (symbols i, 1 / (n : K)))
      equity := 1
      cumulativePnl := 0 }

/-- `weights_dict`. -/
def weightsDict (symbols : Fin n → Symbol) (weights : Fin n → K) : Dict K :=
  Dict.ofPairs (List.ofFn fun i => (symbols i, weights i))

/-- The row that `_run_rebalance` inserts. -/
def nextRow (symbols : Fin n → Symbol) (feeRate : K) (now : ℤ) (prev : Previous K)
    (weights : Fin n → K) (periodReturns : Dict K) (pVol pSharpe : K) : PortfolioRow K :=
  let dict := weightsDict symbols weights
  let pnl := computePortfolioPnl prev.weights periodReturns (some prev.equity) (some dict) feeRate
    prev.cumulativePnl false
  let equity := max 0 pnl.equity
  let periodPnl := equity - prev.equity
  let cumulativePnl := prev.cumulativePnl + periodPnl
  { time := now
    weights := dict
    portfolioVol := some pVol
    sharpeProxy := some pSharpe
    equity := some equity
    transactionCost := some pnl.transactionCost
    turnover := some pnl.turnover
    periodPnl := some periodPnl
    cumulativePnl := some cumulativePnl }

/-! ## Runs of rebalances -/

/-- What one rebalance meets: its clock, the prices it reads and the weights it computes. -/
structure Rebalance (K : Type*) (n : ℕ) where
  now : ℤ
  prices : List (PriceRow K)
  weights : Fin n → K
  pVol : K
  pSharpe : K

/-- A successful rebalance, from table to table. -/
def rebalance (symbols : Fin n → Symbol) (feeRate : K) (table : List (PortfolioRow K))
    (r : Rebalance K n) : List (PortfolioRow K) :=
  let prev := previous symbols r.now (fetchLatestPortfolioState table)
  let periodReturns := computePeriodAssetReturns symbols
    (fetchLatestPrice r.prices symbols prev.time) (fetchLatestPrice r.prices symbols r.now)
  insertPortfolioState
    (nextRow symbols feeRate r.now prev r.weights periodReturns r.pVol r.pSharpe) table

/-- The row it stores. -/
def rebalanceRow (symbols : Fin n → Symbol) (feeRate : K) (table : List (PortfolioRow K))
    (r : Rebalance K n) : PortfolioRow K :=
  let prev := previous symbols r.now (fetchLatestPortfolioState table)
  nextRow symbols feeRate r.now prev r.weights
    (computePeriodAssetReturns symbols (fetchLatestPrice r.prices symbols prev.time)
      (fetchLatestPrice r.prices symbols r.now)) r.pVol r.pSharpe

/-- The result of `compute_portfolio_pnl` in `_run_rebalance`. -/
def rebalancePnl (symbols : Fin n → Symbol) (feeRate : K) (table : List (PortfolioRow K))
    (r : Rebalance K n) : Pnl K :=
  let prev := previous symbols r.now (fetchLatestPortfolioState table)
  computePortfolioPnl prev.weights
    (computePeriodAssetReturns symbols (fetchLatestPrice r.prices symbols prev.time)
      (fetchLatestPrice r.prices symbols r.now))
    (some prev.equity) (some (weightsDict symbols r.weights)) feeRate prev.cumulativePnl false

theorem rebalanceRow_pnl (symbols : Fin n → Symbol) (feeRate : K) (table : List (PortfolioRow K))
    (r : Rebalance K n) :
    (rebalanceRow symbols feeRate table r).equity =
        some (max 0 (rebalancePnl symbols feeRate table r).equity) ∧
      (rebalanceRow symbols feeRate table r).turnover =
        some (rebalancePnl symbols feeRate table r).turnover :=
  ⟨rfl, rfl⟩

/-- The table after the successful rebalances `rs`, from the empty one. -/
def ledger (symbols : Fin n → Symbol) (feeRate : K) (rs : List (Rebalance K n)) :
    List (PortfolioRow K) :=
  rs.foldl (rebalance symbols feeRate) []

/-! ## What the rows record -/

/-- The period P&L of a row as the database returns it. -/
def pnlOf (row : PortfolioRow K) : K := row.periodPnl.getD 0

/-- The rows in order, ending with equity `e`: each one has a nonnegative equity, its change as
the period P&L and the sum of the changes as the cumulative P&L, and zero is never left. -/
inductive Books : List (PortfolioRow K) → K → Prop
  | start : Books [] 1
  | next {table : List (PortfolioRow K)} {e₀ e : K} {row : PortfolioRow K} (prev : Books table e₀)
      (nonneg : 0 ≤ e) (ruin : e₀ = 0 → e = 0) (equity : row.equity = some e)
      (periodPnl : row.periodPnl = some (e - e₀))
      (cumulativePnl : row.cumulativePnl = some (e - 1)) :
      Books (table ++ [row]) e

theorem Books.sum_pnl {table : List (PortfolioRow K)} {e : K} (h : Books table e) :
    (table.map pnlOf).sum = e - 1 := by
  induction h with
  | start => simp
  | @next table e₀ e row _ _ _ _ hp _ ih =>
    have hrow : pnlOf row = e - e₀ := by unfold pnlOf; rw [hp]; rfl
    rw [List.map_append, List.sum_append, ih, List.map_singleton, List.sum_singleton, hrow]
    ring

theorem Books.ruined {table : List (PortfolioRow K)} {e : K} (h : Books table e) :
    ∀ row ∈ table, row.equity = some 0 → e = 0 := by
  induction h with
  | start => intro row hrow; exact absurd hrow List.not_mem_nil
  | @next table e₀ e row _ _ hruin he _ _ ih =>
    intro x hx h0
    rcases List.mem_append.mp hx with hx | hx
    · exact hruin (ih x hx h0)
    · rw [List.mem_singleton.mp hx, he] at h0
      exact Option.some.inj h0

/-- What row `i` of a table records: its equity `e` after `e₀`. -/
structure Recorded (table : List (PortfolioRow K)) (i : ℕ) (row : PortfolioRow K) (e₀ e : K) :
    Prop where
  equity : row.equity = some e
  nonneg : 0 ≤ e
  equity_before : e₀ = if i = 0 then 1 else ((table[i - 1]?).bind PortfolioRow.equity).getD 1
  periodPnl : row.periodPnl = some (e - e₀)
  cumulativePnl : row.cumulativePnl = some (e - 1)
  sum_pnl : ((table.take (i + 1)).map pnlOf).sum = e - 1
  ruin : e = 0 → ∀ j (hj : j < table.length), i < j →
    table[j].equity = some 0 ∧ table[j].periodPnl = some 0

theorem Books.last_equity {table : List (PortfolioRow K)} {e : K} (h : Books table e) :
    e = if table.length = 0 then 1
      else ((table[table.length - 1]?).bind PortfolioRow.equity).getD 1 := by
  cases h with
  | start => rfl
  | @next table e₀ e row _ _ _ he _ _ => simp [he]

/-- A row keeps what it records when another row follows. -/
theorem Recorded.append {table : List (PortfolioRow K)} {i : ℕ} {row last : PortfolioRow K}
    {e₀ e e₁ e₂ : K} (h : Recorded table i row e₀ e) (hi : i < table.length)
    (hlast : last.equity = some e₂) (hpnl : last.periodPnl = some (e₂ - e₁))
    (hruin : e = 0 → e₁ = 0 ∧ e₂ = 0) : Recorded (table ++ [last]) i row e₀ e where
  equity := h.equity
  nonneg := h.nonneg
  equity_before := by
    rw [List.getElem?_append_left (by omega)]
    exact h.equity_before
  periodPnl := h.periodPnl
  cumulativePnl := h.cumulativePnl
  sum_pnl := by
    rw [List.take_append_of_le_length (by omega)]
    exact h.sum_pnl
  ruin := by
    intro he j hj hij
    by_cases hjt : j < table.length
    · rw [List.getElem_append_left hjt]
      exact h.ruin he j hjt hij
    · have hj' : j = table.length := by
        rw [List.length_append, List.length_singleton] at hj
        omega
      obtain ⟨h1, h2⟩ := hruin he
      subst hj'
      rw [List.getElem_append_right le_rfl]
      simp [hlast, hpnl, h1, h2]

theorem Books.recorded {table : List (PortfolioRow K)} {e : K} (h : Books table e) :
    ∀ i (hi : i < table.length), ∃ e₀ e', Recorded table i table[i] e₀ e' := by
  induction h with
  | start => intro i hi; exact absurd hi (Nat.not_lt_zero i)
  | @next table e₀ e row prev nonneg ruin he hp hc ih =>
    intro i hi
    by_cases hit : i < table.length
    · obtain ⟨a₀, a, ha⟩ := ih i hit
      refine ⟨a₀, a, ?_⟩
      rw [List.getElem_append_left hit]
      refine ha.append hit he hp fun h0 => ?_
      have hzero : e₀ = 0 := prev.ruined _ (List.getElem_mem hit) (by rw [ha.equity, h0])
      exact ⟨hzero, ruin hzero⟩
    · have hieq : i = table.length := by
        rw [List.length_append, List.length_singleton] at hi
        omega
      subst hieq
      refine ⟨e₀, e, ?_⟩
      rw [List.getElem_append_right le_rfl]
      refine ⟨by simpa using he, nonneg, ?_, by simpa using hp, by simpa using hc, ?_, ?_⟩
      · have hlast := prev.last_equity
        by_cases h0 : table.length = 0
        · rw [if_pos h0] at hlast ⊢; exact hlast
        · rw [if_neg h0] at hlast ⊢
          rw [List.getElem?_append_left (by omega)]
          exact hlast
      · rw [List.take_of_length_le (by simp)]
        exact (Books.next prev nonneg ruin he hp hc).sum_pnl
      · intro _ j hj hij
        rw [List.length_append, List.length_singleton] at hj
        omega

/-! ## The invariant of a run -/

section Run

variable (symbols : Fin n → Symbol) (feeRate : K)

/-- What a run keeps: the books, and a latest state that hands the equity and the cumulative P&L
on to the next rebalance. -/
structure LedgerInv (rs : List (Rebalance K n)) (table : List (PortfolioRow K)) (e : K) : Prop where
  books : Books table e
  times : table.map PortfolioRow.time = rs.map Rebalance.now
  equity : ∀ now, (previous symbols now (fetchLatestPortfolioState table)).equity = e
  cumulativePnl : ∀ now,
    (previous symbols now (fetchLatestPortfolioState table)).cumulativePnl = e - 1

/-- The row of a rebalance, from the equity `e` and the cumulative P&L `e - 1` before it. -/
theorem nextRow_spec {prev : Previous K} {e : K} (he : prev.equity = e)
    (hc : prev.cumulativePnl = e - 1) (now : ℤ) (weights : Fin n → K) (returns : Dict K)
    (pVol pSharpe : K) {row : PortfolioRow K}
    (hrow : row = nextRow symbols feeRate now prev weights returns pVol pSharpe) :
    ∃ e', 0 ≤ e' ∧ (e = 0 → e' = 0) ∧ row.equity = some e' ∧ row.periodPnl = some (e' - e) ∧
      row.cumulativePnl = some (e' - 1) := by
  subst hrow
  set pnl := computePortfolioPnl prev.weights returns (some prev.equity)
    (some (weightsDict symbols weights)) feeRate prev.cumulativePnl false with hpnl
  have hequity : pnl.equity = e * (1 + pnl.netReturn) := by rw [← he]; rfl
  refine ⟨max 0 pnl.equity, le_max_left _ _, fun h0 => ?_, rfl, ?_, ?_⟩
  · rw [hequity, h0, zero_mul, max_self]
  · rw [← he]; rfl
  · show some (prev.cumulativePnl + (max 0 pnl.equity - prev.equity)) = _
    rw [he, hc]
    congr 1
    ring

theorem LedgerInv.time_lt {rs : List (Rebalance K n)} {table : List (PortfolioRow K)} {e : K}
    (h : LedgerInv symbols rs table e) {r : Rebalance K n} (hr : ∀ x ∈ rs, x.now < r.now) :
    ∀ x ∈ table, x.time < r.now := by
  intro x hx
  have hmem : x.time ∈ rs.map Rebalance.now := h.times ▸ List.mem_map_of_mem hx
  obtain ⟨y, hy, hyx⟩ := List.mem_map.mp hmem
  rw [← hyx]
  exact hr y hy

theorem LedgerInv.step {rs : List (Rebalance K n)} {table : List (PortfolioRow K)} {e : K}
    (h : LedgerInv symbols rs table e) {r : Rebalance K n} (hr : ∀ x ∈ rs, x.now < r.now) :
    ∃ e', LedgerInv symbols (rs ++ [r]) (rebalance symbols feeRate table r) e' := by
  set row := rebalanceRow symbols feeRate table r with hrow
  obtain ⟨e', h0, hruin, he, hp, hc⟩ := nextRow_spec symbols feeRate (h.equity r.now)
    (h.cumulativePnl r.now) r.now r.weights _ r.pVol r.pSharpe hrow
  have hlt : ∀ x ∈ table, x.time < row.time := h.time_lt symbols hr
  have htable : rebalance symbols feeRate table r = table ++ [row] := upsert_of_lt hlt
  have hlatest : fetchLatestPortfolioState (table ++ [row]) = some row.state := by
    rw [← htable]
    exact fetchLatestPortfolioState_insert fun x hx => (hlt x hx).le
  rw [htable]
  refine ⟨e', ⟨h.books.next h0 hruin he hp hc, ?_, ?_, ?_⟩⟩
  · rw [List.map_append, List.map_append, h.times]; rfl
  · intro now
    rw [hlatest]
    show row.equity.getD 1 = e'
    rw [he]; rfl
  · intro now
    rw [hlatest]
    show row.cumulativePnl.getD 0 = e' - 1
    rw [hc]; rfl

theorem ledger_inv : ∀ {rs : List (Rebalance K n)}, rs.Pairwise (fun a b => a.now < b.now) →
    ∃ e, LedgerInv symbols rs (ledger symbols feeRate rs) e := by
  intro rs
  induction rs using List.reverseRecOn with
  | nil =>
    intro _
    exact ⟨1, .start, rfl, fun _ => rfl, fun _ => (sub_self 1).symm⟩
  | append_singleton rs r ih =>
    intro hinc
    rw [List.pairwise_append] at hinc
    obtain ⟨e, he⟩ := ih hinc.1
    have hr : ∀ x ∈ rs, x.now < r.now := fun x hx => hinc.2.2 x hx r (List.mem_singleton.mpr rfl)
    unfold ledger
    rw [List.foldl_append]
    exact he.step symbols feeRate hr

theorem ledger_concat {rs : List (Rebalance K n)} {r : Rebalance K n}
    (h : (rs ++ [r]).Pairwise fun a b => a.now < b.now) :
    ledger symbols feeRate (rs ++ [r]) = ledger symbols feeRate rs ++
      [rebalanceRow symbols feeRate (ledger symbols feeRate rs) r] := by
  rw [List.pairwise_append] at h
  obtain ⟨e, he⟩ := ledger_inv symbols feeRate h.1
  have hlt : ∀ x ∈ ledger symbols feeRate rs, x.time < r.now :=
    he.time_lt symbols fun x hx => h.2.2 x hx r (List.mem_singleton_self r)
  unfold ledger
  rw [List.foldl_concat]
  exact upsert_of_lt hlt

variable {rs : List (Rebalance K n)}

theorem length_ledger (h : rs.Pairwise fun a b => a.now < b.now) :
    (ledger symbols feeRate rs).length = rs.length := by
  obtain ⟨e, he⟩ := ledger_inv symbols feeRate h
  have hlength := congrArg List.length he.times
  rwa [List.length_map, List.length_map] at hlength

theorem ledger_take (h : rs.Pairwise fun a b => a.now < b.now) (k : ℕ) :
    ledger symbols feeRate (rs.take k) = (ledger symbols feeRate rs).take k := by
  induction rs using List.reverseRecOn with
  | nil => simp [ledger]
  | append_singleton rs r ih =>
    have hrs : rs.Pairwise fun a b => a.now < b.now := (List.pairwise_append.mp h).1
    have hlength := length_ledger symbols feeRate hrs
    rcases Nat.lt_or_ge rs.length k with hk | hk
    · have hk' : (rs ++ [r]).length ≤ k := by
        rw [List.length_append, List.length_singleton]
        exact hk
      rw [List.take_of_length_le hk', List.take_of_length_le]
      rwa [length_ledger symbols feeRate h]
    · rw [List.take_append_of_le_length hk, ledger_concat symbols feeRate h,
        List.take_append_of_le_length (by omega)]
      exact ih hrs

theorem getElem?_ledger (h : rs.Pairwise fun a b => a.now < b.now) {i : ℕ} (hi : i < rs.length) :
    (ledger symbols feeRate rs)[i]? =
      some (rebalanceRow symbols feeRate (ledger symbols feeRate (rs.take i)) rs[i]) := by
  have hsplit : rs.take (i + 1) = rs.take i ++ [rs[i]] := List.take_succ_eq_append_getElem hi
  have hpre : (rs.take i ++ [rs[i]]).Pairwise fun a b => a.now < b.now :=
    hsplit ▸ h.sublist (List.take_sublist _ _)
  have htake := ledger_take symbols feeRate h (i + 1)
  rw [hsplit, ledger_concat symbols feeRate hpre] at htake
  have hlength : (ledger symbols feeRate (rs.take i)).length = i := by
    rw [length_ledger symbols feeRate (h.sublist (List.take_sublist _ _)), List.length_take]
    omega
  have hget : ((ledger symbols feeRate rs).take (i + 1))[i]? =
      some (rebalanceRow symbols feeRate (ledger symbols feeRate (rs.take i)) rs[i]) := by
    rw [← htake, List.getElem?_append_right (by omega), hlength, Nat.sub_self]
    rfl
  rwa [List.getElem?_take_of_lt (Nat.lt_succ_self i)] at hget

end Run

/-- **The ledger.** Over every run of successful rebalances at increasing times, from an empty
table, there is one row for each rebalance, and each records a nonnegative equity, its change as
the period P&L and their sum as the cumulative P&L; after an equity of zero nothing moves. -/
theorem ledger_recorded (symbols : Fin n → Symbol) (feeRate : K)
    (rs : List (Rebalance K n)) (hinc : rs.Pairwise fun a b => a.now < b.now) :
    (ledger symbols feeRate rs).map PortfolioRow.time = rs.map Rebalance.now ∧
    ∀ i (hi : i < (ledger symbols feeRate rs).length),
      ∃ e₀ e, Recorded (ledger symbols feeRate rs) i (ledger symbols feeRate rs)[i] e₀ e := by
  obtain ⟨e, he⟩ := ledger_inv symbols feeRate hinc
  exact ⟨he.times, he.books.recorded⟩

/-- Two rebalances of one symbol whose price falls to nothing in between. -/
theorem ledger_recorded_ruin :
    let rs : List (Rebalance ℚ 1) :=
      [⟨0, [⟨0, "BTCUSDT", 1, 1, 1, 1, 1⟩], ![1], 0, 0⟩,
        ⟨day, [⟨0, "BTCUSDT", 1, 1, 1, 1, 1⟩, ⟨day, "BTCUSDT", 0, 0, 0, 0, 1⟩], ![1], 0, 0⟩]
    (ledger ![("BTCUSDT" : Symbol)] (1 / 1000) rs).map PortfolioRow.time = rs.map Rebalance.now ∧
    ∀ i (hi : i < (ledger ![("BTCUSDT" : Symbol)] (1 / 1000) rs).length), ∃ e₀ e,
      Recorded (ledger ![("BTCUSDT" : Symbol)] (1 / 1000) rs) i
        (ledger ![("BTCUSDT" : Symbol)] (1 / 1000) rs)[i] e₀ e :=
  ledger_recorded _ _ _ (by simp [day, minute])

/-! ## Three rebalances of two symbols -/

def pair : Fin 2 → Symbol := ![("BTCUSDT" : Symbol), "ETHUSDT"]

/-- The candles of the symbols at `t`. -/
def quotes (t : ℤ) (btc eth : ℚ) : List (PriceRow ℚ) :=
  [⟨t, "BTCUSDT", btc, btc, btc, btc, 1⟩, ⟨t, "ETHUSDT", eth, eth, eth, eth, 1⟩]

/-- All into the first symbol, which doubles, then all into the second one, which triples. -/
def rotation : List (Rebalance ℚ 2) :=
  [⟨0, quotes 0 1 1, ![1, 0], 0, 0⟩,
    ⟨day, quotes 0 1 1 ++ quotes day 2 1, ![0, 1], 0, 0⟩,
    ⟨2 * day, quotes 0 1 1 ++ quotes day 2 1 ++ quotes (2 * day) 1 3, ![1 / 2, 1 / 2], 0, 0⟩]

theorem rotation_increases : rotation.Pairwise fun a b => a.now < b.now := by
  simp [rotation, day, minute]

theorem pair_injective : Function.Injective pair := by decide

end PortfolioEngine.Ledger
