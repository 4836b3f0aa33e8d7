import PortfolioEngine.Features.RealNumerics
import PortfolioEngine.Forecasting.Inference
import PortfolioEngine.Portfolio.Allocator
import PortfolioEngine.Portfolio.Estimates
import PortfolioEngine.Portfolio.Outputs

/-!
# A whole rebalance

`_run_rebalance` from its queries to its outputs, over floats that can be infinite or NaN, with
every exception it can raise and every parameter it hands to the driver. The driver is a predicate:
the parameters it adapts.

`rebalance_never_completes`: psycopg does not adapt the dictionary of the weights, so every
rebalance raises and stores nothing.
-/

namespace PortfolioEngine.RunRebalance

open Tables Ledger Estimates Allocator Outputs
open Forecasting (ForecastRow)
open Features (realNumerics)

universe u

variable {K : Type*} [Field K] [LinearOrder K] {n : ℕ}

/-! ## Exceptions and the driver -/

/-- The exceptions that a rebalance can raise. -/
inductive Error where
  | typeError
  | zeroDivisionError
  | programmingError
  deriving DecidableEq

/-- The value of `x`, where a missing one is a division by zero. -/
def orZeroDivision {α : Type*} : Option α → Except Error α
  | some a => .ok a
  | none => .error .zeroDivisionError

/-- A query parameter, by its Python type. -/
inductive Param (K : Type*) where
  | str (s : String)
  | int (z : ℤ)
  | float (x : Flt K)
  | datetime (t : ℤ)
  | none
  | strList (l : List String)
  | json (d : Dict (Flt K))
  | dict (d : Dict (Flt K))

/-- The parameters that psycopg 3 adapts: not a bare dictionary. -/
def psycopg : Param K → Bool
  | .dict _ => false
  | _ => true

/-- `cur.execute` with these parameters, and what the statement gives. -/
def execute {α : Type*} (adapts : Param K → Bool) (params : List (Param K)) (result : α) :
    Except Error α :=
  if params.all adapts then .ok result else .error .programmingError

/-! ## The configuration and what a rebalance meets -/

/-- The configuration of the engine, with distinct symbols. -/
structure Config (K : Type*) (n : ℕ) where
  symbols : Fin n → Symbol
  covarianceLookbackDays : ℤ
  returnLookbackMinutes : ℤ
  diagonalShrinkageLambda : K
  maxOptIters : ℤ
  optStepSize : K
  weightCap : K
  turnoverFeeRate : K
  distinct : Function.Injective symbols

/-- The tables and the clocks that a rebalance reads: the engine's clock, and that of the database
at the two price queries that use it. A close can be NULL. -/
structure Snapshot (K : Type*) where
  prices : List (PriceRow (Option (Flt K)))
  forecasts : List (ForecastRow K)
  clock : ℤ
  covarianceClock : ℤ
  returnClock : ℤ
  uniquePrices : (prices.map PriceRow.key).Nodup
  uniqueForecasts : (forecasts.map ForecastRow.key).Nodup

/-! ## The queries -/

section Queries

variable (adapts : Param K → Bool) (symbols : Fin n → Symbol)

/-- The rows of a price frame since `start`. -/
def quotesSince (prices : List (PriceRow (Option (Flt K)))) (start : ℤ) : List (Quote K) :=
  (Backlog.ordered PriceRow.time
    (prices.filter fun r => (∃ i, symbols i = r.symbol) ∧ start ≤ r.time)).map
    fun r => ⟨r.time, r.symbol, r.close.getD .nan⟩

/-- `fetch_return_history`. -/
def fetchReturnHistory (prices : List (PriceRow (Option (Flt K)))) (lookbackDays now : ℤ) :
    Except Error (List (Quote K)) :=
  execute adapts [.strList (List.ofFn symbols), .int lookbackDays]
    (quotesSince symbols prices (now - lookbackDays * day))

/-- `fetch_short_return_history`. -/
def fetchShortReturnHistory (prices : List (PriceRow (Option (Flt K)))) (lookbackMinutes now : ℤ) :
    Except Error (List (Quote K)) :=
  execute adapts [.strList (List.ofFn symbols), .int lookbackMinutes]
    (quotesSince symbols prices (now - lookbackMinutes * minute))

/-- `SELECT DISTINCT ON (symbol)`: for each symbol its latest row among the ones that count. -/
def latestPerSymbol {ρ : Type*} (symbol : ρ → Symbol) (time : ρ → ℤ) (counts : ρ → Bool)
    (asOf : ℤ) (rows : List ρ) : List ρ :=
  (List.ofFn symbols).dedup.filterMap fun s =>
    latest time (rows.filter fun r => symbol r = s ∧ time r ≤ asOf ∧ counts r)

/-- `fetch_latest_forecasts`. -/
def fetchLatestForecasts (forecasts : List (ForecastRow K)) (asOf : ℤ) :
    Except Error (Dict (Forecast K)) :=
  execute adapts [.strList (List.ofFn symbols), .datetime asOf]
    ((latestPerSymbol symbols ForecastRow.symbol ForecastRow.time
      (fun r => r.garchVol.isSome || r.xgbVol.isSome) asOf forecasts).map
        fun r => (r.symbol, ⟨r.garchVol, r.xgbVol⟩))

/-- The rows of `fetch_latest_prices`. -/
def latestPrices (prices : List (PriceRow (Option (Flt K)))) (asOf : ℤ) :
    List (PriceRow (Option (Flt K))) :=
  latestPerSymbol symbols PriceRow.symbol PriceRow.time (fun _ => true) asOf prices

/-- An entry of the result of `fetch_latest_prices`: `float(None)` raises. -/
def pricePoint (r : PriceRow (Option (Flt K))) : Except Error (Symbol × PricePoint (Flt K)) :=
  match r.close with
  | some close => .ok (r.symbol, ⟨r.time, close⟩)
  | none => .error .typeError

/-- `fetch_latest_prices`. -/
def fetchLatestPrices (prices : List (PriceRow (Option (Flt K)))) (asOf : ℤ) :
    Except Error (Dict (PricePoint (Flt K))) := do
  let rows ← execute adapts [.strList (List.ofFn symbols), .datetime asOf]
    (latestPrices symbols prices asOf)
  rows.mapM pricePoint

end Queries

/-! ## The state and the P&L, over floats -/

/-- A row as `fetch_latest_portfolio_state` returns it. -/
def rowState (row : PortfolioRow (Flt K)) : LatestState (Flt K) :=
  { time := row.time
    weights := row.weights
    equity := row.equity.getD (.fin 1)
    periodPnl := row.periodPnl.getD (.fin 0)
    cumulativePnl := row.cumulativePnl.getD (.fin 0) }

/-- `fetch_latest_portfolio_state`. -/
def fetchLatestState (adapts : Param K → Bool) (table : List (PortfolioRow (Flt K))) :
    Except Error (Option (LatestState (Flt K))) :=
  execute adapts [] ((latest PortfolioRow.time table).map rowState)

/-- The previous state, or the defaults of the first rebalance. -/
def previousState (symbols : Fin n → Symbol) (now : ℤ) (state : Option (LatestState (Flt K))) :
    Previous (Flt K) :=
  match state with
  | some s =>
    { time := s.time, weights := s.weights, equity := s.equity, cumulativePnl := s.cumulativePnl }
  | none =>
    { time := now - day
      weights := Dict.ofPairs (List.ofFn fun i => (symbols i, .fin (1 / (n : K))))
      equity := .fin 1
      cumulativePnl := .fin 0 }

/-- The return of one symbol in `compute_period_asset_returns`. -/
def periodReturn (src dst : Option (PricePoint (Flt K))) : Flt K :=
  match src, dst with
  | some src, some dst =>
    if src.close ≤ .fin 0 then .fin 0 else (dst.close.div src.close).sub (.fin 1)
  | _, _ => .fin 0

/-- `compute_period_asset_returns`. -/
def periodAssetReturns (adapts : Param K → Bool) (symbols : Fin n → Symbol)
    (prices : List (PriceRow (Option (Flt K)))) (fromTime toTime : ℤ) :
    Except Error (Dict (Flt K)) := do
  let fromPrices ← fetchLatestPrices adapts symbols prices fromTime
  let toPrices ← fetchLatestPrices adapts symbols prices toTime
  pure (Dict.ofPairs (List.ofFn fun i =>
    (symbols i, periodReturn (fromPrices.lookup (symbols i)) (toPrices.lookup (symbols i)))))

/-- `compute_portfolio_pnl`. -/
def portfolioPnl (prevWeights assetReturns : Dict (Flt K)) (prevEquity : Option (Flt K))
    (newWeights : Option (Dict (Flt K))) (transactionCostRate : K) (prevCumulativePnl : Flt K)
    (halfL1Turnover : Bool) : Pnl (Flt K) :=
  let prevEquity := prevEquity.getD (.fin 1)
  let newWeights := orDict newWeights prevWeights
  let symbols := prevWeights.keySet ∪ assetReturns.keySet ∪ newWeights.keySet
  let grossReturn := ∑ s ∈ symbols, (prevWeights.getD s (.fin 0)).mul (assetReturns.getD s (.fin 0))
  let l1Turnover :=
    ∑ s ∈ symbols, ((newWeights.getD s (.fin 0)).sub (prevWeights.getD s (.fin 0))).abs
  let turnover := if halfL1Turnover then (Flt.fin 0.5).mul l1Turnover else l1Turnover
  let transactionCost := (Flt.fin transactionCostRate).mul turnover
  let netReturn := grossReturn.sub transactionCost
  let equity := prevEquity.mul ((Flt.fin 1).add netReturn)
  let periodPnl := equity.sub prevEquity
  { grossReturn, netReturn, turnover, transactionCost, equity, periodPnl,
    cumulativePnl := prevCumulativePnl.add periodPnl }

/-- `max(0.0, x)`, which is 0 for NaN. -/
def positivePart (x : Flt K) : Flt K := if Flt.fin 0 < x then x else .fin 0

/-! ## The rebalance -/

/-- The estimates and the weights of a rebalance. -/
structure Allocation (K : Type*) (n : ℕ) where
  mu : Fin n → K
  cov : Matrix (Fin n) (Fin n) K
  weights : Fin n → K

/-- `_run_rebalance`, from the queries to `weights`. -/
def allocate (adapts : Param K → Bool) (log : Flt K → Flt K) (sqrt : K → K) (cfg : Config K n)
    (s : Snapshot K) : Except Error (Allocation K n) := do
  let covPrices ←
    fetchReturnHistory adapts cfg.symbols s.prices cfg.covarianceLookbackDays s.covarianceClock
  let shortPrices ←
    fetchShortReturnHistory adapts cfg.symbols s.prices cfg.returnLookbackMinutes s.returnClock
  let forecasts ← fetchLatestForecasts adapts cfg.symbols s.forecasts (truncMinute s.clock)
  let cov := estimateCovariance log covPrices cfg.symbols cfg.diagonalShrinkageLambda
  let mu := estimateMu log shortPrices cfg.symbols
  let modelVols := chooseTargetVols (fun symbol => forecasts.lookup symbol) cfg.symbols
  let weights ← orZeroDivision
    (finalWeights sqrt mu cov modelVols cfg.weightCap cfg.maxOptIters.toNat cfg.optStepSize)
  pure { mu, cov, weights }

/-- The payload of `_run_rebalance`, from the previous state and the period returns. -/
def nextPayload (symbols : Fin n → Symbol) (feeRate : K) (now : ℤ) (prev : Previous (Flt K))
    (weights : Fin n → K) (periodReturns : Dict (Flt K)) (pVol pSharpe : K) : Payload K :=
  let dict := Dict.ofPairs (List.ofFn fun i => (symbols i, Flt.fin (weights i)))
  let pnl := portfolioPnl prev.weights periodReturns (some prev.equity) (some dict) feeRate
    prev.cumulativePnl false
  let equity := positivePart pnl.equity
  let periodPnl := equity.sub prev.equity
  let cumulativePnl := prev.cumulativePnl.add periodPnl
  { time := now
    weights := dict
    portfolioVol := .fin pVol
    sharpeProxy := .fin pSharpe
    equity
    transactionCost := pnl.transactionCost
    turnover := pnl.turnover
    periodPnl
    cumulativePnl }

/-- What `_run_rebalance` computes before its writes. -/
def computePayload (adapts : Param K → Bool) (log : Flt K → Flt K) (sqrt : K → K) (cfg : Config K n)
    (s : Snapshot K) (table : List (PortfolioRow (Flt K))) : Except Error (Payload K) := do
  let now := truncMinute s.clock
  let a ← allocate adapts log sqrt cfg s
  let state ← fetchLatestState adapts table
  let prev := previousState cfg.symbols now state
  let periodReturns ← periodAssetReturns adapts cfg.symbols s.prices prev.time now
  let pVol := portfolioVolatility sqrt a.weights a.cov
  let pSharpe ← orZeroDivision (Allocator.sharpeProxy sqrt a.weights a.mu a.cov)
  pure (nextPayload cfg.symbols cfg.turnoverFeeRate now prev a.weights periodReturns pVol pSharpe)

/-- The parameters of the `INSERT`, the weights as a dictionary. -/
def insertParams (p : Payload K) : List (Param K) :=
  [.datetime p.time, .dict p.weights, .float p.portfolioVol, .float p.sharpeProxy,
    .float p.equity, .float p.transactionCost, .float p.turnover, .float p.periodPnl,
    .float p.cumulativePnl]

/-- `_run_rebalance` while both stores are reachable: the stores after it, and the exception that
it raises. -/
def runRebalance (adapts : Param K → Bool) (log : Flt K → Flt K) (sqrt : K → K) (cfg : Config K n)
    (s : Snapshot K) (st : State K) : State K × Option Error :=
  match computePayload adapts log sqrt cfg s st.table with
  | .error e => (st, some e)
  | .ok p =>
    match execute adapts (insertParams p) () with
    -- A parameter that is not adapted fails the insert, before the statement is sent.
    | .error e => ((Outputs.runRebalance st p (some .insert)).1, some e)
    | .ok () => ((Outputs.runRebalance st p none).1, none)

/-- The stores after the rebalances of the main loop. -/
def afterSnapshots (adapts : Param K → Bool) (log : Flt K → Flt K) (sqrt : K → K)
    (cfg : Config K n) (ss : List (Snapshot K)) (st : State K) : State K :=
  ss.foldl (fun st s => (runRebalance adapts log sqrt cfg s st).1) st

/-! ## What a rebalance does -/

/-- The driver adapts every parameter but the dictionaries. -/
def AdaptsPlain (adapts : Param K → Bool) : Prop := ∀ p, psycopg p = true → adapts p = true

/-- A latest close at `asOf` is NULL. -/
def SeesNull (symbols : Fin n → Symbol) (prices : List (PriceRow (Option (Flt K)))) (asOf : ℤ) :
    Prop :=
  ∃ r ∈ latestPrices symbols prices asOf, r.close = none

theorem ok_bind {ε : Type*} {α β : Type u} (a : α) (f : α → Except ε β) :
    (Except.ok a >>= f) = f a := rfl

theorem exists_ok_of_bind {ε : Type*} {α β : Type u} {x : Except ε α} {f : α → Except ε β} {b : β}
    (h : (x >>= f) = .ok b) : ∃ a, x = .ok a ∧ f a = .ok b := by
  cases x with
  | error e => cases h
  | ok a => exact ⟨a, rfl, h⟩

section Execute

variable {adapts : Param K → Bool} {α : Type*}

omit [Field K] [LinearOrder K] in
theorem execute_ok {params : List (Param K)} (h : ∀ p ∈ params, adapts p = true) (result : α) :
    execute adapts params result = .ok result := by
  unfold execute
  rw [if_pos (List.all_eq_true.mpr h)]

omit [Field K] [LinearOrder K] in
theorem execute_error {params : List (Param K)} {p : Param K} (hp : p ∈ params)
    (h : adapts p = false) (result : α) :
    execute adapts params result = .error .programmingError := by
  unfold execute
  rw [if_neg]
  intro hall
  rw [List.all_eq_true.mp hall p hp] at h
  cases h

omit [Field K] [LinearOrder K] in
theorem AdaptsPlain.execute (h : AdaptsPlain adapts) {params : List (Param K)}
    (hparams : params.all psycopg = true) (result : α) :
    RunRebalance.execute adapts params result = .ok result :=
  execute_ok (fun p hp => h p (List.all_eq_true.mp hparams p hp)) result

end Execute

section Prices

variable {adapts : Param K → Bool} {symbols : Fin n → Symbol}
  {prices : List (PriceRow (Option (Flt K)))}

omit [Field K] [LinearOrder K] in
theorem mapM_pricePoint (rows : List (PriceRow (Option (Flt K)))) :
    (∃ d, rows.mapM pricePoint = .ok d) ∧ (∀ r ∈ rows, r.close ≠ none) ∨
      rows.mapM pricePoint = .error .typeError ∧ ∃ r ∈ rows, r.close = none := by
  induction rows with
  | nil => exact .inl ⟨⟨[], rfl⟩, fun r hr => absurd hr List.not_mem_nil⟩
  | cons r rows ih =>
    rw [List.mapM_cons]
    cases hr : r.close with
    | none =>
      refine .inr ⟨?_, r, List.mem_cons_self, hr⟩
      simp only [pricePoint, hr, bind, Except.bind]
    | some close =>
      rcases ih with ⟨⟨d, hd⟩, hsome⟩ | ⟨herror, x, hx, hnone⟩
      · refine .inl ⟨⟨(r.symbol, ⟨r.time, close⟩) :: d, ?_⟩, ?_⟩
        · simp only [pricePoint, hr, hd, bind, Except.bind]
          rfl
        · rintro y (_ | ⟨_, hy⟩)
          · rw [hr]
            simp
          · exact hsome y hy
      · refine .inr ⟨?_, x, List.mem_cons_of_mem r hx, hnone⟩
        simp only [pricePoint, hr, herror, bind, Except.bind]

omit [Field K] [LinearOrder K] in
theorem mem_of_mem_latestPerSymbol {ρ : Type*} {symbol : ρ → Symbol} {time : ρ → ℤ}
    {counts : ρ → Bool} {asOf : ℤ} {rows : List ρ} {r : ρ}
    (h : r ∈ latestPerSymbol symbols symbol time counts asOf rows) : r ∈ rows := by
  obtain ⟨_, _, hr⟩ := List.mem_filterMap.mp h
  exact (List.mem_filter.mp (mem_of_latest hr)).1

omit [Field K] [LinearOrder K] in
theorem not_seesNull (h : ∀ r ∈ prices, r.close ≠ none) {asOf : ℤ} :
    ¬ SeesNull symbols prices asOf := by
  rintro ⟨r, hr, hnone⟩
  exact h r (mem_of_mem_latestPerSymbol hr) hnone

omit [Field K] [LinearOrder K] in
theorem fetchLatestPrices_spec (h : AdaptsPlain adapts) (asOf : ℤ) :
    (∃ d, fetchLatestPrices adapts symbols prices asOf = .ok d) ∧ ¬ SeesNull symbols prices asOf ∨
      fetchLatestPrices adapts symbols prices asOf = .error .typeError ∧
        SeesNull symbols prices asOf := by
  unfold fetchLatestPrices SeesNull
  rw [h.execute rfl]
  rcases mapM_pricePoint (latestPrices symbols prices asOf) with ⟨hok, hsome⟩ | herror
  · exact .inl ⟨hok, fun ⟨r, hr, hnone⟩ => hsome r hr hnone⟩
  · exact .inr herror

theorem periodAssetReturns_spec (h : AdaptsPlain adapts) (symbols : Fin n → Symbol)
    (prices : List (PriceRow (Option (Flt K)))) (fromTime toTime : ℤ) :
    (∃ d, periodAssetReturns adapts symbols prices fromTime toTime = .ok d) ∧
        ¬ SeesNull symbols prices fromTime ∧ ¬ SeesNull symbols prices toTime ∨
      periodAssetReturns adapts symbols prices fromTime toTime = .error .typeError ∧
        (SeesNull symbols prices fromTime ∨ SeesNull symbols prices toTime) := by
  unfold periodAssetReturns
  rcases fetchLatestPrices_spec h fromTime with ⟨⟨d, hd⟩, hfrom⟩ | ⟨hd, hfrom⟩
  · rcases fetchLatestPrices_spec h toTime with ⟨⟨d', hd'⟩, hto⟩ | ⟨hd', hto⟩
    · rw [hd, hd']
      exact .inl ⟨⟨_, rfl⟩, hfrom, hto⟩
    · rw [hd, hd']
      exact .inr ⟨rfl, .inr hto⟩
  · rw [hd]
    exact .inr ⟨rfl, .inl hfrom⟩

end Prices

/-! ## The whole rebalance -/

/-- The previous state that a rebalance fetches from `table`. -/
def fetchedPrevious (cfg : Config K n) (s : Snapshot K) (table : List (PortfolioRow (Flt K))) :
    Previous (Flt K) :=
  previousState cfg.symbols (truncMinute s.clock) ((latest PortfolioRow.time table).map rowState)

/-- A close that the P&L reads is NULL. -/
def NullClose (cfg : Config K n) (s : Snapshot K) (table : List (PortfolioRow (Flt K))) : Prop :=
  SeesNull cfg.symbols s.prices (fetchedPrevious cfg s table).time ∨
    SeesNull cfg.symbols s.prices (truncMinute s.clock)

section Whole

variable [IsStrictOrderedRing K] {adapts : Param K → Bool} {log : Flt K → Flt K} {sqrt : K → K}

theorem sharpeProxy_spec (sqrt : K → K) (weights mu : Fin n → K) (cov : Matrix (Fin n) (Fin n) K) :
    ∃ x, Allocator.sharpeProxy sqrt weights mu cov = some x := by
  unfold Allocator.sharpeProxy
  dsimp only
  by_cases h : portfolioVolatility sqrt weights cov ≤ 1e-12
  · exact ⟨0, if_pos h⟩
  · have hpos : 0 < portfolioVolatility sqrt weights cov :=
      (by norm_num : (0 : K) < 1e-12).trans (not_le.mp h)
    exact ⟨_, by rw [if_neg h, divide_eq_some hpos.ne']⟩

theorem allocate_spec (hadapts : AdaptsPlain adapts) (hsqrt : ∀ x, 0 < x → 0 < sqrt x) (hn : 0 < n)
    {cfg : Config K n} (hcap : 0 < cfg.weightCap) (s : Snapshot K) :
    ∃ a, allocate adapts log sqrt cfg s = .ok a ∧ Invested a.weights := by
  unfold allocate fetchReturnHistory fetchShortReturnHistory fetchLatestForecasts
  rw [hadapts.execute rfl, ok_bind, hadapts.execute rfl, ok_bind, hadapts.execute rfl, ok_bind]
  dsimp only
  obtain ⟨w, hw, hinvested⟩ := finalWeights_invested hsqrt hn hcap.le _ _ _ _ _
  rw [hw]
  exact ⟨_, rfl, hinvested⟩

omit [IsStrictOrderedRing K] in
theorem computePayload_eq (hadapts : AdaptsPlain adapts) {cfg : Config K n} {s : Snapshot K}
    {a : Allocation K n} (ha : allocate adapts log sqrt cfg s = .ok a) {pSharpe : K}
    (hsharpe : Allocator.sharpeProxy sqrt a.weights a.mu a.cov = some pSharpe)
    (table : List (PortfolioRow (Flt K))) :
    computePayload adapts log sqrt cfg s table =
      (periodAssetReturns adapts cfg.symbols s.prices (fetchedPrevious cfg s table).time
        (truncMinute s.clock)).map fun periodReturns =>
          nextPayload cfg.symbols cfg.turnoverFeeRate (truncMinute s.clock)
            (fetchedPrevious cfg s table) a.weights periodReturns
            (portfolioVolatility sqrt a.weights a.cov) pSharpe := by
  unfold computePayload fetchLatestState
  rw [ha, ok_bind, hadapts.execute rfl, ok_bind, hsharpe]
  rfl

/-- Before its writes a rebalance fails on a NULL close only. -/
theorem computePayload_spec (hadapts : AdaptsPlain adapts) (hsqrt : ∀ x, 0 < x → 0 < sqrt x)
    (hn : 0 < n) {cfg : Config K n} (hcap : 0 < cfg.weightCap) (s : Snapshot K)
    (table : List (PortfolioRow (Flt K))) :
    (∃ p, computePayload adapts log sqrt cfg s table = .ok p ∧ p.time = truncMinute s.clock) ∧
        ¬ NullClose cfg s table ∨
      computePayload adapts log sqrt cfg s table = .error .typeError ∧ NullClose cfg s table := by
  obtain ⟨a, ha, _⟩ := allocate_spec hadapts hsqrt hn hcap s
  obtain ⟨pSharpe, hsharpe⟩ := sharpeProxy_spec sqrt a.weights a.mu a.cov
  rw [computePayload_eq hadapts ha hsharpe]
  rcases periodAssetReturns_spec hadapts cfg.symbols s.prices
    (fetchedPrevious cfg s table).time (truncMinute s.clock) with
    ⟨⟨d, hd⟩, hfrom, hto⟩ | ⟨hd, hnull⟩
  · rw [hd]
    exact .inl ⟨⟨_, rfl, rfl⟩, not_or.mpr ⟨hfrom, hto⟩⟩
  · rw [hd]
    exact .inr ⟨rfl, hnull⟩

/-- A rebalance that raises no exception and appends its row and its event. -/
def Completes (now : ℤ) (before : State K) (after : State K × Option Error) : Prop :=
  after.2 = none ∧
    ∃ p : Payload K, p.time = now ∧ p.row ∈ after.1.table ∧ after.1.stream = before.stream ++ [p]

omit [Field K] [LinearOrder K] [IsStrictOrderedRing K] in
theorem not_completes_raised {now : ℤ} {before after : State K} {e : Error} :
    ¬ Completes now before (after, some e) := by
  rintro ⟨hnone, _⟩
  cases hnone

/-- With a driver that adapts dictionaries too, a rebalance completes unless a close is NULL. -/
theorem completes_iff (hadapts : ∀ p, adapts p = true) (hsqrt : ∀ x, 0 < x → 0 < sqrt x)
    (hn : 0 < n) {cfg : Config K n} (hcap : 0 < cfg.weightCap) (s : Snapshot K) (st : State K) :
    Completes (truncMinute s.clock) st (runRebalance adapts log sqrt cfg s st) ↔
      ¬ NullClose cfg s st.table := by
  have hplain : AdaptsPlain adapts := fun p _ => hadapts p
  unfold runRebalance
  rcases computePayload_spec hplain hsqrt hn hcap s st.table with ⟨⟨p, hp, ht⟩, hnull⟩ | ⟨hp, hnull⟩
  · rw [hp, iff_true_right hnull]
    dsimp only
    rw [execute_ok fun q _ => hadapts q]
    dsimp only
    rw [runRebalance_eq]
    exact ⟨rfl, p, ht, mem_upsert_self _ _ _, rfl⟩
  · rw [hp, iff_false_right (not_not.mpr hnull)]
    exact not_completes_raised

/-- psycopg raises on the weights of every rebalance that gets that far. -/
theorem runRebalance_psycopg (hsqrt : ∀ x, 0 < x → 0 < sqrt x) (hn : 0 < n) {cfg : Config K n}
    (hcap : 0 < cfg.weightCap) (s : Snapshot K) (st : State K) :
    runRebalance psycopg log sqrt cfg s st = (st, some .programmingError) ∧
        ¬ NullClose cfg s st.table ∨
      runRebalance psycopg log sqrt cfg s st = (st, some .typeError) ∧
        NullClose cfg s st.table := by
  have hplain : AdaptsPlain (psycopg : Param K → Bool) := fun _ hp => hp
  unfold runRebalance
  rcases computePayload_spec hplain hsqrt hn hcap s st.table with ⟨⟨p, hp, _⟩, hnull⟩ | ⟨hp, hnull⟩
  · have hdict : Param.dict p.weights ∈ insertParams p :=
      List.mem_cons_of_mem _ List.mem_cons_self
    rw [hp]
    dsimp only
    rw [execute_error hdict rfl]
    dsimp only
    rw [runRebalance_eq]
    exact .inl ⟨rfl, hnull⟩
  · rw [hp]
    exact .inr ⟨rfl, hnull⟩

theorem runRebalance_stores (hsqrt : ∀ x, 0 < x → 0 < sqrt x) (hn : 0 < n) {cfg : Config K n}
    (hcap : 0 < cfg.weightCap) (s : Snapshot K) (st : State K) :
    ∃ e, runRebalance psycopg log sqrt cfg s st = (st, some e) := by
  rcases runRebalance_psycopg hsqrt hn hcap s st with ⟨h, _⟩ | ⟨h, _⟩
  · exact ⟨_, h⟩
  · exact ⟨_, h⟩

/-- The main loop goes on after a failure, and no number of rebalances stores anything. -/
theorem rebalances_store_nothing (hsqrt : ∀ x, 0 < x → 0 < sqrt x) (hn : 0 < n) {cfg : Config K n}
    (hcap : 0 < cfg.weightCap) (ss : List (Snapshot K)) (st : State K) :
    afterSnapshots psycopg log sqrt cfg ss st = st := by
  unfold afterSnapshots
  induction ss with
  | nil => rfl
  | cons s ss ih =>
    obtain ⟨e, he⟩ := runRebalance_stores hsqrt hn hcap s st
    rw [List.foldl_cons, he]
    exact ih

end Whole

/-- **A rebalance always fails.** Whatever the prices, the forecasts and the stored state are, it
raises and leaves both stores as they were: on a NULL close if the P&L reads one, else on the
dictionary of the weights. -/
theorem rebalance_never_completes (hn : 0 < n) {cfg : Config ℝ n} (hcap : 0 < cfg.weightCap)
    (log : Flt ℝ → Flt ℝ) (s : Snapshot ℝ) (st : State ℝ) :
    let after := runRebalance psycopg log Real.sqrt cfg s st
    ¬ Completes (truncMinute s.clock) st after ∧ after.1 = st ∧
      (after.2 = some .programmingError ∧ ¬ NullClose cfg s st.table ∨
        after.2 = some .typeError ∧ NullClose cfg s st.table) := by
  intro after
  have hcases : after = (st, some .programmingError) ∧ ¬ NullClose cfg s st.table ∨
      after = (st, some .typeError) ∧ NullClose cfg s st.table :=
    runRebalance_psycopg (fun _ => Real.sqrt_pos_of_pos) hn hcap s st
  rcases hcases with ⟨h, hnull⟩ | ⟨h, hnull⟩
  · rw [h]
    exact ⟨not_completes_raised, rfl, .inl ⟨rfl, hnull⟩⟩
  · rw [h]
    exact ⟨not_completes_raised, rfl, .inr ⟨rfl, hnull⟩⟩

/-! ## One symbol with a candle and a forecast -/

/-- BTC alone, under the default settings. -/
noncomputable def btcOnly : Config ℝ 1 where
  symbols _ := "BTCUSDT"
  covarianceLookbackDays := 7
  returnLookbackMinutes := 120
  diagonalShrinkageLambda := 1e-6
  maxOptIters := 120
  optStepSize := 0.05
  weightCap := 0.6
  turnoverFeeRate := 0.001
  distinct := Function.injective_of_subsingleton _

/-- One candle and one forecast, a day before the rebalance. -/
noncomputable def quietSnapshot : Snapshot ℝ where
  prices := [⟨0, "BTCUSDT", some (.fin 100), some (.fin 100), some (.fin 100), some (.fin 100),
    some (.fin 1)⟩]
  forecasts := [⟨0, "BTCUSDT", some (.fin 0.01), none, none⟩]
  clock := day
  covarianceClock := day
  returnClock := day
  uniquePrices := List.nodup_singleton _
  uniqueForecasts := List.nodup_singleton _

theorem rebalance_never_completes_btcOnly :
    let after :=
      runRebalance psycopg realNumerics.log Real.sqrt btcOnly quietSnapshot ⟨[], [], none⟩
    ¬ Completes (truncMinute day) ⟨[], [], none⟩ after ∧ after.1 = ⟨[], [], none⟩ ∧
      (after.2 = some .programmingError ∧ ¬ NullClose btcOnly quietSnapshot [] ∨
        after.2 = some .typeError ∧ NullClose btcOnly quietSnapshot []) :=
  rebalance_never_completes Nat.one_pos (by norm_num [btcOnly]) _ _ _

/-- The first rebalance of one symbol raises on its weights, and not on a NULL. -/
theorem quiet_rebalance_fails :
    let after :=
      runRebalance psycopg realNumerics.log Real.sqrt btcOnly quietSnapshot ⟨[], [], none⟩
    after = (⟨[], [], none⟩, some .programmingError) ∧
      ¬ Completes (truncMinute quietSnapshot.clock) ⟨[], [], none⟩ after := by
  intro after
  have hcap : 0 < btcOnly.weightCap := by norm_num [btcOnly]
  have hsome : ∀ r ∈ quietSnapshot.prices, r.close ≠ none := by simp [quietSnapshot]
  have hnull : ¬ NullClose btcOnly quietSnapshot [] :=
    not_or.mpr ⟨not_seesNull hsome, not_seesNull hsome⟩
  have hafter : after = (⟨[], [], none⟩, some .programmingError) := by
    rcases runRebalance_psycopg (fun _ => Real.sqrt_pos_of_pos) Nat.one_pos hcap quietSnapshot
      ⟨[], [], none⟩ with ⟨h, _⟩ | ⟨_, h⟩
    · exact h
    · exact absurd h hnull
  rw [hafter]
  exact ⟨rfl, not_completes_raised⟩

end PortfolioEngine.RunRebalance
