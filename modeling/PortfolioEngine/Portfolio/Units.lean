import PortfolioEngine.Portfolio.LedgerRefinement

/-!
# The unit of the prices, in a rebalance

`rebalance_redenomination`: a rebalance reads the prices through ratios of two closes of one symbol,
in the returns that it estimates from as in the period returns, so that a change of the unit of each
symbol leaves the stores and the exceptions of every run as they are. A close can be NULL, infinite
or NaN.
-/

namespace PortfolioEngine.RunRebalance

open Tables Ledger Estimates Allocator Outputs
open Features (realNumerics)

variable {K : Type*} [Field K] [LinearOrder K] {n : ℕ} {scale : Symbol → K}

/-! ## Another unit -/

/-- A row of `prices` in the unit of its symbol. -/
def redenominate (scale : Symbol → K) (r : PriceRow (Option (Flt K))) :
    PriceRow (Option (Flt K)) :=
  let c := Option.map (Flt.fin (scale r.symbol)).mul
  { r with
    opening := c r.opening
    high := c r.high
    low := c r.low
    close := c r.close }

/-- The same tables and clocks, with the prices in other units. -/
def Snapshot.redenominate (scale : Symbol → K) (s : Snapshot K) : Snapshot K :=
  { s with
    prices := s.prices.map (RunRebalance.redenominate scale)
    uniquePrices := by
      rw [List.map_map]
      exact s.uniquePrices }

/-- A row of a price frame in the unit of its symbol. -/
def redenominateQuote (scale : Symbol → K) (q : Quote K) : Quote K :=
  { q with close := (Flt.fin (scale q.symbol)).mul q.close }

/-! ## The estimates -/

section Frames

variable {symbols : Fin n → Symbol}

theorem quotesSince_redenominate (scale : Symbol → K) (symbols : Fin n → Symbol)
    (prices : List (PriceRow (Option (Flt K)))) (start : ℤ) :
    quotesSince symbols (prices.map (redenominate scale)) start =
      (quotesSince symbols prices start).map (redenominateQuote scale) := by
  unfold quotesSince
  have hfilter : (prices.map (redenominate scale)).filter
      (fun r => (∃ i, symbols i = r.symbol) ∧ start ≤ r.time) =
        (prices.filter fun r => (∃ i, symbols i = r.symbol) ∧ start ≤ r.time).map
          (redenominate scale) := List.filter_map
  rw [hfilter, ← Backlog.map_ordered PriceRow.time PriceRow.time (redenominate scale)
    fun _ => rfl, List.map_map, List.map_map]
  refine List.map_congr_left fun r _ => ?_
  -- NaN has no unit
  have hclose : ∀ x : Option (Flt K), (x.map (Flt.fin (scale r.symbol)).mul).getD .nan =
      (Flt.fin (scale r.symbol)).mul (x.getD .nan) := by
    rintro (_ | x) <;> rfl
  show (⟨r.time, r.symbol, _⟩ : Quote K) = ⟨r.time, r.symbol, _⟩
  rw [← hclose]
  rfl

theorem cell_redenominate (scale : Symbol → K) (df : List (Quote K)) (symbol : Symbol) (t : ℤ) :
    cell (df.map (redenominateQuote scale)) symbol t =
      (Flt.fin (scale symbol)).mul (cell df symbol t) := by
  unfold cell
  have hfind : (df.map (redenominateQuote scale)).find? (fun q => q.time = t ∧ q.symbol = symbol) =
      (df.find? fun q => q.time = t ∧ q.symbol = symbol).map (redenominateQuote scale) :=
    List.find?_map
  rw [hfind]
  cases hq : df.find? fun q => q.time = t ∧ q.symbol = symbol with
  | none => rfl
  | some q =>
    have hfound : q.time = t ∧ q.symbol = symbol := by simpa using List.find?_some hq
    rw [← hfound.2]
    rfl

theorem pivot_redenominate (scale : Symbol → K) (df : List (Quote K)) (symbols : Fin n → Symbol) :
    pivot (df.map (redenominateQuote scale)) symbols =
      (pivot df symbols).map fun row i => (Flt.fin (scale (symbols i))).mul (row i) := by
  have htimes : times (df.map (redenominateQuote scale)) = times df := by
    unfold times
    rw [List.map_map]
    rfl
  unfold pivot
  rw [htimes, List.map_map]
  refine List.map_congr_left fun t _ => ?_
  funext i
  exact cell_redenominate scale df (symbols i) t

theorem toReturnMatrix_redenominate [IsStrictOrderedRing K] (hscale : ∀ s, 0 < scale s)
    (log : Flt K → Flt K) (df : List (Quote K)) (symbols : Fin n → Symbol) :
    toReturnMatrix log (df.map (redenominateQuote scale)) symbols =
      toReturnMatrix log df symbols := by
  have hreturn : ∀ (i : Fin n) (prev cur : Flt K),
      logReturn log ((Flt.fin (scale (symbols i))).mul prev)
        ((Flt.fin (scale (symbols i))).mul cur) = logReturn log prev cur := by
    intro i prev cur
    unfold logReturn
    rw [Flt.mul_div_mul (hscale _)]
  have hfirst : (fun _ : Fin n => (Flt.nan : Flt K)) ::
      (pivot df symbols).map (fun row i => (Flt.fin (scale (symbols i))).mul (row i)) =
        ((fun _ => .nan) :: pivot df symbols).map
          fun row i => (Flt.fin (scale (symbols i))).mul (row i) := rfl
  unfold toReturnMatrix
  rw [pivot_redenominate]
  dsimp only
  rw [hfirst, List.zipWith_map]
  simp only [hreturn]

theorem estimates_redenominate [IsStrictOrderedRing K] (hscale : ∀ s, 0 < scale s)
    (log : Flt K → Flt K) (df : List (Quote K)) (symbols : Fin n → Symbol) (shrinkage : K) :
    estimateMu log (df.map (redenominateQuote scale)) symbols = estimateMu log df symbols ∧
      estimateCovariance log (df.map (redenominateQuote scale)) symbols shrinkage =
        estimateCovariance log df symbols shrinkage := by
  constructor
  · unfold estimateMu
    rw [toReturnMatrix_redenominate hscale]
  · unfold estimateCovariance
    rw [toReturnMatrix_redenominate hscale]

end Frames

/-! ## The period returns -/

section Points

variable [IsStrictOrderedRing K]

def redenominatePoint (c : K) (p : PricePoint (Flt K)) : PricePoint (Flt K) :=
  { p with close := (Flt.fin c).mul p.close }

omit [IsStrictOrderedRing K] in
theorem mapM_pricePoint_redenominate (scale : Symbol → K)
    (rows : List (PriceRow (Option (Flt K)))) :
    (rows.map (redenominate scale)).mapM pricePoint =
      (rows.mapM pricePoint).map
        (List.map fun p => (p.1, redenominatePoint (scale p.1) p.2)) := by
  induction rows with
  | nil => rfl
  | cons r rows ih =>
    rw [List.map_cons, List.mapM_cons, List.mapM_cons, ih]
    obtain ⟨time, symbol, opening, high, low, close, volume⟩ := r
    cases close with
    | none => rfl
    | some close =>
      cases rows.mapM pricePoint with
      | error e => rfl
      | ok d => rfl

omit [IsStrictOrderedRing K] in
theorem fetchLatestPrices_redenominate (adapts : Param K → Bool) (scale : Symbol → K)
    (symbols : Fin n → Symbol) (prices : List (PriceRow (Option (Flt K)))) (asOf : ℤ) :
    fetchLatestPrices adapts symbols (prices.map (redenominate scale)) asOf =
      (fetchLatestPrices adapts symbols prices asOf).map
        (List.map fun p => (p.1, redenominatePoint (scale p.1) p.2)) := by
  have hrows : latestPrices symbols (prices.map (redenominate scale)) asOf =
      (latestPrices symbols prices asOf).map (redenominate scale) :=
    latestPerSymbol_map symbols (fun _ => rfl) (fun _ => rfl) asOf prices
  unfold fetchLatestPrices execute
  rw [hrows]
  split_ifs
  · exact mapM_pricePoint_redenominate scale _
  · rfl

theorem periodReturn_redenominate {c : K} (hc : 0 < c) (src dst : Option (PricePoint (Flt K))) :
    periodReturn (src.map (redenominatePoint c)) (dst.map (redenominatePoint c)) =
      periodReturn src dst := by
  cases src with
  | none => rfl
  | some src =>
    cases dst with
    | none => rfl
    | some dst =>
      show (if (Flt.fin c).mul src.close ≤ .fin 0 then Flt.fin 0
        else (((Flt.fin c).mul dst.close).div ((Flt.fin c).mul src.close)).sub (.fin 1)) =
          if src.close ≤ .fin 0 then .fin 0 else (dst.close.div src.close).sub (.fin 1)
      simp only [Flt.mul_le_zero hc, Flt.mul_div_mul hc]

omit [Field K] [LinearOrder K] [IsStrictOrderedRing K] in
theorem lookup_map_key {α β : Type*} (f : Symbol → α → β) (d : Dict α) (s : Symbol) :
    (d.map fun p => (p.1, f p.1 p.2)).lookup s = (d.lookup s).map (f s) := by
  induction d with
  | nil => rfl
  | cons p d ih =>
    rw [List.map_cons, List.lookup_cons, List.lookup_cons, ih]
    by_cases hs : s = p.1
    · subst hs
      rw [beq_self_eq_true]
      rfl
    · rw [beq_false_of_ne hs]

theorem periodAssetReturns_redenominate (hscale : ∀ s, 0 < scale s) (adapts : Param K → Bool)
    (symbols : Fin n → Symbol) (prices : List (PriceRow (Option (Flt K)))) (fromTime toTime : ℤ) :
    periodAssetReturns adapts symbols (prices.map (redenominate scale)) fromTime toTime =
      periodAssetReturns adapts symbols prices fromTime toTime := by
  unfold periodAssetReturns
  rw [fetchLatestPrices_redenominate, fetchLatestPrices_redenominate]
  cases fetchLatestPrices adapts symbols prices fromTime with
  | error e => rfl
  | ok fromPrices =>
    cases fetchLatestPrices adapts symbols prices toTime with
    | error e => rfl
    | ok toPrices =>
      show Except.ok _ = Except.ok _
      simp only [lookup_map_key fun s => redenominatePoint (scale s),
        periodReturn_redenominate (hscale _)]

end Points

/-! ## The rebalances -/

section Whole

variable [IsStrictOrderedRing K]

theorem allocate_redenominate (hscale : ∀ s, 0 < scale s) (adapts : Param K → Bool)
    (log : Flt K → Flt K) (sqrt : K → K) (cfg : Config K n) (s : Snapshot K) :
    allocate adapts log sqrt cfg (s.redenominate scale) = allocate adapts log sqrt cfg s := by
  have hprices : (s.redenominate scale).prices = s.prices.map (redenominate scale) := rfl
  unfold allocate fetchReturnHistory fetchShortReturnHistory
  rw [hprices, quotesSince_redenominate, quotesSince_redenominate]
  unfold execute
  split_ifs
  · show (_ >>= _ : Except Error (Allocation K n)) = _
    simp only [ok_bind, (estimates_redenominate hscale log _ cfg.symbols
      cfg.diagonalShrinkageLambda).1, (estimates_redenominate hscale log _ cfg.symbols
      cfg.diagonalShrinkageLambda).2]
    rfl
  · rfl
  · rfl
  · rfl

theorem computePayload_redenominate (hscale : ∀ s, 0 < scale s) (adapts : Param K → Bool)
    (log : Flt K → Flt K) (sqrt : K → K) (cfg : Config K n) (s : Snapshot K)
    (table : List (PortfolioRow (Flt K))) :
    computePayload adapts log sqrt cfg (s.redenominate scale) table =
      computePayload adapts log sqrt cfg s table := by
  have hprices : (s.redenominate scale).prices = s.prices.map (redenominate scale) := rfl
  unfold computePayload
  simp only [allocate_redenominate hscale, hprices, periodAssetReturns_redenominate hscale]
  rfl

/-- **The unit of the prices does not matter.** Whatever the driver adapts and whatever the tables
hold, a rebalance on prices that are quoted in other units stores the same and raises the same, and
so does every run of rebalances. -/
theorem rebalance_redenomination (hscale : ∀ s, 0 < scale s) (adapts : Param K → Bool)
    (log : Flt K → Flt K) (sqrt : K → K) (cfg : Config K n) :
    (∀ s st, runRebalance adapts log sqrt cfg (s.redenominate scale) st =
        runRebalance adapts log sqrt cfg s st) ∧
      ∀ ss st, afterSnapshots adapts log sqrt cfg (ss.map (Snapshot.redenominate scale)) st =
        afterSnapshots adapts log sqrt cfg ss st := by
  have hone : ∀ (s : Snapshot K) (st : State K),
      runRebalance adapts log sqrt cfg (s.redenominate scale) st =
        runRebalance adapts log sqrt cfg s st := by
    intro s st
    unfold runRebalance
    rw [computePayload_redenominate hscale]
  refine ⟨hone, fun ss st => ?_⟩
  unfold afterSnapshots
  rw [List.foldl_map]
  simp only [hone]

/-- Two rebalances on prices in cents. -/
theorem rebalance_redenomination_cents :
    afterSnapshots (fun _ => true) realNumerics.log Real.sqrt btcOnly
        ([quietSnapshot, quietSnapshot].map (Snapshot.redenominate fun _ => 100)) ⟨[], [], none⟩ =
      afterSnapshots (fun _ => true) realNumerics.log Real.sqrt btcOnly
        [quietSnapshot, quietSnapshot] ⟨[], [], none⟩ :=
  (rebalance_redenomination (fun _ => by norm_num) _ _ _ _).2 _ _

end Whole

end PortfolioEngine.RunRebalance
